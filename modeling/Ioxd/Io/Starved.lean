import Ioxd.Io.Drain

/-!
# Starved recvs and the buffers that come back

A recv that found the ring empty is parked, and `rearm_starved` re-arms at
most one parked recv for each buffer returned since the last sweep, then
forgets the count. So a buffer in the ring is accounted for, while anybody is
parked, either by the count or by a re-armed recv that has still to take one.
Two things lose it: a re-armed recv that ends without a buffer, and a sweep
that counts more returns than it finds recvs parked while a `-ENOBUFS` is
still in the completion queue. A step that does neither `settles`.
-/

namespace Ioxd.Io

open Flat Ioxd.Pipe Runs

def Cqe.starves : Cqe → Bool
  | .recv _ result .. => result == -ENOBUFS
  | _ => false

namespace Worker

variable {w w' : Worker}

/-- Somebody is parked, or will be once the queue has been dispatched. -/
def anyStarved (w : Worker) : Bool := !w.starved.isEmpty || w.cq.any Cqe.starves

/-- Not draining; no re-armed recv ends without a buffer while another is
starved; no sweep has more returns than parked recvs while a `-ENOBUFS` is in
the queue. -/
def settles (w : Worker) : Act → Bool
  | .recv c result more fill =>
    !w.draining &&
      (fill.isSome || result == -ENOBUFS || more || !w.swept.contains c || !w.anyStarved)
  | .loop .. =>
    !w.draining &&
      (w.phase != .sweep || !w.tasks.isEmpty || !w.cq.any Cqe.starves ||
        decide (w.bufs.returned ≤ w.starved.length))
  | _ => !w.draining

/-- While anybody is starved, the buffers in the ring are accounted for. -/
def Owes (w : Worker) : Prop :=
  w.anyStarved = true → w.bufs.tail ≤ w.bufs.head + w.bufs.returned + w.swept.length

structure Owed (w : Worker) : Prop where
  listed : w.Listed
  owed : w.Owes

theorem anyStarved_of (h : w'.anyStarved = true) (hs : ∀ c ∈ w'.starved, c ∈ w.starved)
    (hq : ∀ x ∈ w'.cq, x.starves = true → x ∈ w.cq) : w.anyStarved = true := by
  simp only [anyStarved, Bool.or_eq_true, Bool.not_eq_true', List.isEmpty_eq_false_iff_exists_mem,
    List.any_eq_true] at h ⊢
  obtain ⟨c, hc⟩ | ⟨x, hx, hn⟩ := h
  · exact .inl ⟨c, hs c hc⟩
  · exact .inr ⟨x, hq x hx hn, hn⟩

theorem mem_of_starves {x y : Cqe} {q : List Cqe} (hx : x ∈ q ++ [y]) (hy : y.starves = false)
    (hs : x.starves = true) : x ∈ q := by
  rcases List.mem_append.mp hx with hx | hx
  · exact hx
  · rw [List.mem_singleton.mp hx, hy] at hs
    cases hs

theorem Owes.of (h : w.Owes) (hs : ∀ c ∈ w'.starved, c ∈ w.starved)
    (hq : ∀ x ∈ w'.cq, x.starves = true → x ∈ w.cq) (hw : w'.swept = w.swept)
    (hb : w.bufs.Fed w'.bufs) : w'.Owes := by
  intro ha
  have := h (anyStarved_of ha hs hq)
  have := hb.head
  have := hb.returned
  rw [hw]
  omega

theorem Owes.calm (h : w.Owes) (hc : Calm w w') : w'.Owes :=
  h.of hc.starved (fun _ hx _ => hc.cq ▸ hx) hc.swept hc.bufs

theorem Owed.calm (h : w.Owed) (hc : Calm w w') : w'.Owed :=
  ⟨h.listed.calm hc, h.owed.calm hc⟩

/-- Completions were taken off the queue or starve nobody, and nothing else
changed. -/
theorem Owed.of_eq (h : w.Owed) (hq : ∀ x ∈ w'.cq, x.starves = true → x ∈ w.cq)
    (hw : w'.swept = w.swept) (hs : w'.starved = w.starved) (hb : w.bufs.Fed w'.bufs)
    (hr : ∀ c, (w'.conns c).recv = (w.conns c).recv) : w'.Owed where
  listed c := by
    rw [hr c, hs]
    exact h.listed c
  owed := h.owed.of (fun _ hc => hs ▸ hc) hq hw hb

-- ---------------------------------------------------------------------------
-- The moves that are not calm
-- ---------------------------------------------------------------------------

theorem owed_postRecv (h : w.Owed) (hq : w.settles (.recv c result more fill) = true)
    (hp : w.postRecv c result more fill = some w') : w'.Owed := by
  have hr : ∀ d, ((w.setConn c ({ · with armed := more })).conns d).recv = (w.conns d).recv := by
    intro d
    by_cases hd : d = c <;> simp [setConn, hd]
  have hl : ∀ d, ((w.setConn c ({ · with armed := more })).conns d).recv = .starved →
      d ∈ w.starved := fun d hd => h.listed d (hr d ▸ hd)
  obtain ⟨-, hpub, -, ⟨m, -, hne, hn, rfl⟩ | ⟨-, -, he, rfl⟩ | ⟨rfl, hn, rfl⟩⟩ := postRecv_cases hp
  · refine ⟨hl, fun ha => ?_⟩
    have := h.owed (anyStarved_of ha (fun _ h => h) fun x hx hs =>
      mem_of_starves hx (by simpa [Cqe.starves] using hn) hs)
    have : w.swept.length ≤ (w.swept.erase c).length + 1 := by
      rw [List.length_erase]
      split <;> omega
    simp only [Bufring.take]
    omega
  · exact ⟨hl, fun _ => by simp only [setConn]; omega⟩
  · refine ⟨hl, fun ha => ?_⟩
    have hw : w.anyStarved = true := anyStarved_of ha (fun _ h => h) fun x hx hs =>
      mem_of_starves hx (by simpa [Cqe.starves] using hn) hs
    have := h.owed hw
    simp only [setConn]
    split
    · exact this
    · have hc : w.draining = false ∧ c ∉ w.swept := by
        simpa [settles, hn, hw, ‹¬ more = true›] using hq
      rw [List.erase_of_not_mem hc.2]
      exact this

theorem owed_rearmStarved (h : w.Owed) (hd : w.draining = false)
    (hq : w.cq.any Cqe.starves = true → w.bufs.returned ≤ w.starved.length) :
    w.rearmStarved.Owed := by
  rcases rearmStarved_cases (w := w) fun _ => hd with ⟨hs, he⟩ | ⟨u, hc, hr, he⟩
  · refine he ▸ ⟨h.listed, fun ha => ?_⟩
    have hw : w.anyStarved = true := ha
    have ho := h.owed hw
    have hz : w.bufs.returned = 0 := by
      rcases hs with hs | hs
      · have := hq (by simpa [anyStarved, hs] using hw)
        simpa [hs] using this
      · exact hs
    simp only [forget]
    omega
  · have hl := h.listed.sweep hc hr
    refine he ▸ ⟨hl, fun ha => ?_⟩
    have hcq : u.cq = w.cq := hc.cq
    -- what the sweep re-arms owes exactly what it forgets
    have hle : w.bufs.returned ≤ w.starved.length := by
      by_cases hl : w.bufs.returned ≤ w.starved.length
      · exact hl
      · refine hq ?_
        have : min w.bufs.returned w.starved.length = w.starved.length := by omega
        simpa [anyStarved, this, hcq] using ha
    have ho := h.owed (anyStarved_of ha (fun c hc => List.mem_of_mem_drop hc)
      fun x hx _ => hcq ▸ hx)
    have h1 : u.bufs.head = w.bufs.head := hc.bufs.head
    have h2 : u.bufs.returned + w.bufs.tail = 0 + u.bufs.tail := hc.bufs.returned
    simp only [List.length_append, List.length_take]
    omega

theorem owed_onRecv (h : w.Owed) (ha : result = -ENOBUFS →
      w.bufs.tail ≤ w.bufs.head + w.bufs.returned + w.swept.length) :
    (w.onRecv c result more buf).Owed := by
  rcases onRecv_cases (w := w) c result more buf with hc | ⟨hn, -, v, hc, he⟩
  · exact h.calm hc
  · refine he ▸ ⟨(h.listed.calm hc).starve c, fun _ => ?_⟩
    have := ha hn
    have := hc.bufs.head
    have := hc.bufs.returned
    simp only [starvedPush, setRecv, setConn, hc.swept]
    omega

theorem owed_dispatch (h : w.Owed) (pr : Pipereader) (x : Cqe) (ha : x.starves = true →
      w.bufs.tail ≤ w.bufs.head + w.bufs.returned + w.swept.length) : (w.dispatch pr x).Owed := by
  cases x with
  | recv c result more buf => exact owed_onRecv h fun hn => ha (by simp [Cqe.starves, hn])
  | op k => exact h.calm (coroResume_calm k)
  | accept l result more => exact h.calm (onAccept_calm l result more pr)
  | drain result =>
    simp only [dispatch]
    split
    · exact h.of_eq (fun _ h _ => h) rfl rfl (.refl _) fun _ => rfl
    · exact h

theorem owed_loopStep (h : w.Owed) (hd : w.draining = false) (due : List Nat) (pr : Pipereader)
    (hq : w.phase = .sweep → w.cq.any Cqe.starves = true →
      w.bufs.returned ≤ w.starved.length) : (w.loopStep due pr).Owed := by
  unfold loopStep
  split
  · split
    · exact h.of_eq (fun _ h _ => h) rfl rfl (.refl _) fun _ => rfl
    · exact h.of_eq (fun _ h _ => h) rfl rfl (.refl _) fun _ => rfl
  · exact h.of_eq (fun _ h _ => h) rfl rfl (.refl _) fun _ => rfl
  · split
    · rename_i k rest _
      have h' : Owed { w with ready := rest } :=
        h.of_eq (fun _ h _ => h) rfl rfl (.refl _) fun _ => rfl
      exact h'.calm (coroResume_calm k)
    · exact h.of_eq (fun _ h _ => h) rfl rfl (.refl _) fun _ => rfl
  · rename_i hp
    exact (owed_rearmStarved h hd (hq hp)).of_eq (fun _ h _ => h) rfl rfl (.refl _) fun _ => rfl
  · exact h.of_eq (fun _ h _ => h) rfl rfl w.bufs.publish_fed fun _ => rfl
  · exact h.of_eq (fun _ h _ => h) rfl rfl (.refl _) fun _ => rfl
  · exact h.of_eq (fun _ h _ => h) rfl rfl (.refl _) fun _ => rfl
  · rename_i n hp
    split
    · rename_i x rest hx
      have h' : Owed { w with cq := rest, phase := .batch n } :=
        h.of_eq (fun y hy _ => hx ▸ List.mem_cons_of_mem x hy) rfl rfl (.refl _) fun _ => rfl
      refine owed_dispatch h' pr x fun hn => ?_
      exact h.owed (by simp [anyStarved, hx, hn])
    · exact h.of_eq (fun _ h _ => h) rfl rfl (.refl _) fun _ => rfl
  · exact (h.calm (rearmStalled_calm due)).of_eq (fun _ h _ => h) rfl rfl (.refl _) fun _ => rfl
  · exact h

theorem owed_doTask (h : w.Owed) (hd : w.draining = false) (t : Task) (ts : List Task) :
    Owed ({ w with tasks := ts }.doTask t) := by
  have h' : Owed { w with tasks := ts } := h.of_eq (fun _ h _ => h) rfl rfl (.refl _) fun _ => rfl
  cases t with
  | unref c => exact h'.calm (connUnref_calm c)
  | tail c more => exact h'.calm (onRecvTail_calm c more fun hw => by simp [hd] at hw)
  | drain =>
    simp only [doTask]
    split
    · exact h'
    · rename_i c hl
      have hc := recvDrain_calm
        (w := { w with starved := w.starved.dropLast, tasks := .drain :: ts }) c
      have hv : Owes { w with starved := w.starved.dropLast, tasks := .drain :: ts } :=
        h.owed.of (fun _ hd => List.dropLast_subset _ hd) (fun _ h _ => h) rfl (.refl _)
      exact ⟨h.listed.drainLast hl, hv.calm hc⟩

theorem owed_step (h : w.Owed) (hq : w.settles a = true) (hs : w.step a = some w') : w'.Owed := by
  cases a with
  | stop =>
    cases hs
    exact h.of_eq (fun _ h _ => h) rfl rfl (.refl _) fun _ => rfl
  | enter =>
    cases hs
    exact h.of_eq (fun _ h _ => h) rfl rfl w.bufs.publish_fed fun _ => rfl
  | recv c result more fill => exact owed_postRecv h hq hs
  | op k =>
    simp only [step, Option.ite_none_right_eq_some, Option.some.injEq] at hs
    exact hs.2 ▸ h.of_eq (fun _ hx => mem_of_starves hx rfl) rfl rfl (.refl _) fun _ => rfl
  | accept l result more =>
    obtain rfl := postAccept_cases hs
    exact h.of_eq (fun _ hx => mem_of_starves hx rfl) rfl rfl (.refl _) fun _ => rfl
  | cancelled result =>
    simp only [step, Option.ite_none_right_eq_some, Option.some.injEq] at hs
    exact hs.2 ▸ h.of_eq (fun _ hx => mem_of_starves hx rfl) rfl rfl (.refl _) fun _ => rfl
  | giveUp =>
    simp only [step, Option.ite_none_right_eq_some, Option.some.injEq] at hs
    exact hs.2 ▸ h.of_eq (fun _ h _ => h) rfl rfl (.refl _) fun _ => rfl
  | loop due pr =>
    simp only [settles, Bool.and_eq_true, Bool.not_eq_true'] at hq
    simp only [step] at hs
    split at hs
    · cases hs
    · cases hs
      exact owed_doTask h hq.1 _ _
    · rename_i _ ht
      cases hs
      refine owed_loopStep h hq.1 due pr fun hp hn => ?_
      simpa [ht, hp, hn] using hq.2
  | go =>
    simp only [settles, Bool.not_eq_true'] at hq
    simp only [step] at hs
    split at hs
    · cases hs
    · split at hs
      · cases hs
        exact h.calm (coGoes_calm _ fun hd => by simp [hq] at hd)
      · cases hs
  | co a =>
    simp only [step] at hs
    split at hs
    · cases hs
    · split at hs
      · exact h.calm (coActs_calm hs)
      · cases hs

theorem owed_start (bufCount fileSlots : Nat) (certs : List Bool) (pr : Pipereader)
    (slab : Nat → Mem Byte) : (start bufCount fileSlots certs pr slab).Owed := by
  refine Owed.calm ?_ (foldl_calm _ (fun w l => armAccept_calm l) _ _)
  exact ⟨nofun, nofun⟩

/-- In every run whose steps all settle, no recv is parked where the sweep has
been made and every buffer is back in the ring, unless as many re-armed recvs
as there are buffers have still to take one. -/
theorem starved_rearmed (bufCount fileSlots : Nat) (certs : List Bool) (pr : Pipereader)
    (slab : Nat → Mem Byte) (h : Reach step settles (start bufCount fileSlots certs pr slab) w)
    (hs : w.bufs.returned = 0) (hb : w.bufs.tail = w.bufs.head + bufCount)
    (hw : w.swept.length < bufCount) (c : Nat) : (w.conns c).recv ≠ .starved := by
  have ho : w.Owed := h.invariant (owed_start bufCount fileSlots certs pr slab)
    fun _ _ _ h hq hs => owed_step h hq hs
  intro hr
  have hm := ho.listed c hr
  have := ho.owed (by simp [anyStarved, List.ne_nil_of_mem hm])
  omega

/-- A worker with one plain listener and one buffer. -/
def oneBuffer : Worker := start 1 0 [false] (.init (fun _ => 0) 64) fun _ _ => 0

/-- Three connections: the last one's bytes take the buffer, the recvs of the
other two find the ring empty. The bytes are dropped, the sweep re-arms the
first of the two, and the loop goes on to its enter. -/
def oneSwept : List Act :=
  [.accept 0 3 true, .accept 0 4 true, .accept 0 5 true] ++ turns 14 ++ [.co (.more 0)] ++
    turns 1 ++ [.co (.more 1)] ++ turns 1 ++ [.co (.more 2)] ++ turns 3 ++
    [.recv 2 1 true (some fun _ => 65), .recv 0 (-ENOBUFS) false none,
      .recv 1 (-ENOBUFS) false none] ++ turns 2 ++
    [.go, .co (.reader 2 (.drop 1)), .co (.more 2)] ++ turns 10

/-- The recv of connection `c` takes the buffer, and its handler drops the
byte and waits again; the loop goes around to its enter. -/
def served (c : Nat) : List Act :=
  [.recv c 1 true (some fun _ => 65)] ++ turns 2 ++
    [.go, .co (.reader c (.drop 1)), .co (.more c)] ++ turns 8

theorem starved_rearmed_served :
    ∃ w, Reach step settles oneBuffer w ∧ w.cq = [] ∧ w.bufs.published = w.bufs.tail ∧
      w.bufs.tail = w.bufs.head + 1 ∧ ∀ c, (w.conns c).recv ≠ .starved := by
  have hr : (perform step settles oneBuffer (oneSwept ++ served 0 ++ served 1)).any
      (fun w => decide (w.cq = [] ∧ w.bufs.published = w.bufs.tail ∧
        w.bufs.tail = w.bufs.head + 1 ∧ w.bufs.returned = 0 ∧ w.swept.length < 1)) = true := by
    decide
  obtain ⟨w, hw, he⟩ := (Option.any_eq_true _ _).mp hr
  obtain ⟨hq, hp, ht, hs, hsw⟩ := of_decide_eq_true he
  have h := Reach.start.perform hw
  refine ⟨w, h, hq, hp, ht, ?_⟩
  exact starved_rearmed 1 0 [false] (.init (fun _ => 0) 64) (fun _ _ => 0) h hs ht hsw

/-- The re-armed recv ends at the peer's FIN instead: the other one stays
parked with the whole ring free. -/
theorem starved_forgotten :
    ∃ w, Reach step (fun _ _ => true) oneBuffer w ∧ w.draining = false ∧ w.running = none ∧
      w.tasks = [] ∧ w.cq = [] ∧ w.bufs.returned = 0 ∧ w.bufs.published = w.bufs.tail ∧
      w.bufs.tail = w.bufs.head + 1 ∧ (w.conns 1).recv = .starved := by
  have hr : (perform step (fun _ _ => true) oneBuffer
      (oneSwept ++ [.recv 0 0 false none] ++ turns 2 ++ [.go, .co .finish] ++ turns 10)).any
      (fun w => decide (w.draining = false ∧ w.running = none ∧ w.tasks = [] ∧ w.cq = [] ∧
        w.bufs.returned = 0 ∧ w.bufs.published = w.bufs.tail ∧ w.bufs.tail = w.bufs.head + 1 ∧
        (w.conns 1).recv = .starved)) = true := by decide
  obtain ⟨w, hw, he⟩ := (Option.any_eq_true _ _).mp hr
  exact ⟨w, Reach.start.perform hw, of_decide_eq_true he⟩

end Worker

end Ioxd.Io
