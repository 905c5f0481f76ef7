import Ioxd.Io.WorkerLaws

/-!
# Nothing is armed behind the shutdown cancel

Once `begin_drain` has staged its blanket cancel, a recv armed again would
never be cancelled and its handler would park behind it for the whole grace
period. An accept completion, a stalled listener and a resume after a pause
keep to that. Three sites do not look at `draining`: the end of
`ioxd__conn_on_recv` for a multishot that ended with data, the recv parked on
`-ENOBUFS` after `begin_drain` has emptied the list, and
`ioxd__socket_connect`. `quiet` is a step that comes to none of them.
-/

namespace Ioxd.Io

open Flat Ioxd.Pipe Runs

namespace Worker

variable {w w' : Worker}

/-- Behind the shutdown cancel, a recv that ends with data or in `-ENOBUFS`
finds its connection closed, pausing or at the end of its input, and no
outbound connect completes. -/
def quiet (w : Worker) : Act → Bool
  | .loop .. =>
    !w.draining ||
      match w.tasks with
      | .tail c more :: _ => more || !decide (w.Rearms c)
      | _ :: _ => true
      | [] =>
        match w.phase, w.cq with
        | .batch (_ + 1), .recv c result .. :: _ => result != -ENOBUFS || !decide (w.Rearms c)
        | _, _ => true
  | .go =>
    !w.draining ||
      match w.running with
      | some k =>
        match (w.coros k).state with
        | .running (some (.setopt _)) => false
        | _ => true
      | none => true
  | _ => true

/-- Every recv in `RECV_STARVED` is in the worker's list. -/
def Listed (w : Worker) : Prop := ∀ c, (w.conns c).recv = .starved → c ∈ w.starved

structure Shut (w : Worker) : Prop where
  arms : ∀ a ∈ w.arms, a.draining = false
  stalled : w.draining = true → ∀ l ∈ w.listeners, l.stalled = true
  listed : w.Listed
  drained : w.draining = true → .drain ∈ w.tasks ∨ w.starved = []

theorem Listed.calm (h : w.Listed) (hc : Calm w w') : w'.Listed := fun c hr =>
  (hc.listed c hr).2 (h c (hc.listed c hr).1)

theorem Shut.calm (h : w.Shut) (hc : Calm w w') : w'.Shut where
  arms a ha := (hc.arms a ha).elim (h.arms a) id
  stalled hd := hc.stalled (hc.draining ▸ hd) (h.stalled (hc.draining ▸ hd))
  listed := h.listed.calm hc
  drained hd := (h.drained (hc.draining ▸ hd)).imp (hc.tasks _) fun hs =>
    List.eq_nil_iff_forall_not_mem.mpr fun c hm => by simpa [hs] using hc.starved c hm

theorem Shut.of_eq (h : w.Shut) (hd : w'.draining = w.draining) (ha : w'.arms = w.arms)
    (hl : w'.listeners = w.listeners) (ht : w'.tasks = w.tasks) (hs : w'.starved = w.starved)
    (hr : ∀ c, (w'.conns c).recv = (w.conns c).recv) : w'.Shut where
  arms := ha ▸ h.arms
  stalled := hd ▸ hl ▸ h.stalled
  listed c := by
    rw [hr c, hs]
    exact h.listed c
  drained := hd ▸ ht ▸ hs ▸ h.drained

-- ---------------------------------------------------------------------------
-- The moves that are not calm
-- ---------------------------------------------------------------------------

theorem shut_postRecv (h : w.Shut) (hp : w.postRecv c result more fill = some w') : w'.Shut := by
  have hr : ∀ d, ((w.setConn c ({ · with armed := more })).conns d).recv = (w.conns d).recv := by
    intro d
    by_cases hd : d = c <;> simp [setConn, hd]
  obtain ⟨-, -, -, ⟨m, -, -, -, rfl⟩ | ⟨-, -, -, rfl⟩ | ⟨-, -, rfl⟩⟩ := postRecv_cases hp
  · exact h.of_eq rfl rfl rfl rfl rfl hr
  · exact h.of_eq rfl rfl rfl rfl rfl hr
  · exact h.of_eq rfl rfl rfl rfl rfl hr

theorem shut_postAccept (h : w.Shut) (hp : w.postAccept l result more = some w') : w'.Shut := by
  obtain rfl := postAccept_cases hp
  refine ⟨h.arms, fun hd x hx => ?_, h.listed, h.drained⟩
  obtain ⟨i, hi, rfl⟩ := List.getElem_of_mem hx
  have hi' : i < w.listeners.length := by simpa [setListener] using hi
  simp only [setListener, List.getElem_modify]
  split <;> exact h.stalled hd w.listeners[i] (List.getElem_mem hi')

/-- One turn of the loop of `begin_drain`: the last parked recv is ended. -/
theorem Listed.drainLast (h : w.Listed) (hl : w.starved.getLast? = some c) :
    Listed ({ w with starved := w.starved.dropLast, tasks := .drain :: ts }.recvDrain c) := by
  intro d hr
  have hc := recvDrain_calm (w := { w with starved := w.starved.dropLast, tasks := .drain :: ts }) c
  have hdc : d ≠ c := by
    rintro rfl
    exact recvDrain_recv d hr
  have hm := h d (hc.listed d hr).1
  rw [← List.dropLast_append_getLast? c hl, List.mem_append, List.mem_singleton] at hm
  exact (hc.listed d hr).2 (hm.resolve_right hdc)

theorem shut_drainLast (h : w.Shut) (hl : w.starved.getLast? = some c) :
    Shut ({ w with starved := w.starved.dropLast, tasks := .drain :: ts }.recvDrain c) := by
  have hc := recvDrain_calm (w := { w with starved := w.starved.dropLast, tasks := .drain :: ts }) c
  exact ⟨fun a ha => (hc.arms a ha).elim (h.arms a) id,
    fun hd => hc.stalled (hc.draining ▸ hd) (h.stalled (hc.draining ▸ hd)), h.listed.drainLast hl,
    fun _ => .inl (hc.tasks _ (List.mem_cons_self ..))⟩

theorem shut_doTask (h : w.Shut) (ht : w.tasks = t :: ts)
    (hq : w.draining = true → ∀ c, t = .tail c false → ¬ w.Rearms c) :
    Shut ({ w with tasks := ts }.doTask t) := by
  have hd : t ≠ .drain → Shut { w with tasks := ts } := fun hne =>
    ⟨h.arms, h.stalled, h.listed, fun hd => by simpa [ht, Ne.symm hne] using h.drained hd⟩
  cases t with
  | unref c => exact (hd nofun).calm (connUnref_calm c)
  | tail c more =>
    refine (hd nofun).calm (onRecvTail_calm c more ?_)
    rintro hdr rfl
    exact hq hdr c rfl
  | drain =>
    simp only [doTask]
    split
    · rename_i hs
      exact ⟨h.arms, h.stalled, h.listed, fun _ => .inr (List.getLast?_eq_none_iff.mp hs)⟩
    · exact shut_drainLast h ‹_›

theorem shut_forget (h : w.Shut) : w.forget.Shut := ⟨h.arms, h.stalled, h.listed, h.drained⟩

theorem Listed.sweep {u : Worker} {n : Nat} (h : w.Listed) (hc : Calm w.forget u)
    (hr : ∀ d ∈ w.starved.take n, (u.conns d).recv ≠ .starved) :
    ∀ d, (u.conns d).recv = .starved → d ∈ w.starved.drop n := by
  intro d hd
  have hm : d ∈ w.starved := h d (hc.listed d hd).1
  rw [← List.take_append_drop n w.starved, List.mem_append] at hm
  exact hm.resolve_left fun hm => hr d hm hd

/-- A sweep arms only when the list is not empty, which behind the cancel it is. -/
theorem shut_rearmStarved (h : w.Shut) (ht : w.tasks = []) : w.rearmStarved.Shut := by
  have hd : w.starved ≠ [] → w.draining = false := by
    intro hs
    cases hw : w.draining with
    | false => rfl
    | true => simpa [ht, hs] using h.drained hw
  rcases rearmStarved_cases hd with ⟨-, he⟩ | ⟨u, hc, hr, he⟩
  · exact he ▸ shut_forget h
  · rw [he]
    have hl := h.listed.sweep hc hr
    by_cases hs : w.starved = []
    · have hu := (shut_forget h).calm hc
      exact ⟨hu.arms, hu.stalled, hl, fun _ => .inr (by simp [hs])⟩
    · have hu : u.draining ≠ true := by
        rw [hc.draining]
        exact fun hw => Bool.noConfusion ((hd hs).symm.trans hw)
      exact ⟨((shut_forget h).calm hc).arms, fun hw => absurd hw hu, hl,
        fun hw => absurd hw hu⟩

theorem Listed.starve (h : w.Listed) (c : Nat) :
    ((w.setRecv c .starved).starvedPush c).Listed := by
  intro d hr
  by_cases hdc : d = c
  · simp [starvedPush, hdc]
  · have : d ∈ w.starved := h d (by simpa [starvedPush, setRecv, setConn, hdc] using hr)
    simp [starvedPush, setRecv, setConn, this]

theorem shut_starve (h : w.Shut) (hd : w.draining = false) (c : Nat) :
    ((w.setRecv c .starved).starvedPush c).Shut where
  arms := h.arms
  stalled hd' := absurd (hd.symm.trans hd') nofun
  listed := h.listed.starve c
  drained hd' := absurd (hd.symm.trans hd') nofun

theorem shut_onRecv (h : w.Shut)
    (hq : w.draining = true → result = -ENOBUFS → ¬ w.Rearms c) :
    (w.onRecv c result more buf).Shut := by
  rcases onRecv_cases (w := w) c result more buf with hc | ⟨hn, hre, v, hc, he⟩
  · exact h.calm hc
  · have hd : v.draining = false := by
      rw [hc.draining]
      cases hw : w.draining with
      | false => rfl
      | true => exact absurd hre (hq hw hn)
    exact he ▸ shut_starve (h.calm hc) hd c

theorem shut_dispatch (h : w.Shut) (pr : Pipereader) (x : Cqe)
    (hq : w.draining = true → ∀ c result more buf, x = .recv c result more buf →
      result = -ENOBUFS → ¬ w.Rearms c) : (w.dispatch pr x).Shut := by
  cases x with
  | recv c result more buf => exact shut_onRecv h fun hd hn => hq hd c result more buf rfl hn
  | op k => exact h.calm (coroResume_calm k)
  | accept l result more => exact h.calm (onAccept_calm l result more pr)
  | drain result =>
    simp only [dispatch]
    split
    · exact h.of_eq rfl rfl rfl rfl rfl fun _ => rfl
    · exact h

theorem shut_loopStep (h : w.Shut) (ht : w.tasks = []) (due : List Nat) (pr : Pipereader)
    (hq : w.draining = true → ∀ n c result more buf rest, w.phase = .batch (n + 1) →
      w.cq = .recv c result more buf :: rest → result = -ENOBUFS → ¬ w.Rearms c) :
    (w.loopStep due pr).Shut := by
  unfold loopStep
  split
  · split
    · exact ⟨h.arms, fun _ l hl => by simp [beginDrain] at hl; grind, h.listed,
        fun _ => .inl (List.mem_cons_self ..)⟩
    · exact h.of_eq rfl rfl rfl rfl rfl fun _ => rfl
  · exact h.of_eq rfl rfl rfl rfl rfl fun _ => rfl
  · split
    · rename_i k rest _
      have h' : Shut { w with ready := rest } := h.of_eq rfl rfl rfl rfl rfl fun _ => rfl
      exact h'.calm (coroResume_calm k)
    · exact h.of_eq rfl rfl rfl rfl rfl fun _ => rfl
  · exact (shut_rearmStarved h ht).of_eq rfl rfl rfl rfl rfl fun _ => rfl
  · exact h.of_eq rfl rfl rfl rfl rfl fun _ => rfl
  · exact h.of_eq rfl rfl rfl rfl rfl fun _ => rfl
  · exact h.of_eq rfl rfl rfl rfl rfl fun _ => rfl
  · rename_i n hp
    split
    · rename_i x rest hx
      have h' : Shut { w with cq := rest, phase := .batch n } :=
        h.of_eq rfl rfl rfl rfl rfl fun _ => rfl
      refine shut_dispatch h' pr x fun hd c result more buf he hn => ?_
      exact hq hd n c result more buf rest hp (he ▸ hx) hn
    · exact h.of_eq rfl rfl rfl rfl rfl fun _ => rfl
  · exact (h.calm (rearmStalled_calm due)).of_eq rfl rfl rfl rfl rfl fun _ => rfl
  · exact h

theorem shut_step (h : w.Shut) (hq : w.quiet a = true) (hs : w.step a = some w') : w'.Shut := by
  cases a with
  | stop =>
    cases hs
    exact h.of_eq rfl rfl rfl rfl rfl fun _ => rfl
  | enter =>
    cases hs
    exact h.of_eq rfl rfl rfl rfl rfl fun _ => rfl
  | recv c result more fill => exact shut_postRecv h hs
  | op k =>
    simp only [step, Option.ite_none_right_eq_some, Option.some.injEq] at hs
    exact hs.2 ▸ h.of_eq rfl rfl rfl rfl rfl fun _ => rfl
  | accept l result more => exact shut_postAccept h hs
  | cancelled result =>
    simp only [step, Option.ite_none_right_eq_some, Option.some.injEq] at hs
    exact hs.2 ▸ h.of_eq rfl rfl rfl rfl rfl fun _ => rfl
  | giveUp =>
    simp only [step, Option.ite_none_right_eq_some, Option.some.injEq] at hs
    exact hs.2 ▸ h.of_eq rfl rfl rfl rfl rfl fun _ => rfl
  | loop due pr =>
    simp only [step] at hs
    split at hs
    · cases hs
    · rename_i t ts _ ht
      cases hs
      refine shut_doTask h ht fun hd c he => ?_
      subst he
      simpa [quiet, hd, ht] using hq
    · rename_i _ ht
      cases hs
      refine shut_loopStep h ht due pr fun hd n c result more buf rest hp hx hn => ?_
      simpa [quiet, hd, ht, hp, hx, hn] using hq
  | go =>
    simp only [step] at hs
    split at hs
    · cases hs
    · rename_i k hk
      split at hs
      · rename_i a ha
        cases hs
        refine h.calm (coGoes_calm k fun hd c hc => ?_)
        simp [quiet, hd, hk, ha, hc] at hq
      · cases hs
  | co a =>
    simp only [step] at hs
    split at hs
    · cases hs
    · split at hs
      · exact h.calm (coActs_calm hs)
      · cases hs

theorem shut_start (bufCount fileSlots : Nat) (certs : List Bool) (pr : Pipereader)
    (slab : Nat → Mem Byte) : (start bufCount fileSlots certs pr slab).Shut := by
  refine Shut.calm ?_ (foldl_calm _ (fun w l => armAccept_calm l) _ _)
  exact ⟨nofun, nofun, nofun, nofun⟩

/-- In every run whose steps behind `begin_drain` are all quiet, nothing is
armed behind it: every listener stays stalled, no recv is left parked once the
list has been emptied, and a resume after a pause ends the input. -/
theorem nothing_armed_behind_drain (bufCount fileSlots : Nat) (certs : List Bool)
    (pr : Pipereader) (slab : Nat → Mem Byte)
    (h : Reach step quiet (start bufCount fileSlots certs pr slab) w) :
    (∀ a ∈ w.arms, a.draining = false) ∧
    (w.draining = true →
      (∀ l ∈ w.listeners, l.stalled = true) ∧
      (.drain ∉ w.tasks → ∀ c, (w.conns c).recv ≠ .starved) ∧
      ∀ c, (w.conns c).recv = .paused → (w.conns c).eof = false → (w.conns c).closed = false →
        ((w.recvResume c).conns c).recv = .done ∧ ((w.recvResume c).conns c).eof = true ∧
          (w.recvResume c).arms = w.arms) := by
  have hs : w.Shut := h.invariant (shut_start bufCount fileSlots certs pr slab)
    fun _ _ _ h hq hs => shut_step h hq hs
  refine ⟨hs.arms, fun hd => ⟨hs.stalled hd, fun ht c hr => ?_, fun c hp he hc => ?_⟩⟩
  · have hm := hs.listed c hr
    rw [(hs.drained hd).resolve_left ht] at hm
    cases hm
  · simp [recvResume, hp, he, hc, hd, setConn, Conn.endInput]

/-- A worker with one plain listener and two buffers. -/
def oneListener : Worker := start 2 0 [false] (.init (fun _ => 0) 64) fun _ _ => 0

/-- `n` moves of the loop. -/
def turns (n : Nat) : List Act := List.replicate n (.loop [] (.init (fun _ => 0) 64))

/-- A connection is accepted, its handler waits for bytes, and the stop is
seen at the top of the loop; the loop goes on to its enter. -/
def stopped : List Act :=
  [.accept 0 3 true] ++ turns 12 ++ [.co (.more 0)] ++ turns 6 ++ [.stop] ++ turns 6

/-- The cancel reaches the accept and the recv: the handler returns, and the
last reference goes. -/
def unwound : List Act :=
  stopped ++ [.accept 0 (-ECANCELED) false, .recv 0 (-ECANCELED) false none] ++ turns 3 ++
    [.go, .co .finish] ++ turns 1

theorem nothing_armed_behind_drain_unwound :
    ∃ w, Reach step quiet oneListener w ∧ w.draining = true ∧ w.live = 0 ∧
      (∀ a ∈ w.arms, a.draining = false) ∧ ∀ l ∈ w.listeners, l.stalled = true := by
  have hr : (perform step quiet oneListener unwound).map (fun w => (w.draining, w.live)) =
      some (true, 0) := by decide
  obtain ⟨w, hw, he⟩ := Option.map_eq_some_iff.mp hr
  obtain ⟨hd, hl⟩ := Prod.mk.inj he
  have h := Reach.start.perform hw
  have hn := nothing_armed_behind_drain 2 0 [false] (.init (fun _ => 0) 64) (fun _ _ => 0) h
  exact ⟨w, h, hd, hl, hn.1, (hn.2 hd).1⟩

/-- Behind the cancel the kernel ends the multishot with data, and the recv is
armed again. -/
theorem final_data_rearms_behind_drain :
    ∃ w, Reach step (fun _ _ => true) oneListener w ∧ ∃ a ∈ w.arms, a.draining = true := by
  have hr : (perform step (fun _ _ => true) oneListener
      (stopped ++ [.recv 0 5 false (some fun _ => 65)] ++ turns 2 ++ [.go, .co (.more 0)] ++
        turns 1)).map (·.arms.getLast?) = some (some ⟨.inl 0, true⟩) := by decide
  obtain ⟨w, hw, he⟩ := Option.map_eq_some_iff.mp hr
  exact ⟨w, Reach.start.perform hw, _, List.mem_of_getLast? he, rfl⟩

end Worker

end Ioxd.Io
