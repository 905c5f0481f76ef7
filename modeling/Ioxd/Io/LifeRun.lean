import Ioxd.Io.LifeLaws

/-!
# The life of a connection through the loop

The loop of `ioxd__proactor_run` and the kernel: every move keeps `Life`. The
kernel here completes an armed recv in any way, any number of times with more
to come and once for the last time, and does what it likes with the buffers.
-/

namespace Ioxd.Io

open Flat Ioxd.Pipe Runs

variable {w w' w'' : Worker} {hand hand' : List Task} {c k : Nat}

namespace Worker

-- ---------------------------------------------------------------------------
-- The loop
-- ---------------------------------------------------------------------------

theorem spawn_life (h : Life w hand) (main : Nat) : Life (w.spawn main) hand := by
  have hk := h.coro w.nextCoro
  have hfin := hk.fresh (Nat.le_refl _)
  have h1 := hk.ops
  have h2 := hk.ready
  rw [hfin] at h1 h2
  have hseat : Seated w.nextCoro .ready w (w.spawn main) :=
    ⟨by simp [spawn], fun k' hk' => Function.update_of_ne hk' _ _, rfl, rfl, Nat.le_succ _, rfl,
      .inl rfl, rfl⟩
  refine h.seated hseat (fun c => ?_) (fun c hw => ?_) ⟨fun a d ha => ?_, ?_, ?_, fun a ha => ?_,
    fun hn => ?_⟩ fun k' hk' => ⟨rfl, ?_, (h.coro k').running⟩
  · rw [hfin]
    exact iff_of_false nofun nofun
  · rcases (h.conn c).waiter _ hw with hx | hx <;> rw [hfin] at hx <;> cases hx
  · rw [hseat.state] at ha
    cases ha
  · rw [hseat.state]
    exact h1
  · rw [hseat.state]
    show (w.ready ++ [w.nextCoro]).count w.nextCoro = 1
    rw [List.count_append, List.count_singleton_self]
    simpa using h2
  · rw [hseat.state] at ha
    cases ha
  · have : w.nextCoro + 1 ≤ w.nextCoro := hn
    omega
  · show (w.ready ++ [w.nextCoro]).count k' = _
    rw [List.count_append, List.count_singleton, if_neg (by simpa using Ne.symm hk'), Nat.add_zero]

theorem foldl_alike {β : Type} (f : Worker → β → Worker) (hf : ∀ w x, Alike w (f w x))
    (xs : List β) (w : Worker) : Alike w (xs.foldl f w) := by
  induction xs generalizing w with
  | nil => exact .refl w
  | cons x xs ih => exact (hf w x).trans (ih _)

theorem armAccept_alike (l : Nat) : Alike w (w.armAccept l) := by
  unfold armAccept stallAccept
  split <;> exact { Alike.refl w with }

theorem rearmStalled_alike (due : List Nat) : Alike w (w.rearmStalled due) := by
  refine foldl_alike _ (fun w' l => ?_) _ w
  split
  · split
    · exact armAccept_alike l
    · exact .refl w'
  · exact .refl w'

theorem onAccept_life (h : Life w hand) (l : Nat) (result : Int) (more : Bool) (pr : Pipereader) :
    Life (w.onAccept l result more pr) hand := by
  have hnew (tls : Bool) : Life (if result ≥ 0 ∧ w.draining = true then w
      else if result ≥ 0 then
        ((w.connNew tls w.nextCoro pr).armRecv w.nextConn).spawn w.nextConn
      else w) hand := by
    split
    · exact h
    · split
      · exact spawn_life (connNew_life h tls w.nextCoro pr).rearmed w.nextConn
      · exact h
  unfold onAccept
  dsimp only
  split
  · exact hnew _
  · split
    · exact (hnew _).alike { Alike.refl _ with }
    · exact (hnew _).alike (armAccept_alike l)

theorem opDone_life {rest : List Cqe} (h : Life w hand) (hr : w.running = none)
    (hq : w.cq = .op k :: rest) : Life (coroResume { w with cq := rest } k) hand := by
  have hk := h.coro k
  have hops := hk.ops
  rw [hq, List.count_cons_self] at hops
  obtain ⟨a, ha, hin⟩ : ∃ a, (w.coros k).state = .parked a ∧ (CoState.parked a).inOp = true := by
    cases hst : (w.coros k).state with
    | parked a =>
      rw [hst] at hops
      refine ⟨a, rfl, ?_⟩
      by_contra hx
      rw [if_neg hx] at hops
      omega
    | _ =>
      rw [hst] at hops
      simp [CoState.inOp] at hops
  have hco : coroResume { w with cq := rest } k =
      { setState { w with cq := rest } k (.running (some a)) with running := some k } := by
    unfold coroResume
    rw [ha]
  rw [hco]
  have hseat : Seated k (.running (some a)) w
      { setState { w with cq := rest } k (.running (some a)) with running := some k } :=
    .of_update rfl rfl rfl rfl rfl (.inr hq) rfl
  rw [ha, if_pos hin] at hops
  have hready := hk.ready
  refine h.seated hseat (fun d => by rw [ha]; rfl) (fun d hd => ?_)
    ⟨fun b d hb hd => ?_, ?_, ?_, fun _ _ => rfl, fun hn => ?_⟩
    fun k' hk' => ⟨rfl, rfl, fun b hb => ?_⟩
  · rcases (h.conn d).waiter k hd with hx | hx <;>
      · rw [ha] at hx
        cases hx
        cases hin
  · rw [hseat.state] at hb
    exact hk.on b d (by rw [ha]; exact hb) hd
  · rw [hseat.state]
    show w.ops.count k + rest.count (.op k) = 0
    omega
  · rw [hseat.state]
    rw [ha] at hready
    exact hready
  · have := hk.fresh hn
    rw [ha] at this
    cases this
  · have := (h.coro k').running b hb
    rw [hr] at this
    cases this

theorem started_life {rest : List Nat} (h : Life w hand) (hr : w.running = none)
    (hq : w.ready = k :: rest) : Life (coroResume { w with ready := rest } k) hand := by
  have hk := h.coro k
  have hready := hk.ready
  rw [hq, List.count_cons_self] at hready
  have hst : (w.coros k).state = .ready := by
    by_contra hx
    rw [if_neg hx] at hready
    omega
  rw [if_pos hst] at hready
  have hops := hk.ops
  rw [hst] at hops
  have hco : coroResume { w with ready := rest } k =
      { setState { w with ready := rest } k (.running none) with running := some k } := by
    unfold coroResume
    rw [hst]
  rw [hco]
  have hseat : Seated k (.running none) w
      { setState { w with ready := rest } k (.running none) with running := some k } :=
    .of_update rfl rfl rfl rfl rfl (.inl rfl) rfl
  refine h.seated hseat (fun d => by rw [hst]; rfl) (fun d hd => ?_)
    ⟨fun b d hb => ?_, ?_, ?_, fun _ _ => rfl, fun hn => ?_⟩ fun k' hk' => ⟨rfl, ?_, fun b hb => ?_⟩
  · rcases (h.conn d).waiter k hd with hx | hx <;> rw [hst] at hx <;> cases hx
  · rw [hseat.state] at hb
    cases hb
  · rw [hseat.state]
    exact hops
  · rw [hseat.state]
    show rest.count k = 0
    omega
  · have := hk.fresh hn
    rw [hst] at this
    cases this
  · show rest.count k' = w.ready.count k'
    rw [hq, List.count_cons_of_ne (Ne.symm hk')]
  · have := (h.coro k').running b hb
    rw [hr] at this
    cases this

theorem taken_life {result : Int} {more : Bool} {buf : Option Nat} {rest : List Cqe}
    (h : Life w []) (ht : w.tasks = []) (hq : w.cq = .recv c result more buf :: rest) :
    Life { w with cq := rest } [.tail c more] := by
  have hord := h.order
  rw [hq, List.pairwise_cons] at hord
  have hsub {x : Cqe} (hx : x ∈ rest) : x ∈ w.cq := hq ▸ List.mem_cons_of_mem _ hx
  have hrecv : (w.conns c).recv = .armed := (h.conn c).seen _ (hq ▸ List.mem_cons_self)
    (by simp [Cqe.of])
  refine ⟨fun d => ?_, fun k => ?_, hord.2, fun d r b hm => h.more d r b (hsub hm)⟩
  · have hd := h.conn d
    have hl := hd.lasts
    have hno : ([] ++ w.tasks).count (Task.tail d false) = 0 := by
      rw [ht]
      rfl
    have hmem {m : Bool} (hm : Task.tail d m ∈ [.tail c more] ++ w.tasks) : d = c ∧ m = more := by
      rw [ht] at hm
      simpa using hm
    refine ⟨?_, hd.recycled, hd.fresh, hd.starved, ?_, fun x hx => hd.seen x (hsub hx),
      fun m hm => (hmem hm).1 ▸ hrecv, fun hm x hx => ?_, ?_, fun hop => ?_, hd.waiter⟩
    · have hr := hd.refs
      rw [ht] at hr
      show _ = _ + _ + (([Task.tail c more] ++ w.tasks).count (.unref d) : Int)
      rw [ht]
      simpa using hr
    · rw [lasts, hno, hq, List.countP_cons] at hl
      rw [lasts]
      show (if (w.conns d).armed = true then 1 else 0) + rest.countP _ +
        ([Task.tail c more] ++ w.tasks).count _ + (if w.opening d then 1 else 0) =
          if (w.conns d).recv = _ then 1 else 0
      rw [ht, List.append_nil, List.count_singleton]
      have hsame : (Task.tail c more == .tail d false) = Cqe.last d (.recv c result more buf) := by
        rw [Bool.eq_iff_iff]
        simp [Cqe.last]
      rw [hsame]
      omega
    · obtain ⟨h1, h2⟩ := hmem hm
      exact hord.1 x hx d (by simp [Cqe.last, h1, ← h2])
    · show ([Task.tail c more] ++ w.tasks).count _ + ([Task.tail c more] ++ w.tasks).count _ ≤ 1
      rw [ht, List.append_nil, List.count_singleton, List.count_singleton]
      cases more with
      | false =>
        rw [if_neg (by simp)]
        split <;> omega
      | true =>
        rw [Nat.add_comm, if_neg (by simp)]
        split <;> omega
    · obtain ⟨h1, h2⟩ := hd.opened hop
      refine ⟨fun x hx => h1 x (hsub hx), fun m hm => ?_⟩
      have := h1 _ (hq ▸ List.mem_cons_self)
      simp [Cqe.of, (hmem hm).1] at this
  · have hk := h.coro k
    refine ⟨hk.on, ?_, hk.ready, hk.running, hk.fresh⟩
    have hops := hk.ops
    rw [hq, List.count_cons_of_ne (by simp)] at hops
    exact hops

theorem passed_life {x : Cqe} {rest : List Cqe} (h : Life w hand) (hq : w.cq = x :: rest)
    (hof : ∀ c, x.of c = false) (hop : ∀ k, x ≠ .op k) : Life { w with cq := rest } hand := by
  have hsub {y : Cqe} (hy : y ∈ rest) : y ∈ w.cq := hq ▸ List.mem_cons_of_mem _ hy
  have hlast (c : Nat) : x.last c = false := by
    have := hof c
    cases x with
    | recv d result more buf =>
      simp only [Cqe.of, Cqe.last] at this ⊢
      rw [this]
      rfl
    | _ => rfl
  have hord := h.order
  rw [hq, List.pairwise_cons] at hord
  refine ⟨fun c => ?_, fun k => ?_, hord.2, fun c r b hm => h.more c r b (hsub hm)⟩
  · have hc := h.conn c
    refine ⟨hc.refs, hc.recycled, hc.fresh, hc.starved, ?_, fun y hy => hc.seen y (hsub hy),
      hc.tail, fun hm y hy => hc.behind hm y (hsub hy), hc.single, fun ho => ?_, hc.waiter⟩
    · have hl := hc.lasts
      rw [lasts, hq, List.countP_cons_of_neg (by simp [hlast c])] at hl
      exact hl
    · exact ⟨fun y hy => (hc.opened ho).1 y (hsub hy), (hc.opened ho).2⟩
  · have hk := h.coro k
    refine ⟨hk.on, ?_, hk.ready, hk.running, hk.fresh⟩
    have hops := hk.ops
    rw [hq, List.count_cons_of_ne (hop k)] at hops
    exact hops

theorem dispatch_life {x : Cqe} {rest : List Cqe} (h : Life w []) (hr : w.running = none)
    (ht : w.tasks = []) (hq : w.cq = x :: rest) (n : Nat) (pr : Pipereader) :
    Life (dispatch { w with cq := rest, phase := .batch n } pr x) [] := by
  have hmem : x ∈ w.cq := hq ▸ List.mem_cons_self
  cases x with
  | recv c result more buf =>
    refine onRecv_life (w := { w with cq := rest, phase := .batch n })
      ((taken_life h ht hq).alike { Alike.refl _ with }) hr (fun hm => ?_) buf
    subst hm
    exact h.more c result buf hmem
  | op k => exact (opDone_life h hr hq).alike { Alike.refl _ with }
  | accept l result more =>
    refine onAccept_life ?_ l result more pr
    exact (passed_life h hq (fun _ => rfl) nofun).alike { Alike.refl _ with }
  | drain result =>
    have hp : Life { w with cq := rest, phase := .batch n } [] :=
      (passed_life h hq (fun _ => rfl) nofun).alike { Alike.refl _ with }
    simp only [dispatch]
    split
    · exact hp.alike { Alike.refl _ with }
    · exact hp

theorem swept_life {ys : List Nat} (h : Life w hand) (hs : w.starved = c :: ys) :
    Life (armRecv { w with starved := ys } c) hand := by
  have hc := h.conn c
  have hst := hc.starved
  rw [hs, List.count_cons_self] at hst
  have hr : (w.conns c).recv = .starved := by
    by_contra hx
    rw [if_neg hx] at hst
    omega
  rw [if_pos hr] at hst
  have hlive := hc.live (by simp [hr])
  obtain ⟨-, h2, h3, h4⟩ := hc.unarmed (by simp [hr])
  refine Life.turned [] [] (s := ys)
    (x := { w.conns c with recv := .armed, cancelling := false, armed := true }) h
    ⟨rfl, rfl, rfl, rfl, rfl, rfl, rfl, rfl, rfl, rfl⟩ nofun nofun ⟨rfl, rfl, rfl⟩ hlive hlive
    ?_ ?_ (fun d hd => ?_) ?_ (fun hx => absurd rfl hx) .inl
  · have hcr := hc.refs
    rw [hr] at hcr
    exact hcr
  · show ys.count c = 0
    omega
  · rw [hs, List.count_cons_of_ne (Ne.symm hd)]
  · rw [h2, h3, if_neg h4]
    rfl

theorem foldl_armRecv_starved (xs : List Nat) (v : Worker) (zs ys : List Nat) :
    { xs.foldl armRecv { v with starved := zs } with starved := ys } =
      { xs.foldl armRecv v with starved := ys } := by
  induction xs generalizing v with
  | nil => rfl
  | cons d xs ih => exact ih (v.armRecv d)

theorem foldl_swept_life {xs ys : List Nat} (h : Life w hand) (hs : w.starved = xs ++ ys) :
    Life { xs.foldl armRecv w with starved := ys } hand := by
  induction xs generalizing w with
  | nil =>
    have he : { w with starved := ys } = w := by rw [← (show w.starved = ys from hs)]
    exact he ▸ h
  | cons c xs ih =>
    have hx : Life (armRecv { w with starved := xs ++ ys } c) hand := swept_life h hs
    have hfold := foldl_armRecv_starved xs (w.armRecv c) (xs ++ ys) ys
    exact hfold ▸ ih hx rfl

theorem rearmStarved_life (h : Life w hand) : Life w.rearmStarved hand := by
  have hf : Life { w with bufs := { w.bufs with returned := 0 } } hand :=
    h.alike { Alike.refl w with }
  unfold rearmStarved
  dsimp only
  split
  · exact hf
  · have hs := (List.take_append_drop (min w.bufs.returned w.starved.length) w.starved).symm
    have hx := foldl_swept_life hf hs
    exact hx.alike { Alike.refl _ with }

theorem doTask_life {t : Task} {ts : List Task} (h : Life w []) (hr : w.running = none)
    (ht : w.tasks = t :: ts) : Life (doTask { w with tasks := ts } t) [] := by
  have hhand : Life { w with tasks := ts } [t] := h.owed_perm (by rw [ht]; rfl)
  cases t with
  | unref c => exact connUnref_life hhand
  | tail c more => exact onRecvTail_life hhand hr
  | drain =>
    simp only [doTask]
    split
    · refine h.owed _ fun c => ?_
      rw [ht]
      simp
    · rename_i c hc
      have hs : w.starved = w.starved.dropLast ++ [c] := by
        obtain ⟨l, hl⟩ := List.getLast?_eq_some_iff.mp hc
        have hl : w.starved = l ++ [c] := hl
        rw [hl, List.dropLast_concat]
      have he : { w with starved := w.starved.dropLast } =
          { w with starved := w.starved.dropLast, tasks := .drain :: ts } := by rw [← ht]
      have hd := drained_life h hr hs
      rw [he] at hd
      exact hd

theorem loopStep_life (h : Life w []) (hr : w.running = none) (ht : w.tasks = [])
    (due : List Nat) (pr : Pipereader) : Life (w.loopStep due pr) [] := by
  have hp (p : Phase) {v : Worker} (hv : Life v []) : Life { v with phase := p } [] :=
    hv.alike { Alike.refl v with }
  unfold loopStep
  split
  · refine hp _ ?_
    split
    · have hd : Life { w with tasks := [.drain] } [] := h.owed _ fun c => by
        rw [ht]
        exact ⟨rfl, rfl, Nat.le_refl _⟩
      unfold beginDrain
      rw [ht]
      exact hd.alike { Alike.refl _ with }
    · exact h
  · exact hp _ h
  · split
    · rename_i k rest hq
      exact started_life h hr hq
    · exact hp _ h
  · exact hp _ (rearmStarved_life h)
  · exact h.alike { Alike.refl w with }
  · exact hp _ h
  · exact hp _ h
  · split
    · rename_i n _ _ x rest hq
      exact dispatch_life h hr ht hq n pr
    · exact hp _ h
  · exact hp _ (h.alike (rearmStalled_alike due))
  · exact h

-- ---------------------------------------------------------------------------
-- The kernel
-- ---------------------------------------------------------------------------

def recvPosted (w : Worker) (c : Nat) (result : Int) (more : Bool) (buf : Option Nat) : Worker :=
  { w.setConn c ({ · with armed := more }) with cq := w.cq ++ [.recv c result more buf] }

@[simp] theorem of_recv (d c : Nat) (result : Int) (more : Bool) (buf : Option Nat) :
    Cqe.of d (.recv c result more buf) = true ↔ c = d := by simp [Cqe.of]

/-- Of the connections only the recv's own flag has changed. -/
theorem recvPosted_data (w : Worker) (c : Nat) (result : Int) (more : Bool) (buf : Option Nat)
    (d : Nat) : (w.recvPosted c result more buf).conns d =
      { w.conns d with armed := if d = c then more else (w.conns d).armed } := by
  by_cases hd : d = c
  · subst hd
    rw [if_pos rfl]
    exact Function.update_self ..
  · rw [if_neg hd]
    exact Function.update_of_ne hd _ _

/-- A recv that is armed has nothing of its last completion yet. -/
theorem armed_unfinished (h : Life w []) (ha : (w.conns c).armed = true) :
    (w.conns c).recv = .armed ∧ w.cq.countP (Cqe.last c) = 0 ∧
      ([] ++ w.tasks).count (Task.tail c false) = 0 ∧ ¬ w.opening c := by
  have hl := (h.conn c).lasts
  rw [lasts, if_pos ha] at hl
  have hr : (w.conns c).recv = .armed := by
    by_contra hx
    rw [if_neg hx] at hl
    omega
  rw [if_pos hr] at hl
  refine ⟨hr, by omega, by omega, fun ho => ?_⟩
  rw [if_pos ho] at hl
  omega

/-- The recv is armed, or this was its last completion. -/
theorem recvPosted_lasts {result : Int} {more : Bool} (ha : (w.conns c).armed = true)
    (buf : Option Nat) (d : Nat) :
    (if (if d = c then more else (w.conns d).armed) = true then 1 else 0) +
      (w.cq ++ [Cqe.recv c result more buf]).countP (Cqe.last d) =
    (if (w.conns d).armed = true then 1 else 0) + w.cq.countP (Cqe.last d) := by
  rw [List.countP_append, List.countP_singleton]
  by_cases hd : d = c
  · subst hd
    rw [if_pos rfl, if_pos ha]
    cases more with
    | false =>
      rw [if_neg (by simp), if_pos (by simp [Cqe.last])]
      omega
    | true => rw [if_pos rfl, if_neg (by simp [Cqe.last]), Nat.add_zero]
  · rw [if_neg hd, if_neg (c := Cqe.last d (.recv c result more buf) = true)
      (by simp [Cqe.last, Ne.symm hd]), Nat.add_zero]

theorem recvPosted_held {result : Int} {more : Bool} (h : Life w [])
    (ha : (w.conns c).armed = true) (buf : Option Nat) (d : Nat) :
    Held (w.recvPosted c result more buf) [] d := by
  obtain ⟨hr, hlast, htail, hopen⟩ := armed_unfinished h ha
  have e := recvPosted_data w c result more buf d
  have hd := h.conn d
  have ho : (w.recvPosted c result more buf).opening d ↔ w.opening d := by
    unfold opening
    rw [e]
    rfl
  -- a completion of this connection is one that was there, or this one
  have hof {x : Cqe} (hx : x ∈ w.cq ++ [.recv c result more buf]) (hxd : x.of d = true) :
      x ∈ w.cq ∨ c = d := by
    rcases List.mem_append.mp hx with hx | hx
    · exact .inl hx
    · rw [List.mem_singleton.mp hx, of_recv] at hxd
      exact .inr hxd
  refine ⟨?_, ?_, ?_, ?_, ?_, fun x hx hxd => ?_, ?_, fun ht x hx => ?_, hd.single,
    fun hop => ⟨fun x hx => ?_, (hd.opened (ho.mp hop)).2⟩, ?_⟩
  · rw [e]
    exact hd.refs
  · rw [e]
    exact hd.recycled
  · rw [e]
    exact hd.fresh
  · rw [e]
    exact hd.starved
  · have hld := hd.lasts
    have hsum := @recvPosted_lasts _ _ result more ha buf d
    unfold lasts at hld ⊢
    simp only [ho, e]
    show _ + (w.cq ++ [Cqe.recv c result more buf]).countP (Cqe.last d) + ([] ++ w.tasks).count _ +
      _ = _
    rw [hsum]
    exact hld
  · rw [e]
    rcases hof hx hxd with hx | rfl
    · exact hd.seen x hx hxd
    · exact hr
  · rw [e]
    exact hd.tail
  · rw [← Bool.not_eq_true]
    intro hxd
    rcases hof hx hxd with hx | rfl
    · exact absurd hxd (by simp [hd.behind ht x hx])
    · exact absurd (List.count_pos_iff.mpr ht) (by
        show ¬ 0 < ([] ++ w.tasks).count (Task.tail c false)
        omega)
  · rw [← Bool.not_eq_true]
    intro hxd
    rcases hof hx hxd with hx | rfl
    · exact absurd hxd (by simp [(hd.opened (ho.mp hop)).1 x hx])
    · exact hopen (ho.mp hop)
  · rw [e]
    exact hd.waiter

theorem recvPosted_life {result : Int} {more : Bool} (h : Life w [])
    (ha : (w.conns c).armed = true) (hm : more = true → 0 < result) (buf : Option Nat) :
    Life (w.recvPosted c result more buf) [] := by
  obtain ⟨-, hlast, -, -⟩ := armed_unfinished h ha
  refine ⟨fun d => recvPosted_held h ha buf d, fun k => ?_, ?_, fun d r b hx => ?_⟩
  · have hk := h.coro k
    refine ⟨fun a d hst hon => ?_, ?_, hk.ready, hk.running, hk.fresh⟩
    · rw [recvPosted_data]
      exact hk.on a d hst hon
    · show w.ops.count k + (w.cq ++ [Cqe.recv c result more buf]).count (Cqe.op k) = _
      rw [List.count_append, List.count_singleton, if_neg (by simp), Nat.add_zero]
      exact hk.ops
  · refine List.pairwise_append.mpr ⟨h.order, List.pairwise_singleton .., fun x hx y hy d hd => ?_⟩
    rw [List.mem_singleton.mp hy, ← Bool.not_eq_true, of_recv]
    rintro rfl
    exact List.countP_eq_zero.mp hlast x hx hd
  · rcases List.mem_append.mp hx with hx | hx
    · exact h.more d r b hx
    · have hx := List.mem_singleton.mp hx
      rw [Cqe.recv.injEq] at hx
      exact hx.2.1 ▸ hm hx.2.2.1.symm

theorem posted_life (x : Cqe) (ops : List Nat) (h : Life w hand) (hof : ∀ c, x.of c = false)
    (hop : ∀ k, ops.count k + (w.cq ++ [x]).count (.op k) =
      w.ops.count k + w.cq.count (.op k)) : Life { w with cq := w.cq ++ [x], ops := ops } hand := by
  have hlast (c : Nat) : x.last c = false := by
    have := hof c
    cases x with
    | recv d result more buf =>
      simp only [Cqe.of, Cqe.last] at this ⊢
      rw [this]
      rfl
    | _ => rfl
  have hmem {y : Cqe} (hy : y ∈ w.cq ++ [x]) {c : Nat} (hc : y.of c = true) : y ∈ w.cq := by
    rcases List.mem_append.mp hy with hy | hy
    · exact hy
    · rw [List.mem_singleton.mp hy, hof] at hc
      cases hc
  have hfalse {c : Nat} (hq : ∀ y ∈ w.cq, y.of c = false) (y : Cqe) (hy : y ∈ w.cq ++ [x]) :
      y.of c = false := by
    by_contra hx
    exact hx (hq y (hmem hy (by simpa using hx)))
  refine ⟨fun c => ?_, fun k => ?_, ?_, fun c r b hm => ?_⟩
  · have hc := h.conn c
    refine ⟨hc.refs, hc.recycled, hc.fresh, hc.starved, ?_,
      fun y hy hy' => hc.seen y (hmem hy hy') hy', hc.tail, fun ht => hfalse (hc.behind ht), hc.single,
      fun ho => ⟨hfalse (hc.opened ho).1, (hc.opened ho).2⟩, hc.waiter⟩
    have hcount : (w.cq ++ [x]).countP (Cqe.last c) = w.cq.countP (Cqe.last c) := by
      rw [List.countP_append, List.countP_singleton, hlast c]
      rfl
    have hl := hc.lasts
    unfold lasts at hl ⊢
    rw [hcount]
    exact hl
  · have hk := h.coro k
    exact ⟨hk.on, (hop k).trans hk.ops, hk.ready, hk.running, hk.fresh⟩
  · refine List.pairwise_append.mpr ⟨h.order, List.pairwise_singleton .., fun y _ z hz c _ => ?_⟩
    rw [List.mem_singleton.mp hz]
    exact hof c
  · exact h.more c r b (hmem hm (c := c) (by simp [Cqe.of]))

/-- A move: of the worker, or of a kernel that completes an armed recv in any
way, whatever it does with the buffers. -/
inductive Moves (w : Worker) : Worker → Prop
  | step {a : Act} {w' : Worker} : w.step a = some w' → Moves w w'
  | recv {c : Nat} {result : Int} {more : Bool} (buf : Option Nat) (bufs : Bufring)
      (slab : Nat → Mem Byte) (swept : List Nat) : (w.conns c).armed = true →
      (more = true → 0 < result) →
      Moves w { w.recvPosted c result more buf with bufs := bufs, slab := slab, swept := swept }

theorem step_life {a : Act} (h : Life w []) (hs : w.step a = some w') : Life w' [] := by
  cases a with
  | stop => exact Option.some.inj hs ▸ h.alike { Alike.refl w with }
  | enter => exact Option.some.inj hs ▸ h.alike { Alike.refl w with }
  | recv c result more fill =>
    obtain ⟨ha, -, hm, hcase⟩ := postRecv_cases hs
    obtain ⟨m, -, -, -, rfl⟩ | ⟨-, -, -, rfl⟩ | ⟨-, -, rfl⟩ := hcase
    · exact (recvPosted_life h ha hm _).alike { Alike.refl _ with }
    · exact (recvPosted_life h ha hm _).alike { Alike.refl _ with }
    · exact (recvPosted_life h ha hm _).alike { Alike.refl _ with }
  | op k =>
    simp only [step, Option.ite_none_right_eq_some, Option.some.injEq] at hs
    obtain ⟨hk, rfl⟩ := hs
    refine posted_life _ _ h (fun _ => rfl) fun k' => ?_
    rw [List.count_append, List.count_singleton]
    by_cases hkk : k = k'
    · subst hkk
      have := List.count_pos_iff.mpr hk
      rw [List.count_erase_self, if_pos (by simp)]
      omega
    · rw [List.count_erase_of_ne (Ne.symm hkk), if_neg (by simpa using hkk), Nat.add_zero]
  | accept l result more =>
    rw [postAccept_cases hs]
    refine (posted_life (.accept l result more) w.ops h (fun _ => rfl)
      fun k => ?_).alike { Alike.refl _ with }
    rw [List.count_append, List.count_singleton, if_neg (by simp), Nat.add_zero]
  | cancelled result =>
    simp only [step, Option.ite_none_right_eq_some, Option.some.injEq] at hs
    obtain ⟨-, rfl⟩ := hs
    refine posted_life (.drain result) w.ops h (fun _ => rfl) fun k => ?_
    rw [List.count_append, List.count_singleton, if_neg (by simp), Nat.add_zero]
  | giveUp =>
    simp only [step, Option.ite_none_right_eq_some, Option.some.injEq] at hs
    obtain ⟨-, rfl⟩ := hs
    exact h.alike { Alike.refl w with }
  | loop due pr =>
    simp only [step] at hs
    split at hs
    · cases hs
    · rename_i hr ht
      exact Option.some.inj hs ▸ doTask_life h hr ht
    · rename_i hr ht
      exact Option.some.inj hs ▸ loopStep_life h hr ht due pr
  | go =>
    simp only [step] at hs
    split at hs
    · cases hs
    · split at hs
      · rename_i hst
        exact Option.some.inj hs ▸ coGoes_life h hst
      · cases hs
  | co a =>
    simp only [step] at hs
    split at hs
    · cases hs
    · split at hs
      · rename_i hst
        exact coActs_life h hst hs
      · cases hs

theorem Moves.life (h : Life w []) (hm : Moves w w') : Life w' [] := by
  cases hm with
  | step hs => exact step_life h hs
  | recv buf bufs slab swept ha hm =>
    exact (recvPosted_life h ha hm buf).alike { Alike.refl _ with }

theorem start_life (bufCount fileSlots : Nat) (certs : List Bool) (pr : Pipereader)
    (slab : Nat → Mem Byte) : Life (start bufCount fileSlots certs pr slab) [] := by
  refine Life.alike ?_ (foldl_alike _ (fun w l => armAccept_alike l) _ _)
  exact ⟨fun c => ⟨rfl, rfl, fun _ => rfl, rfl, rfl, nofun, nofun, nofun, Nat.zero_le _, nofun,
    nofun⟩, fun k => ⟨nofun, rfl, rfl, nofun, fun _ => rfl⟩, .nil, nofun⟩

end Worker

end Ioxd.Io
