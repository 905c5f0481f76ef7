import Ioxd.Io.Buffers
import Ioxd.Io.Lifetime
import Mathlib.Algebra.BigOperators.Ring.Finset

/-!
# What is alive

A worker that shuts down stops when `live` is 0, and unmaps the receive buffers
only then. `live` counts the connections that did not go back to the pool, and
each coroutine that has not returned has its own among them. So when it is 0
nothing of the worker's is left with a handler or with the kernel.
-/

namespace Ioxd.Io

open Flat Ioxd.Pipe Runs

variable {w w' w'' : Worker} {hand hand' : List Task} {c k : Nat}

/-- A reference more or less of one connection: the count of the live ones goes
down as the connection goes to the pool. -/
structure Paid (c : Nat) (w w' : Worker) : Prop where
  nextConn : w'.nextConn = w.nextConn
  nextCoro : w'.nextCoro = w.nextCoro
  live : w'.live + (w'.conns c).recycled = w.live + (w.conns c).recycled
  owner : (w'.conns c).owner = (w.conns c).owner
  main : ∀ k, (w'.coros k).main = (w.coros k).main

/-- A handler of the worker is done: it closed nothing, and woke nobody but a
waiter. -/
structure Rest (c : Nat) (w w' : Worker) : Prop extends Paid c w w' where
  closed : (w'.conns c).closed = (w.conns c).closed
  waiter : ∀ d k, (w'.conns d).waiter = some k → (w.conns d).waiter = some k
  finished : ∀ k, (∀ d, (w.conns d).waiter ≠ some k) → (w.coros k).state = .finished →
    (w'.coros k).state = .finished

theorem Paid.trans (h : Paid c w w') (h' : Paid c w' w'') : Paid c w w'' where
  nextConn := h'.nextConn.trans h.nextConn
  nextCoro := h'.nextCoro.trans h.nextCoro
  live := h'.live.trans h.live
  owner := h'.owner.trans h.owner
  main k := (h'.main k).trans (h.main k)

theorem Rest.of_eq (c : Nat) (hc : w'.conns = w.conns) (hk : w'.coros = w.coros)
    (hn : w'.nextConn = w.nextConn ∧ w'.nextCoro = w.nextCoro) (hl : w'.live = w.live) :
    Rest c w w' where
  nextConn := hn.1
  nextCoro := hn.2
  live := by rw [hc, hl]
  owner := by rw [hc]
  main k := by rw [hk]
  closed := by rw [hc]
  waiter d k := by rw [hc]; exact id
  finished k _ := by rw [hk]; exact id

theorem Rest.refl (c : Nat) (w : Worker) : Rest c w w := .of_eq c rfl rfl ⟨rfl, rfl⟩ rfl

theorem Rest.trans (h : Rest c w w') (h' : Rest c w' w'') : Rest c w w'' where
  toPaid := h.toPaid.trans h'.toPaid
  closed := h'.closed.trans h.closed
  waiter d k hw := h.waiter d k (h'.waiter d k hw)
  finished k hn hs :=
    h'.finished k (fun d hd => hn d (h.waiter d k hd)) (h.finished k hn hs)

/-- A reader's own moves: no connection is closed, no other coroutine moved. -/
structure Mine (c k : Nat) (w w' : Worker) : Prop extends Paid c w w' where
  closed : (w'.conns c).closed = (w.conns c).closed
  other : ∀ k', k' ≠ k → w'.coros k' = w.coros k'

theorem Mine.trans (h : Mine c k w w') (h' : Mine c k w' w'') : Mine c k w w'' where
  toPaid := h.toPaid.trans h'.toPaid
  closed := h'.closed.trans h.closed
  other k' hk := (h'.other k' hk).trans (h.other k' hk)

theorem Rest.mine (h : Rest c w w') (k : Nat) (hk : w'.coros = w.coros) : Mine c k w w' :=
  ⟨h.toPaid, h.closed, fun k' _ => congrFun hk k'⟩

namespace Worker

-- ---------------------------------------------------------------------------
-- The handlers
-- ---------------------------------------------------------------------------

theorem setConn_rest (c : Nat) (f : Conn → Conn)
    (hf : ∀ x : Conn, (f x).recycled = x.recycled ∧ (f x).owner = x.owner ∧
      (f x).closed = x.closed ∧ ∀ k, (f x).waiter = some k → x.waiter = some k) :
    Rest c w (w.setConn c f) := by
  obtain ⟨h1, h2, h3, -⟩ := hf (w.conns c)
  refine ⟨⟨rfl, rfl, ?_, ?_, fun _ => rfl⟩, ?_, fun d k hw => ?_, fun _ _ => id⟩
  · rw [setConn_self, h1]
    rfl
  · rw [setConn_self, h2]
  · rw [setConn_self, h3]
  · by_cases hd : d = c
    · subst hd
      rw [setConn_self] at hw
      exact (hf _).2.2.2 k hw
    · rwa [setConn_other hd] at hw

theorem endInput_rest (c : Nat) (err : Int) (r : RecvState) :
    Rest c w (w.setConn c fun x => { Conn.endInput x err with recv := r }) :=
  setConn_rest c _ fun x =>
    have h := (endInput_steady x err r).1
    ⟨h.recycled, h.owner, h.closed, fun _ hk => h.waiter ▸ hk⟩

theorem wakeReader_rest (c : Nat) : Rest c w (w.wakeReader c) := by
  unfold wakeReader
  split
  · exact .refl c w
  · rename_i k hk
    have hs : Rest c w (w.setConn c ({ · with waiter := none })) :=
      setConn_rest c _ fun _ => ⟨rfl, rfl, rfl, nofun⟩
    refine ⟨⟨rfl, rfl, hs.live, hs.owner, fun k' => ?_⟩, hs.closed, hs.waiter, fun k' hn hf => ?_⟩
    · by_cases hkk : k' = k
      · subst hkk
        simp [coroResume, setState, setConn]
      · simp [coroResume, setState, setConn, hkk]
    · have hkk : k' ≠ k := fun he => hn c (he ▸ hk)
      simpa [coroResume, setState, setConn, hkk] using hf

theorem connUnref_rest (c : Nat) : Rest c w (w.connUnref c) := by
  have h1 : Rest c w (w.setConn c fun x => { x with refs := x.refs - 1 }) :=
    setConn_rest c _ fun _ => ⟨rfl, rfl, rfl, fun _ => id⟩
  unfold connUnref
  dsimp only
  split
  · exact h1
  · generalize hv : w.setConn c (fun x => { x with refs := x.refs - 1 }) = v at h1 ⊢
    refine h1.trans ⟨⟨rfl, rfl, ?_, ?_, fun _ => rfl⟩, ?_, fun d k hw => ?_, fun _ _ => id⟩
    · simp only [setConn, Function.update_self]
      push_cast
      omega
    · simp [setConn]
    · simp [setConn]
    · by_cases hd : d = c
      · subst hd
        simpa [setConn] using hw
      · simpa [setConn, hd] using hw

theorem returnAll_rest (c : Nat) (ids : List Nat) : Rest c w (w.returnAll ids) := by
  induction ids generalizing w with
  | nil => exact .refl c w
  | cons id ids ih =>
    have hret : Rest c w (w.bufringReturn id) := .of_eq c rfl rfl ⟨rfl, rfl⟩ rfl
    exact hret.trans ih

theorem armRecv_rest (c : Nat) : Rest c w (w.armRecv c) :=
  (setConn_rest c ({ · with recv := .armed, cancelling := false, armed := true })
    fun _ => ⟨rfl, rfl, rfl, fun _ => id⟩).trans (.of_eq c rfl rfl ⟨rfl, rfl⟩ rfl)

theorem cancelRecv_rest (c : Nat) : Rest c w (w.cancelRecv c) :=
  setConn_rest c _ fun _ => ⟨rfl, rfl, rfl, fun _ => id⟩

theorem setRecv_rest (c : Nat) (r : RecvState) : Rest c w (w.setRecv c r) :=
  setConn_rest c _ fun _ => ⟨rfl, rfl, rfl, fun _ => id⟩

theorem paused_rest (c : Nat) : Rest c w (w.paused c) :=
  (setConn_rest c ({ · with pausing := false, recv := .paused })
    fun _ => ⟨rfl, rfl, rfl, fun _ => id⟩).trans (wakeReader_rest c)

theorem afterwards_rest (c : Nat) (t : Task) : Rest c w (w.afterwards t) :=
  .of_eq c rfl rfl ⟨rfl, rfl⟩ rfl

theorem ending_rest (c : Nat) (err : Int) : Rest c w
    (((w.setConn c fun x => { Conn.endInput x err with recv := .done }).wakeReader c).afterwards
      (.unref c)) :=
  ((endInput_rest c err .done).trans (wakeReader_rest c)).trans (afterwards_rest c _)

theorem stopInput_rest (c : Nat) (err : Int) (more : Bool) : Rest c w (w.stopInput c err more) := by
  have h : Rest c w (w.setConn c fun x => Conn.endInput x err) :=
    setConn_rest c _ fun x => by
      unfold Conn.endInput
      split <;> exact ⟨rfl, rfl, rfl, fun _ => id⟩
  unfold stopInput
  dsimp only
  split
  · exact (h.trans (cancelRecv_rest c)).trans (wakeReader_rest c)
  · exact h.trans (wakeReader_rest c)

theorem onNobufs_rest (c : Nat) : Rest c w (w.onNobufs c) := by
  unfold onNobufs
  split
  · exact (setRecv_rest c .done).trans (connUnref_rest c)
  · split
    · exact paused_rest c
    · split
      · exact ((setRecv_rest c .done).trans (wakeReader_rest c)).trans (afterwards_rest c _)
      · exact (setRecv_rest c .starved).trans (.of_eq c rfl rfl ⟨rfl, rfl⟩ rfl)

theorem onEnded_rest (c : Nat) (result : Int) (buf : Option Nat) :
    Rest c w (w.onEnded c result buf) := by
  unfold onEnded
  dsimp only
  split
  · exact (returnAll_rest c _).trans (paused_rest c)
  · exact (returnAll_rest c _).trans (ending_rest c _)

theorem onData_rest (c : Nat) (result : Int) (more : Bool) (buf : Option Nat) :
    Rest c w (w.onData c result more buf) := by
  unfold onData
  split
  · exact stopInput_rest c _ more
  · rename_i id
    have hret : Rest c w (w.bufringReturn id) := .of_eq c rfl rfl ⟨rfl, rfl⟩ rfl
    split
    · exact hret
    · split
      · exact hret.trans (stopInput_rest c _ more)
      · exact (setConn_rest c (fun x => { x with rx := x.rx ++ [⟨result.toNat, id⟩] })
          fun _ => ⟨rfl, rfl, rfl, fun _ hk => hk⟩).trans (wakeReader_rest c)

theorem onRecv_rest (c : Nat) (result : Int) (more : Bool) (buf : Option Nat) :
    Rest c w (w.onRecv c result more buf) := by
  have h : Rest c w (if more = true then w else w.setConn c ({ · with cancelling := false })) := by
    split
    · exact .refl c w
    · exact setConn_rest c _ fun _ => ⟨rfl, rfl, rfl, fun _ => id⟩
  unfold onRecv
  dsimp only
  generalize (if more = true then w else w.setConn c ({ · with cancelling := false })) = v at h
  refine h.trans ?_
  split
  · exact onNobufs_rest c
  · split
    · exact onEnded_rest c result buf
    · exact (onData_rest c result more buf).trans (afterwards_rest c _)

theorem onRecvTail_rest (c : Nat) (more : Bool) : Rest c w (w.onRecvTail c more) := by
  unfold onRecvTail
  dsimp only
  split
  · split
    · exact paused_rest c
    · split
      · exact armRecv_rest c
      · exact (setRecv_rest c .done).trans (connUnref_rest c)
  · split
    · exact cancelRecv_rest c
    · exact .refl c w

theorem recvDrain_rest (c : Nat) : Rest c w (w.recvDrain c) := by
  unfold recvDrain
  split
  · exact .refl c w
  · exact ending_rest c _

theorem withReader_rest (c : Nat) (f : Reader → Reader) : Rest c w (w.withReader c f) := by
  have h : Rest c w (w.setConn c ({ · with pr := (f ⟨(w.conns c).pr, w.slab, []⟩).pr })) :=
    setConn_rest c _ fun _ => ⟨rfl, rfl, rfl, fun _ => id⟩
  have hr := returnAll_rest (w := w.setConn c
    ({ · with pr := (f ⟨(w.conns c).pr, w.slab, []⟩).pr })) c (f ⟨(w.conns c).pr, w.slab, []⟩).back
  exact (h.trans hr).trans (.of_eq c rfl rfl ⟨rfl, rfl⟩ rfl)

-- ---------------------------------------------------------------------------
-- The coroutine that runs
-- ---------------------------------------------------------------------------

theorem setState_paid (c k : Nat) (st : CoState) : Paid c w (w.setState k st) := by
  refine ⟨rfl, rfl, rfl, rfl, fun k' => ?_⟩
  by_cases hk : k' = k
  · subst hk
    simp [setState]
  · simp [setState, hk]

theorem setState_mine (c k : Nat) (st : CoState) : Mine c k w (w.setState k st) :=
  ⟨setState_paid c k st, rfl, fun _ hk => Function.update_of_ne hk _ _⟩

theorem setConn_mine (c k : Nat) (f : Conn → Conn)
    (hf : ∀ x : Conn, (f x).recycled = x.recycled ∧ (f x).owner = x.owner ∧
      (f x).closed = x.closed ∧ ∀ k, (f x).waiter = some k → x.waiter = some k) :
    Mine c k w (w.setConn c f) := (setConn_rest c f hf).mine k rfl

theorem park_mine (c k : Nat) (a : Await) :
    Mine c k w ((w.setConn c ({ · with waiter := some k })).coroYield k a) := by
  have h1 : Mine c k w (w.setConn c ({ · with waiter := some k })) := by
    refine ⟨⟨rfl, rfl, ?_, ?_, fun _ => rfl⟩, ?_, fun _ _ => rfl⟩
    · rw [setConn_self]
      rfl
    · rw [setConn_self]
    · rw [setConn_self]
  have h2 := setState_mine (w := w.setConn c ({ · with waiter := some k })) c k (.parked a)
  exact h1.trans ⟨⟨h2.nextConn, h2.nextCoro, h2.live, h2.owner, h2.main⟩, h2.closed, h2.other⟩

theorem withReader_mine (c k : Nat) (f : Reader → Reader) : Mine c k w (w.withReader c f) :=
  (withReader_rest c f).mine k (withReader_alike c f).coros

theorem recvItem_mine (k c : Nat) : Mine c k w (w.recvItem k c) := by
  unfold recvItem
  split
  · rename_i item rest _
    have h1 : Mine c k w (w.setConn c ({ · with rx := rest })) :=
      setConn_mine c k _ fun _ => ⟨rfl, rfl, rfl, fun _ hk => hk⟩
    exact (h1.trans (withReader_mine c k _)).trans (setState_mine c k _)
  · split
    · exact (withReader_mine c k _).trans (setState_mine c k _)
    · exact park_mine c k _

theorem pauseEnd_mine (k c : Nat) : Mine c k w (w.pauseEnd k c) := by
  unfold pauseEnd
  split
  · have h1 : Rest c w (w.starvedRemove c) := .of_eq c rfl rfl ⟨rfl, rfl⟩ rfl
    exact ((h1.trans (setRecv_rest c .paused)).mine k rfl).trans (setState_mine c k _)
  · exact setState_mine c k _

theorem pauseTurn_mine (k c : Nat) : Mine c k w (w.pauseTurn k c) := by
  unfold pauseTurn
  split
  · exact park_mine c k _
  · have h1 : Mine c k w (w.setConn c ({ · with pausing := false })) :=
      setConn_mine c k _ fun _ => ⟨rfl, rfl, rfl, fun _ hk => hk⟩
    exact h1.trans (pauseEnd_mine k c)

theorem recvPause_mine (k c : Nat) : Mine c k w (w.recvPause k c) := by
  unfold recvPause
  split
  · have h1 : Mine c k w (w.setConn c ({ · with pausing := true })) :=
      setConn_mine c k _ fun _ => ⟨rfl, rfl, rfl, fun _ hk => hk⟩
    exact (h1.trans ((cancelRecv_rest c).mine k rfl)).trans (pauseTurn_mine k c)
  · exact pauseEnd_mine k c

theorem connUnref_coros (c : Nat) : (w.connUnref c).coros = w.coros := by
  unfold connUnref
  dsimp only
  split <;> rfl

theorem recvResume_mine (k c : Nat) : Mine c k w (w.recvResume c) := by
  unfold recvResume
  dsimp only
  split
  · exact (Rest.refl c w).mine k rfl
  · split
    · exact ((endInput_rest c (-ECANCELED) .done).trans (connUnref_rest c)).mine k
        (connUnref_coros c)
    · exact (armRecv_rest c).mine k rfl

theorem pipeClose_paid (c : Nat) : Paid c w (w.pipeClose c) := by
  have hset (v : Worker) (f : Conn → Conn) (h1 : (f (v.conns c)).recycled = (v.conns c).recycled)
      (h2 : (f (v.conns c)).owner = (v.conns c).owner) : Paid c v (v.setConn c f) := by
    refine ⟨rfl, rfl, ?_, ?_, fun _ => rfl⟩
    · rw [setConn_self, h1]
      rfl
    · rw [setConn_self, h2]
  have hclose (v : Worker) : Paid c v (v.closeRecv c) := by
    unfold closeRecv
    split
    · exact hset v _ rfl rfl
    · have hrem : Rest c v (v.starvedRemove c) := .of_eq c rfl rfl ⟨rfl, rfl⟩ rfl
      exact hrem.toPaid.trans (hset _ _ rfl rfl)
    · exact hset v _ rfl rfl
    · exact (Rest.refl c v).toPaid
  have hret (v : Worker) : Paid c v (v.returnRx c) :=
    (hset v ({ · with rx := [] }) rfl rfl).trans (returnAll_rest c _).toPaid
  unfold pipeClose connClose
  exact ((((withReader_rest c _).toPaid.trans (hset _ ({ · with closed := true }) rfl rfl)).trans
    (hclose _)).trans (hret _)).trans (connUnref_rest c).toPaid

end Worker

-- ---------------------------------------------------------------------------
-- The count
-- ---------------------------------------------------------------------------

/-- The connections made are live or went to the pool, and a coroutine that has
not returned has its own open. -/
structure Census (w : Worker) : Prop where
  live : w.live + ∑ c ∈ Finset.range w.nextConn, ((w.conns c).recycled : Int) = w.nextConn
  main : ∀ k, k < w.nextCoro → (w.coros k).state ≠ .finished →
    (w.conns (w.coros k).main).owner = k ∧ (w.conns (w.coros k).main).closed = false ∧
      (w.coros k).main < w.nextConn

theorem Paid.count (h : Paid c w w') (ho : Worker.Only c w w') (hc : c < w.nextConn) :
    w'.live + ∑ d ∈ Finset.range w.nextConn, ((w'.conns d).recycled : Int) =
      w.live + ∑ d ∈ Finset.range w.nextConn, ((w.conns d).recycled : Int) := by
  have hm : c ∈ Finset.range w.nextConn := Finset.mem_range.mpr hc
  have he : ∑ d ∈ (Finset.range w.nextConn).erase c, ((w'.conns d).recycled : Int) =
      ∑ d ∈ (Finset.range w.nextConn).erase c, ((w.conns d).recycled : Int) :=
    Finset.sum_congr rfl fun d hd => by rw [ho d (Finset.ne_of_mem_erase hd)]
  rw [← Finset.add_sum_erase _ (fun d => ((w'.conns d).recycled : Int)) hm,
    ← Finset.add_sum_erase _ (fun d => ((w.conns d).recycled : Int)) hm, he, ← Int.add_assoc,
    ← Int.add_assoc, h.live]

/-- What is left to show is about coroutines that have not returned. -/
theorem Census.paid (h : Census w) (hp : Paid c w w') (ho : Worker.Only c w w')
    (hc : c < w.nextConn)
    (hm : ∀ k, k < w.nextCoro → (w'.coros k).state ≠ .finished →
      (w.coros k).state ≠ .finished ∧ ((w.coros k).main = c → (w'.conns c).closed = false)) :
    Census w' where
  live := by
    rw [hp.nextConn, hp.count ho hc]
    exact h.live
  main k hk hs := by
    rw [hp.nextCoro] at hk
    obtain ⟨hf, hcl⟩ := hm k hk hs
    obtain ⟨h1, h2, h3⟩ := h.main k hk hf
    rw [hp.main, hp.nextConn]
    by_cases hmc : (w.coros k).main = c
    · rw [hmc] at h1 h3 ⊢
      exact ⟨hp.owner.trans h1, hcl hmc, h3⟩
    · rw [ho _ hmc]
      exact ⟨h1, h2, h3⟩

theorem Census.rest (h : Census w) (hl : Life w hand) (hr : Rest c w w')
    (ho : Worker.Only c w w') (hc : c < w.nextConn) : Census w' := by
  refine h.paid hr.toPaid ho hc fun k hk hs => ?_
  have hf : (w.coros k).state ≠ .finished := fun hf => by
    refine hs (hr.finished k (fun d hd => ?_) hf)
    rcases (hl.conn d).waiter k hd with hx | hx <;> rw [hf] at hx <;> cases hx
  exact ⟨hf, fun hm => hr.closed.trans (hm ▸ (h.main k hk hf).2.1)⟩

theorem Census.mine {st : Option Await} (h : Census w) (hm : Mine c k w w')
    (ho : Worker.Only c w w') (hc : c < w.nextConn) (hs : (w.coros k).state = .running st) :
    Census w' := by
  refine h.paid hm.toPaid ho hc fun k' hk hf => ?_
  have hf' : (w.coros k').state ≠ .finished := by
    by_cases hkk : k' = k
    · rw [hkk, hs]
      nofun
    · rwa [hm.other k' hkk] at hf
  exact ⟨hf', fun hmc => hm.closed.trans (hmc ▸ (h.main k' hk hf').2.1)⟩

theorem Census.same (h : Census w) (hc : w'.conns = w.conns)
    (hn : w'.nextConn = w.nextConn ∧ w'.nextCoro = w.nextCoro) (hl : w'.live = w.live)
    (hk : ∀ k, (w'.coros k).main = (w.coros k).main ∧
      ((w.coros k).state = .finished → (w'.coros k).state = .finished)) : Census w' where
  live := by
    rw [hc, hn.1, hl]
    exact h.live
  main k hlt hs := by
    rw [hc, hn.1, (hk k).1]
    exact h.main k (hn.2 ▸ hlt) fun hf => hs ((hk k).2 hf)

theorem Census.of_eq (h : Census w) (hc : w'.conns = w.conns) (hk : w'.coros = w.coros)
    (hn : w'.nextConn = w.nextConn ∧ w'.nextCoro = w.nextCoro) (hl : w'.live = w.live) :
    Census w' :=
  h.same hc hn hl fun k => by
    rw [hk]
    exact ⟨rfl, id⟩

theorem Census.seat (h : Census w) (hc : w'.conns = w.conns)
    (hn : w'.nextConn = w.nextConn ∧ w'.nextCoro = w.nextCoro) (hl : w'.live = w.live)
    (hk : ∃ st, w'.coros = Function.update w.coros k { w.coros k with state := st })
    (hs : (w.coros k).state ≠ .finished) : Census w' := by
  obtain ⟨st, hk⟩ := hk
  refine h.same hc hn hl fun k' => ?_
  rw [hk]
  by_cases hkk : k' = k
  · subst hkk
    rw [Function.update_self]
    exact ⟨rfl, fun hx => absurd hx hs⟩
  · rw [Function.update_of_ne hkk]
    exact ⟨rfl, id⟩

theorem Held.made (h : Held w hand c) (hr : (w.conns c).recv ≠ .done) : c < w.nextConn := by
  by_contra hge
  exact h.live hr (h.fresh (by omega))

-- ---------------------------------------------------------------------------
-- The moves
-- ---------------------------------------------------------------------------

namespace Worker

theorem armRecv_census (h : Census w) (hc : c < w.nextConn) : Census (w.armRecv c) :=
  h.paid (armRecv_rest c).toPaid (armRecv_only c) hc fun k hk hs =>
    ⟨hs, fun hm => (armRecv_rest c).closed.trans (hm ▸ (h.main k hk hs).2.1)⟩

theorem connNew_census (h : Census w) (tls : Bool) (owner : Nat) (pr : Pipereader) :
    Census (w.connNew tls owner pr) where
  live := by
    show w.live + 1 + ∑ c ∈ Finset.range (w.nextConn + 1),
      (((w.connNew tls owner pr).conns c).recycled : Int) = ((w.nextConn + 1 : Nat) : Int)
    have he : ∑ c ∈ Finset.range w.nextConn,
        (((w.connNew tls owner pr).conns c).recycled : Int) =
        ∑ c ∈ Finset.range w.nextConn, ((w.conns c).recycled : Int) :=
      Finset.sum_congr rfl fun d hd => by
        have hne : d ≠ w.nextConn := Nat.ne_of_lt (Finset.mem_range.mp hd)
        simp [connNew, hne]
    have hl := h.live
    rw [Finset.sum_range_succ, he]
    simp only [connNew, Function.update_self]
    push_cast
    omega
  main k hk hs := by
    obtain ⟨h1, h2, h3⟩ := h.main k hk hs
    have hne : (w.coros k).main ≠ w.nextConn := Nat.ne_of_lt h3
    have he : (w.connNew tls owner pr).conns (w.coros k).main = w.conns (w.coros k).main :=
      Function.update_of_ne hne _ _
    refine ⟨?_, ?_, Nat.lt_succ_of_lt h3⟩
    · exact (congrArg Conn.owner he).trans h1
    · exact (congrArg Conn.closed he).trans h2

theorem spawn_census {main : Nat} (h : Census w) (ho : (w.conns main).owner = w.nextCoro)
    (hc : (w.conns main).closed = false) (hm : main < w.nextConn) : Census (w.spawn main) where
  live := h.live
  main k hk hs := by
    by_cases hkn : k = w.nextCoro
    · have he : (w.spawn main).coros k = ⟨main, .ready⟩ := by
        subst hkn
        exact Function.update_self ..
      rw [he]
      exact ⟨ho.trans hkn.symm, hc, hm⟩
    · have he : (w.spawn main).coros k = w.coros k := Function.update_of_ne hkn _ _
      have hlt : k < w.nextCoro + 1 := hk
      rw [he] at hs ⊢
      exact h.main k (by omega) hs

theorem armAccept_same (l : Nat) : (w.armAccept l).conns = w.conns ∧
    (w.armAccept l).coros = w.coros ∧ ((w.armAccept l).nextConn = w.nextConn ∧
      (w.armAccept l).nextCoro = w.nextCoro) ∧ (w.armAccept l).live = w.live := by
  unfold armAccept stallAccept
  split <;> exact ⟨rfl, rfl, ⟨rfl, rfl⟩, rfl⟩

theorem foldl_census {β : Type} {f : Worker → β → Worker} (hf : ∀ v x, Census v → Census (f v x))
    (xs : List β) (h : Census w) : Census (xs.foldl f w) := by
  induction xs generalizing w with
  | nil => exact h
  | cons x xs ih => exact ih (hf w x h)

theorem armAccept_census (h : Census w) (l : Nat) : Census (w.armAccept l) := by
  obtain ⟨h1, h2, h3, h4⟩ := armAccept_same (w := w) l
  exact h.of_eq h1 h2 h3 h4

theorem rearmStalled_census (h : Census w) (due : List Nat) : Census (w.rearmStalled due) := by
  refine foldl_census (fun v l hv => ?_) _ h
  split
  · split
    · exact armAccept_census hv l
    · exact hv
  · exact hv

theorem onAccept_census (h : Census w) (l : Nat) (result : Int) (more : Bool) (pr : Pipereader) :
    Census (w.onAccept l result more pr) := by
  have hnew (tls : Bool) : Census (if result ≥ 0 ∧ w.draining = true then w
      else if result ≥ 0 then
        ((w.connNew tls w.nextCoro pr).armRecv w.nextConn).spawn w.nextConn
      else w) := by
    split
    · exact h
    · split
      · have harm := armRecv_census (connNew_census h tls w.nextCoro pr) (Nat.lt_succ_self _)
        refine spawn_census harm ?_ ?_ (Nat.lt_succ_self _)
        · simp [armRecv, setConn, connNew]
        · simp [armRecv, setConn, connNew]
      · exact h
  unfold onAccept
  dsimp only
  split
  · exact hnew _
  · split
    · exact (hnew _).of_eq rfl rfl ⟨rfl, rfl⟩ rfl
    · exact armAccept_census (hnew _) l

theorem coroResume_census (h : Census w) (hs : (w.coros k).state ≠ .finished) :
    Census (w.coroResume k) :=
  h.seat (k := k) rfl ⟨rfl, rfl⟩ rfl ⟨_, rfl⟩ hs

theorem rearmStarved_census (h : Census w) (hl : Life w hand) : Census w.rearmStarved := by
  have hf : Census { w with bufs := { w.bufs with returned := 0 } } :=
    h.of_eq rfl rfl ⟨rfl, rfl⟩ rfl
  have hfold (cs : List Nat) (v : Worker) (hv : Census v) (hn : v.nextConn = w.nextConn)
      (hcs : ∀ c ∈ cs, c < w.nextConn) : Census (cs.foldl armRecv v) := by
    induction cs generalizing v with
    | nil => exact hv
    | cons c cs ih =>
      exact ih _ (armRecv_census hv (hn.symm ▸ hcs c List.mem_cons_self)) hn
        fun d hd => hcs d (List.mem_cons_of_mem _ hd)
  unfold rearmStarved
  dsimp only
  split
  · exact hf
  · refine Census.of_eq (hfold (w.starved.take _) _ hf rfl fun c hc => ?_) rfl rfl ⟨rfl, rfl⟩ rfl
    have hst := (hl.conn c).starved
    have := List.count_pos_iff.mpr (List.mem_of_mem_take hc)
    refine (hl.conn c).made fun hr => ?_
    rw [hr, if_neg nofun] at hst
    omega

theorem doTask_census {t : Task} {ts : List Task} (h : Census w) (hl : Life w [])
    (ht : w.tasks = t :: ts) : Census (doTask { w with tasks := ts } t) := by
  have hh : Life { w with tasks := ts } [t] := hl.owed_perm (by rw [ht]; rfl)
  have hc : Census { w with tasks := ts } := h.of_eq rfl rfl ⟨rfl, rfl⟩ rfl
  cases t with
  | unref c =>
    refine hc.rest hh (connUnref_rest c) (connUnref_only c) ?_
    by_contra hge
    have hr := (hh.conn c).refs
    have hz := (hh.conn c).fresh (by omega)
    rw [List.cons_append, List.count_cons_self, hz] at hr
    split at hr <;> split at hr <;> omega
  | tail c more =>
    refine hc.rest hh (onRecvTail_rest c more) (onRecvTail_only c more) ((hh.conn c).made ?_)
    rw [(hh.conn c).tail more (by simp)]
    simp
  | drain =>
    simp only [doTask]
    split
    · exact hc
    · rename_i c hs
      have hr : Rest c w { w with starved := w.starved.dropLast, tasks := .drain :: ts } :=
        .of_eq c rfl rfl ⟨rfl, rfl⟩ rfl
      have ho : Only c w { w with starved := w.starved.dropLast, tasks := .drain :: ts } :=
        .of_eq rfl
      refine h.rest hl (hr.trans (recvDrain_rest c)) (ho.trans (recvDrain_only c))
        ((hl.conn c).made fun hd => ?_)
      have hst := (hl.conn c).starved
      have := List.count_pos_iff.mpr (List.mem_of_getLast? hs)
      rw [hd, if_neg (by simp)] at hst
      omega

theorem dispatch_census {x : Cqe} {rest : List Cqe} (h : Census w) (hl : Life w [])
    (hq : w.cq = x :: rest) (n : Nat) (pr : Pipereader) :
    Census (dispatch { w with cq := rest, phase := .batch n } pr x) := by
  have hc : Census { w with cq := rest, phase := .batch n } := h.of_eq rfl rfl ⟨rfl, rfl⟩ rfl
  have hmem : x ∈ w.cq := hq ▸ List.mem_cons_self
  cases x with
  | recv c result more buf =>
    have hr : Rest c w { w with cq := rest, phase := .batch n } := .of_eq c rfl rfl ⟨rfl, rfl⟩ rfl
    have ho : Only c w { w with cq := rest, phase := .batch n } := .of_eq rfl
    refine h.rest hl (hr.trans (onRecv_rest c result more buf))
      (ho.trans (onRecv_only c result more buf)) ((hl.conn c).made ?_)
    rw [(hl.conn c).seen _ hmem (by simp [Cqe.of])]
    simp
  | op k =>
    refine coroResume_census hc fun hf => ?_
    have hops := (hl.coro k).ops
    have := List.count_pos_iff.mpr hmem
    rw [show (w.coros k).state = .finished from hf] at hops
    simp only [CoState.inOp, Bool.false_eq_true, if_false] at hops
    omega
  | accept l result more => exact onAccept_census hc l result more pr
  | drain result =>
    simp only [dispatch]
    split
    · exact hc.of_eq rfl rfl ⟨rfl, rfl⟩ rfl
    · exact hc

theorem loopStep_census (h : Census w) (hl : Life w []) (due : List Nat) (pr : Pipereader) :
    Census (w.loopStep due pr) := by
  have hp (p : Phase) {v : Worker} (hv : Census v) : Census { v with phase := p } :=
    hv.of_eq rfl rfl ⟨rfl, rfl⟩ rfl
  unfold loopStep
  split
  · refine hp _ ?_
    split
    · exact h.of_eq rfl rfl ⟨rfl, rfl⟩ rfl
    · exact h
  · exact hp _ h
  · split
    · rename_i k rest hq
      refine coroResume_census (h.of_eq rfl rfl ⟨rfl, rfl⟩ rfl) fun hf => ?_
      have hr := (hl.coro k).ready
      rw [hq, List.count_cons_self, show (w.coros k).state = .finished from hf] at hr
      simp at hr
    · exact hp _ h
  · exact hp _ (rearmStarved_census h hl)
  · exact h.of_eq rfl rfl ⟨rfl, rfl⟩ rfl
  · exact hp _ h
  · exact hp _ h
  · split
    · rename_i n _ _ x rest hq
      exact dispatch_census h hl hq n pr
    · exact hp _ h
  · exact hp _ (rearmStalled_census h due)
  · exact h

theorem coGoes_census {a : Await} (h : Census w) (hl : Life w hand)
    (hs : (w.coros k).state = .running (some a)) : Census (w.coGoes k a) := by
  have hmade (c : Nat) (hc : a.on = some c) : c < w.nextConn :=
    ((hl.coro k).on a c (by rw [hs]; rfl) hc).2.2
  have hne : (w.coros k).state ≠ .finished := by
    rw [hs]
    nofun
  cases a with
  | item c => exact h.mine (recvItem_mine k c) (recvItem_only k c) (hmade c rfl) hs
  | pause c => exact h.mine (pauseTurn_mine k c) (pauseTurn_only k c) (hmade c rfl) hs
  | op => exact h.seat (k := k) rfl ⟨rfl, rfl⟩ rfl ⟨_, rfl⟩ hne
  | setopt c =>
    exact (armRecv_census h (hmade c rfl)).seat (k := k) rfl ⟨rfl, rfl⟩ rfl ⟨_, rfl⟩ hne

/-- A coroutine closes a connection of its own; those that have not returned
then have others. -/
theorem pipeClose_census {v : Worker} (h : Census w) (hw : w.Works k c)
    (hv : v.conns = (w.pipeClose c).conns) (hn : v.nextConn = (w.pipeClose c).nextConn)
    (hn' : v.nextCoro = (w.pipeClose c).nextCoro) (hlive : v.live = (w.pipeClose c).live)
    (hm : ∀ k', (v.coros k').main = (w.coros k').main ∧
      ((v.coros k').state ≠ .finished → (w.coros k').state ≠ .finished))
    (hk : (v.coros k).state = .finished ∨ c ≠ (w.coros k).main) : Census v := by
  have hp := pipeClose_paid (w := w) c
  have hpv : Paid c w v := ⟨hn.trans hp.nextConn, hn'.trans hp.nextCoro, by
    rw [hlive, hv]
    exact hp.live, by
    rw [hv]
    exact hp.owner, fun k' => (hm k').1⟩
  refine h.paid hpv (fun d hd => ?_) hw.2.2 fun k' hk' hs => ⟨(hm k').2 hs, fun hmc => ?_⟩
  · rw [hv]
    exact pipeClose_only c d hd
  · have ho := (h.main k' hk' ((hm k').2 hs)).1
    rw [hmc, hw.1] at ho
    rcases hk with hk | hk
    · exact absurd (ho ▸ hk) hs
    · exact absurd (by rw [ho, hmc]) hk

theorem coActs_census {a : CoAct} (h : Census w) (hs : (w.coros k).state = .running none)
    (ha : w.coActs k a = some w') : Census w' := by
  have hne : (w.coros k).state ≠ .finished := by
    rw [hs]
    nofun
  cases a with
  | more c =>
    simp only [coActs, Option.ite_none_right_eq_some, Option.some.injEq] at ha
    obtain ⟨hw, rfl⟩ := ha
    split
    · exact h
    · exact h.mine (recvItem_mine k c) (recvItem_only k c) hw.2.2 hs
  | reader c op =>
    simp only [coActs, Option.ite_none_right_eq_some, Option.some.injEq] at ha
    exact ha.2 ▸ h.mine (withReader_mine c k _) (withReader_only c _) ha.1.2.2 hs
  | pause c =>
    simp only [coActs, Option.ite_none_right_eq_some, Option.some.injEq] at ha
    exact ha.2 ▸ h.mine (recvPause_mine k c) (recvPause_only k c) ha.1.2.2 hs
  | resume c =>
    simp only [coActs, Option.ite_none_right_eq_some, Option.some.injEq] at ha
    exact ha.2 ▸ h.mine (recvResume_mine k c) (recvResume_only c) ha.1.2.2 hs
  | await => exact Option.some.inj ha ▸ h.seat (k := k) rfl ⟨rfl, rfl⟩ rfl ⟨_, rfl⟩ hne
  | connected pr =>
    exact Option.some.inj ha ▸
      (connNew_census h false k pr).seat (k := k) rfl ⟨rfl, rfl⟩ rfl ⟨_, rfl⟩ hne
  | close c =>
    simp only [coActs, Option.ite_none_right_eq_some, Option.some.injEq] at ha
    obtain ⟨⟨hw, hm⟩, rfl⟩ := ha
    refine pipeClose_census h hw rfl rfl rfl rfl (fun k' => ?_) (.inr hm)
    rw [pipeClose_coros]
    exact ⟨rfl, id⟩
  | finish =>
    simp only [coActs, Option.ite_none_right_eq_some, Option.some.injEq] at ha
    obtain ⟨hw, rfl⟩ := ha
    refine pipeClose_census h hw rfl rfl rfl rfl (fun k' => ?_) (.inl (by simp [setState]))
    by_cases hk : k' = k
    · subst hk
      simp [setState, pipeClose_coros]
    · simp [setState, hk, pipeClose_coros]

theorem recvPosted_census {result : Int} {more : Bool} (h : Census w) (hl : Life w [])
    (ha : (w.conns c).armed = true) (buf : Option Nat) :
    Census (w.recvPosted c result more buf) := by
  have hr : Rest c w (w.recvPosted c result more buf) :=
    (setConn_rest c ({ · with armed := more }) fun _ => ⟨rfl, rfl, rfl, fun _ => id⟩).trans
      (.of_eq c rfl rfl ⟨rfl, rfl⟩ rfl)
  refine h.rest hl hr (fun d hd => Function.update_of_ne hd _ _) ((hl.conn c).made fun hd => ?_)
  have := ((hl.conn c).unarmed (by rw [hd]; nofun)).1
  rw [ha] at this
  cases this

theorem step_census {a : Act} (h : Census w) (hl : Life w []) (hs : w.step a = some w') :
    Census w' := by
  cases a with
  | stop => exact Option.some.inj hs ▸ h.of_eq rfl rfl ⟨rfl, rfl⟩ rfl
  | enter => exact Option.some.inj hs ▸ h.of_eq rfl rfl ⟨rfl, rfl⟩ rfl
  | recv c result more fill =>
    obtain ⟨ha, -, -, hcase⟩ := postRecv_cases hs
    have hp (buf : Option Nat) : Census (w.recvPosted c result more buf) :=
      recvPosted_census h hl ha buf
    obtain ⟨m, -, -, -, rfl⟩ | ⟨-, -, -, rfl⟩ | ⟨-, -, rfl⟩ := hcase
    · exact (hp none).of_eq rfl rfl ⟨rfl, rfl⟩ rfl
    · exact (hp none).of_eq rfl rfl ⟨rfl, rfl⟩ rfl
    · exact (hp none).of_eq rfl rfl ⟨rfl, rfl⟩ rfl
  | op k =>
    simp only [step, Option.ite_none_right_eq_some, Option.some.injEq] at hs
    exact hs.2 ▸ h.of_eq rfl rfl ⟨rfl, rfl⟩ rfl
  | accept l result more =>
    rw [postAccept_cases hs]
    exact h.of_eq rfl rfl ⟨rfl, rfl⟩ rfl
  | cancelled result =>
    simp only [step, Option.ite_none_right_eq_some, Option.some.injEq] at hs
    exact hs.2 ▸ h.of_eq rfl rfl ⟨rfl, rfl⟩ rfl
  | giveUp =>
    simp only [step, Option.ite_none_right_eq_some, Option.some.injEq] at hs
    exact hs.2 ▸ h.of_eq rfl rfl ⟨rfl, rfl⟩ rfl
  | loop due pr =>
    simp only [step] at hs
    split at hs
    · cases hs
    · rename_i ht
      exact Option.some.inj hs ▸ doTask_census h hl ht
    · exact Option.some.inj hs ▸ loopStep_census h hl due pr
  | go =>
    simp only [step] at hs
    split at hs
    · cases hs
    · split at hs
      · rename_i hst
        exact Option.some.inj hs ▸ coGoes_census h hl hst
      · cases hs
  | co a =>
    simp only [step] at hs
    split at hs
    · cases hs
    · split at hs
      · rename_i hst
        exact coActs_census h hst hs
      · cases hs

theorem start_census (bufCount fileSlots : Nat) (certs : List Bool) (pr : Pipereader)
    (slab : Nat → Mem Byte) : Census (start bufCount fileSlots certs pr slab) :=
  foldl_census (fun _ l hv => armAccept_census hv l) _
    ⟨rfl, fun k hk => absurd hk (Nat.not_lt_zero k)⟩

end Worker

-- ---------------------------------------------------------------------------
-- The end of a worker
-- ---------------------------------------------------------------------------

/-- Nothing of the worker's is left: no connection that a handler, a coroutine or
the kernel has, no coroutine to go on, no operation, and every receive buffer in
the ring. -/
structure NothingLeft (bufCount : Nat) (w : Worker) : Prop where
  conns : ∀ c, c < w.nextConn → (w.conns c).recycled = 1 ∧ Worker.Gone w c
  coros : ∀ k, (w.coros k).state = .finished
  ready : w.ready = []
  ops : w.ops = [] ∧ ∀ k, .op k ∉ w.cq
  starved : w.starved = []
  tasks : ∀ t ∈ w.tasks, t = .drain
  bufs : w.bufs.offered.Perm (List.range bufCount)

theorem Census.counts (h : Census w) (hl : Life w []) :
    w.live = ((Finset.range w.nextConn).filter fun c => (w.conns c).recycled = 0).card := by
  have hone (c : Nat) : ((w.conns c).recycled : Int) =
      1 - if (w.conns c).recycled = 0 then 1 else 0 := by
    rw [(hl.conn c).recycled]
    split <;> simp
  have hlive := h.live
  rw [Finset.sum_congr rfl fun c _ => hone c, Finset.sum_sub_distrib, Finset.sum_const,
    Finset.card_range, nsmul_eq_mul, mul_one] at hlive
  rw [Finset.card_filter]
  push_cast
  omega

theorem Census.gone (h : Census w) (hl : Life w []) (hz : w.live = 0) (c : Nat) :
    (w.conns c).refs = 0 ∧ Worker.Gone w c := by
  have hr : (w.conns c).refs = 0 := by
    by_contra hx
    have hlt : c < w.nextConn := by
      by_contra hge
      exact hx ((hl.conn c).fresh (by omega))
    have hcard := h.counts hl
    rw [hz] at hcard
    have hmem : c ∈ (Finset.range w.nextConn).filter fun c => (w.conns c).recycled = 0 :=
      Finset.mem_filter.mpr ⟨Finset.mem_range.mpr hlt, by
        rw [(hl.conn c).recycled, if_neg fun hy => hx hy.2]⟩
    have := Finset.card_pos.mpr ⟨c, hmem⟩
    omega
  exact ⟨hr, Worker.Life.gone hl hr⟩

theorem Census.nothingLeft {bufCount : Nat} (h : Census w) (hl : Life w [])
    (hc : Worker.Conserved bufCount w) (hz : w.live = 0) : NothingLeft bufCount w := by
  have hgone (c : Nat) := (h.gone hl hz c).2
  have hfin (k : Nat) : (w.coros k).state = .finished := by
    by_contra hs
    have hk : k < w.nextCoro := by
      by_contra hge
      exact hs ((hl.coro k).fresh (by omega))
    have hcl := (h.main k hk hs).2.1
    rw [(hgone _).closed] at hcl
    cases hcl
  have hops (k : Nat) : w.ops.count k = 0 ∧ w.cq.count (.op k) = 0 := by
    have := (hl.coro k).ops
    rw [hfin k] at this
    simpa [CoState.inOp] using this
  refine ⟨fun c hlt => ⟨?_, hgone c⟩, hfin, ?_, ⟨?_, fun k => ?_⟩, ?_, fun t ht => ?_, ?_⟩
  · rw [(hl.conn c).recycled, if_pos ⟨hlt, (h.gone hl hz c).1⟩]
  · refine List.eq_nil_iff_forall_not_mem.mpr fun k => List.count_eq_zero.mp ?_
    rw [(hl.coro k).ready, hfin k, if_neg (by simp)]
  · exact List.eq_nil_iff_forall_not_mem.mpr fun k => List.count_eq_zero.mp (hops k).1
  · exact List.count_eq_zero.mp (hops k).2
  · exact List.eq_nil_iff_forall_not_mem.mpr fun c hm => (hgone c).starved hm
  · cases t with
    | unref c => exact absurd rfl ((hgone c).tasks _ ht)
    | tail c more => exact absurd rfl ((hgone c).tasks _ ht)
    | drain => rfl
  · have hq : w.inFlight = [] := by
      refine List.flatMap_eq_nil_iff.mpr fun x hx => ?_
      cases x with
      | recv c result more buf =>
        have := (hgone c).cq _ hx
        simp [Cqe.of] at this
      | _ => rfl
    have hown : w.owned = [] := by
      refine List.flatMap_eq_nil_iff.mpr fun c _ => ?_
      obtain ⟨h1, h2⟩ := hc.closed c (hgone c).closed
      rw [Conn.owned, h1, h2]
      rfl
    have hone := hc.one
    rwa [Worker.places, hq, hown, List.append_nil, List.append_nil] at hone

namespace Worker

/-- In every state of every run `live` is the number of connections that did not
go back to the pool, and a worker whose `live` is 0 is over: what it unmaps then,
nobody has. -/
theorem live_counts {bufCount fileSlots : Nat} {certs : List Bool} {buf : Mem Byte} {cap : Nat}
    {slab : Nat → Mem Byte}
    (h : Reach step (fun _ a => a.fits) (start bufCount fileSlots certs (.init buf cap) slab) w) :
    w.live = ((Finset.range w.nextConn).filter fun c => (w.conns c).recycled = 0).card ∧
      (w.live = 0 → NothingLeft bufCount w) := by
  obtain ⟨hl, hc⟩ : Life w [] ∧ Census w := by
    refine h.invariant (P := fun w => Life w [] ∧ Census w) ⟨start_life .., start_census ..⟩
      fun w₁ a w₂ hw _ hs => ⟨step_life hw.1 hs, step_census hw.2 hw.1 hs⟩
  exact ⟨hc.counts hl, fun hz => hc.nothingLeft hl (buffers_conserved h) hz⟩

/-- A connection is served and closed, and the worker is over: it stops at the
next shutdown. -/
theorem live_counts_closed : ∃ w, Reach step (fun _ a => a.fits) oneListener w ∧
    w.nextConn = 1 ∧ w.live = 0 ∧ NothingLeft 2 w := by
  have h : (perform step (fun _ a => a.fits) oneListener
      (woken ++ [.go, .co .finish] ++ turns 1)).map
      (fun w => (w.nextConn, w.live)) = some (1, 0) := by decide
  obtain ⟨w, hw, hb⟩ := Option.map_eq_some_iff.mp h
  rw [Prod.mk.injEq] at hb
  have hr := Reach.start.perform hw
  exact ⟨w, hr, hb.1, hb.2, (live_counts hr).2 hb.2⟩

end Worker

end Ioxd.Io
