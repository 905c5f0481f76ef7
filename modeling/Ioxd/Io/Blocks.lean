import Ioxd.Io.Census
import Ioxd.Lib.Pools

/-!
# The blocks that connections and coroutines are in

The worker of `Ioxd.Io.Worker` never uses a number twice. The source has
addresses: `ioxd__conn_new` takes a `conn_t` from `conn_free`, `conn_unref`
puts it back, and `ioxd__coro_create` and `coro_destroy` do the same with
stacks, so an address names one connection after the other, and a completion
carries the address of the one it was posted for.

A worker is paired here with the memory behind its numbers. `nextConn` counts
the calls of `ioxd__conn_new` and `recycled` the references that reached 0, so
what a move did to the pools is what it did to these: at most one block is
taken, for the number that is new, and those of the numbers that are gone are
given back. What the allocator would give out next comes with the move.
-/

namespace Ioxd.Io

open Flat Ioxd.Pipe Runs Pools

variable {w w' w'' : Worker} {hand hand' : List Task} {c k : Nat}

-- ---------------------------------------------------------------------------
-- What a move makes and ends
-- ---------------------------------------------------------------------------

/-- At most one connection and one coroutine are new, and a coroutine that has
returned does not run again. -/
structure Grown (w w' : Worker) : Prop where
  conns : w'.nextConn ≤ w.nextConn + 1
  coros : w'.nextCoro ≤ w.nextCoro + 1
  returned : ∀ k, k < w.nextCoro → (w.coros k).state = .finished →
    (w'.coros k).state = .finished

theorem Grown.of_eq (hn : w'.nextConn = w.nextConn ∧ w'.nextCoro = w.nextCoro)
    (hk : w'.coros = w.coros) : Grown w w' :=
  ⟨by omega, by omega, fun k _ hf => by rw [hk]; exact hf⟩

theorem Grown.seat (hn : w'.nextConn = w.nextConn ∧ w'.nextCoro = w.nextCoro)
    (hk : ∃ st, w'.coros = Function.update w.coros k { w.coros k with state := st })
    (hs : (w.coros k).state ≠ .finished) : Grown w w' := by
  obtain ⟨st, hk⟩ := hk
  refine ⟨by omega, by omega, fun k' _ hf => ?_⟩
  have hkk : k' ≠ k := by
    rintro rfl
    exact hs hf
  rw [hk, Function.update_of_ne hkk]
  exact hf

theorem Rest.grown (h : Rest c w w') (hl : Life w hand) : Grown w w' := by
  refine ⟨h.nextConn.le.trans (Nat.le_succ _), h.nextCoro.le.trans (Nat.le_succ _),
    fun k _ hf => h.finished k (fun d hd => ?_) hf⟩
  rcases (hl.conn d).waiter k hd with hx | hx <;> rw [hf] at hx <;> cases hx

theorem Mine.grown {st : Option Await} (h : Mine c k w w')
    (hs : (w.coros k).state = .running st) : Grown w w' := by
  refine ⟨h.nextConn.le.trans (Nat.le_succ _), h.nextCoro.le.trans (Nat.le_succ _),
    fun k' _ hf => ?_⟩
  have hkk : k' ≠ k := by
    rintro rfl
    rw [hs] at hf
    cases hf
  rw [h.other k' hkk]
  exact hf

namespace Worker

theorem armAccept_grown (h : Grown w w') (l : Nat) : Grown w (w'.armAccept l) := by
  obtain ⟨-, hk, hn, -⟩ := armAccept_same (w := w') l
  exact ⟨hn.1 ▸ h.conns, hn.2 ▸ h.coros, hk ▸ h.returned⟩

theorem onAccept_grown (l : Nat) (result : Int) (more : Bool) (pr : Pipereader) :
    Grown w (w.onAccept l result more pr) := by
  have hnew (tls : Bool) : Grown w (if result ≥ 0 ∧ w.draining = true then w
      else if result ≥ 0 then
        ((w.connNew tls w.nextCoro pr).armRecv w.nextConn).spawn w.nextConn
      else w) := by
    split
    · exact .of_eq ⟨rfl, rfl⟩ rfl
    · split
      · refine ⟨Nat.le_refl _, Nat.le_refl _, fun k hk hf => ?_⟩
        have hne : k ≠ w.nextCoro := Nat.ne_of_lt hk
        simpa [spawn, armRecv, setConn, connNew, hne] using hf
      · exact .of_eq ⟨rfl, rfl⟩ rfl
  unfold onAccept
  dsimp only
  split
  · exact hnew _
  · split
    · have h := hnew
      exact ⟨(h _).conns, (h _).coros, (h _).returned⟩
    · exact armAccept_grown (hnew _) l

theorem rearmStalled_grown (due : List Nat) : Grown w (w.rearmStalled due) := by
  have hfold {β : Type} (f : Worker → β → Worker) (hf : ∀ v x, Grown w v → Grown w (f v x))
      (xs : List β) (v : Worker) (hv : Grown w v) : Grown w (xs.foldl f v) := by
    induction xs generalizing v with
    | nil => exact hv
    | cons x xs ih => exact ih _ (hf v x hv)
  refine hfold _ (fun v l hv => ?_) _ w (.of_eq ⟨rfl, rfl⟩ rfl)
  split
  · split
    · exact armAccept_grown hv l
    · exact hv
  · exact hv

theorem rearmStarved_grown : Grown w w.rearmStarved := by
  have hfold (cs : List Nat) (v : Worker) :
      ((cs.foldl armRecv v).nextConn = v.nextConn ∧ (cs.foldl armRecv v).nextCoro = v.nextCoro) ∧
        (cs.foldl armRecv v).coros = v.coros := by
    induction cs generalizing v with
    | nil => exact ⟨⟨rfl, rfl⟩, rfl⟩
    | cons c cs ih => exact ih (v.armRecv c)
  unfold rearmStarved
  dsimp only
  split
  · exact .of_eq ⟨rfl, rfl⟩ rfl
  · obtain ⟨h1, h2⟩ := hfold (w.starved.take (min w.bufs.returned w.starved.length))
      { w with bufs := { w.bufs with returned := 0 } }
    exact .of_eq h1 h2

theorem doTask_grown {t : Task} {ts : List Task} (hl : Life w []) (ht : w.tasks = t :: ts) :
    Grown w (doTask { w with tasks := ts } t) := by
  have hr (c : Nat) : Rest c w { w with tasks := ts } := .of_eq c rfl rfl ⟨rfl, rfl⟩ rfl
  cases t with
  | unref c => exact ((hr c).trans (connUnref_rest c)).grown hl
  | tail c more => exact ((hr c).trans (onRecvTail_rest c more)).grown hl
  | drain =>
    simp only [doTask]
    split
    · exact .of_eq ⟨rfl, rfl⟩ rfl
    · rename_i c _
      have hr : Rest c w { w with starved := w.starved.dropLast, tasks := .drain :: ts } :=
        .of_eq c rfl rfl ⟨rfl, rfl⟩ rfl
      exact (hr.trans (recvDrain_rest c)).grown hl

theorem dispatch_grown {x : Cqe} {rest : List Cqe} (hl : Life w []) (hq : w.cq = x :: rest)
    (n : Nat) (pr : Pipereader) :
    Grown w (dispatch { w with cq := rest, phase := .batch n } pr x) := by
  cases x with
  | recv c result more buf =>
    have hr : Rest c w { w with cq := rest, phase := .batch n } := .of_eq c rfl rfl ⟨rfl, rfl⟩ rfl
    exact (hr.trans (onRecv_rest c result more buf)).grown hl
  | op k =>
    refine .seat (k := k) ⟨rfl, rfl⟩ ⟨_, rfl⟩ fun hf => ?_
    have hops := (hl.coro k).ops
    rw [hf, hq, List.count_cons_self] at hops
    simp only [CoState.inOp, Bool.false_eq_true, if_false] at hops
    omega
  | accept l result more =>
    have h := onAccept_grown (w := { w with cq := rest, phase := .batch n }) l result more pr
    exact ⟨h.conns, h.coros, h.returned⟩
  | drain result =>
    simp only [dispatch]
    split <;> exact .of_eq ⟨rfl, rfl⟩ rfl

theorem loopStep_grown (hl : Life w []) (due : List Nat) (pr : Pipereader) :
    Grown w (w.loopStep due pr) := by
  unfold loopStep
  split
  · split <;> exact .of_eq ⟨rfl, rfl⟩ rfl
  · exact .of_eq ⟨rfl, rfl⟩ rfl
  · split
    · rename_i k rest hq
      refine .seat (k := k) ⟨rfl, rfl⟩ ⟨_, rfl⟩ fun hf => ?_
      have hr := (hl.coro k).ready
      rw [hf, hq, List.count_cons_self] at hr
      simp at hr
    · exact .of_eq ⟨rfl, rfl⟩ rfl
  · have h := rearmStarved_grown (w := w)
    exact ⟨h.conns, h.coros, h.returned⟩
  · exact .of_eq ⟨rfl, rfl⟩ rfl
  · exact .of_eq ⟨rfl, rfl⟩ rfl
  · exact .of_eq ⟨rfl, rfl⟩ rfl
  · split
    · rename_i n _ _ x rest hq
      exact dispatch_grown hl hq n pr
    · exact .of_eq ⟨rfl, rfl⟩ rfl
  · have h := rearmStalled_grown (w := w) due
    exact ⟨h.conns, h.coros, h.returned⟩
  · exact .of_eq ⟨rfl, rfl⟩ rfl

theorem coGoes_grown {a : Await} (hs : (w.coros k).state = .running (some a)) :
    Grown w (w.coGoes k a) := by
  have hne : (w.coros k).state ≠ .finished := by
    rw [hs]
    simp
  cases a with
  | item c => exact (recvItem_mine k c).grown hs
  | pause c => exact (pauseTurn_mine k c).grown hs
  | op => exact .seat (k := k) ⟨rfl, rfl⟩ ⟨_, rfl⟩ hne
  | setopt c => exact .seat (k := k) ⟨rfl, rfl⟩ ⟨_, rfl⟩ hne

theorem coActs_grown {a : CoAct} (hs : (w.coros k).state = .running none)
    (ha : w.coActs k a = some w') : Grown w w' := by
  have hne : (w.coros k).state ≠ .finished := by
    rw [hs]
    simp
  cases a with
  | more c =>
    simp only [coActs, Option.ite_none_right_eq_some, Option.some.injEq] at ha
    obtain ⟨-, rfl⟩ := ha
    split
    · exact .of_eq ⟨rfl, rfl⟩ rfl
    · exact (recvItem_mine k c).grown hs
  | reader c op =>
    simp only [coActs, Option.ite_none_right_eq_some, Option.some.injEq] at ha
    exact ha.2 ▸ (withReader_mine c k _).grown hs
  | pause c =>
    simp only [coActs, Option.ite_none_right_eq_some, Option.some.injEq] at ha
    exact ha.2 ▸ (recvPause_mine k c).grown hs
  | resume c =>
    simp only [coActs, Option.ite_none_right_eq_some, Option.some.injEq] at ha
    exact ha.2 ▸ (recvResume_mine k c).grown hs
  | await => exact Option.some.inj ha ▸ .seat (k := k) ⟨rfl, rfl⟩ ⟨_, rfl⟩ hne
  | connected pr =>
    have h : Grown (w.connNew false k pr) w' :=
      Option.some.inj ha ▸ .seat (k := k) ⟨rfl, rfl⟩ ⟨_, rfl⟩ hne
    have hn : w'.nextConn = w.nextConn + 1 := by rw [← Option.some.inj ha]; rfl
    exact ⟨hn.le, h.coros, h.returned⟩
  | close c =>
    simp only [coActs, Option.ite_none_right_eq_some, Option.some.injEq] at ha
    obtain ⟨-, rfl⟩ := ha
    have hp := pipeClose_paid (w := w) c
    exact .of_eq ⟨hp.nextConn, hp.nextCoro⟩ (pipeClose_coros c)
  | finish =>
    simp only [coActs, Option.ite_none_right_eq_some, Option.some.injEq] at ha
    obtain ⟨-, rfl⟩ := ha
    have hp := pipeClose_paid (w := w) (w.coros k).main
    refine .seat (k := k) ⟨hp.nextConn, hp.nextCoro⟩ ⟨.finished, ?_⟩ hne
    simp [setState, pipeClose_coros]

theorem step_grown {a : Act} (hl : Life w []) (hs : w.step a = some w') : Grown w w' := by
  cases a with
  | stop => exact Option.some.inj hs ▸ .of_eq ⟨rfl, rfl⟩ rfl
  | enter => exact Option.some.inj hs ▸ .of_eq ⟨rfl, rfl⟩ rfl
  | recv c result more fill =>
    obtain ⟨-, -, -, hcase⟩ := postRecv_cases hs
    obtain ⟨m, -, -, -, rfl⟩ | ⟨-, -, -, rfl⟩ | ⟨-, -, rfl⟩ := hcase
    · exact .of_eq ⟨rfl, rfl⟩ rfl
    · exact .of_eq ⟨rfl, rfl⟩ rfl
    · exact .of_eq ⟨rfl, rfl⟩ rfl
  | op k =>
    simp only [step, Option.ite_none_right_eq_some, Option.some.injEq] at hs
    exact hs.2 ▸ .of_eq ⟨rfl, rfl⟩ rfl
  | accept l result more =>
    rw [postAccept_cases hs]
    exact .of_eq ⟨rfl, rfl⟩ rfl
  | cancelled result =>
    simp only [step, Option.ite_none_right_eq_some, Option.some.injEq] at hs
    exact hs.2 ▸ .of_eq ⟨rfl, rfl⟩ rfl
  | giveUp =>
    simp only [step, Option.ite_none_right_eq_some, Option.some.injEq] at hs
    exact hs.2 ▸ .of_eq ⟨rfl, rfl⟩ rfl
  | loop due pr =>
    simp only [step] at hs
    split at hs
    · cases hs
    · rename_i ht
      exact Option.some.inj hs ▸ doTask_grown hl ht
    · exact Option.some.inj hs ▸ loopStep_grown hl due pr
  | go =>
    simp only [step] at hs
    split at hs
    · cases hs
    · split at hs
      · rename_i hst
        exact Option.some.inj hs ▸ coGoes_grown hst
      · cases hs
  | co a =>
    simp only [step] at hs
    split at hs
    · cases hs
    · split at hs
      · rename_i hst
        exact coActs_grown hst hs
      · cases hs

/-- The connections that did not go back to the pool. -/
def alive (w : Worker) : List Nat :=
  (List.range w.nextConn).filter fun c => (w.conns c).recycled = 0

def unreturned (w : Worker) : List Nat :=
  (List.range w.nextCoro).filter fun k => (w.coros k).state ≠ .finished

theorem mem_alive : c ∈ w.alive ↔ c < w.nextConn ∧ (w.conns c).recycled = 0 := by
  simp [alive]

theorem mem_unreturned : k ∈ w.unreturned ↔ k < w.nextCoro ∧ (w.coros k).state ≠ .finished := by
  simp [unreturned]

theorem alive_nodup : w.alive.Nodup := List.nodup_range.filter _

theorem unreturned_nodup : w.unreturned.Nodup := List.nodup_range.filter _

/-- Nothing is to resume the coroutine. -/
structure Over (w : Worker) (k : Nat) : Prop where
  ready : k ∉ w.ready
  ops : k ∉ w.ops
  cq : .op k ∉ w.cq
  waiter : ∀ c, (w.conns c).waiter ≠ some k

theorem Life.over (hl : Life w []) (hf : (w.coros k).state = .finished) : Over w k := by
  have hs := hl.coro k
  have hops := hs.ops
  have hready := hs.ready
  rw [hf] at hops hready
  simp only [CoState.inOp, Bool.false_eq_true, if_false, reduceCtorEq, Nat.add_eq_zero_iff]
    at hops hready
  refine ⟨List.count_eq_zero.mp hready, List.count_eq_zero.mp hops.1,
    List.count_eq_zero.mp hops.2, fun c hc => ?_⟩
  rcases (hl.conn c).waiter k hc with hx | hx <;> rw [hf] at hx <;> cases hx

theorem Life.alive (hl : Life w []) (hc : ¬ Gone w c) : c ∈ w.alive := by
  have hr : (w.conns c).refs ≠ 0 := fun hr => hc (Life.gone hl hr)
  refine mem_alive.mpr ⟨?_, ?_⟩
  · by_contra hge
    exact hr ((hl.conn c).fresh (by omega))
  · rw [(hl.conn c).recycled, if_neg fun hx => hr hx.2]

theorem Life.unreturned (hl : Life w []) (hk : ¬ Over w k) : k ∈ w.unreturned := by
  have hf : (w.coros k).state ≠ .finished := fun hf => hk (Life.over hl hf)
  refine mem_unreturned.mpr ⟨?_, hf⟩
  by_contra hge
  exact hf ((hl.coro k).fresh (by omega))

theorem filter_length_le_one {xs ys : List Nat} {n : Nat} (hn : xs.Nodup)
    (h : ∀ x ∈ xs, x ∉ ys → x = n) : (xs.filter (· ∉ ys)).length ≤ 1 := by
  have hsub : (xs.filter (· ∉ ys)) ⊆ [n] := fun x hx => by
    rw [List.mem_filter] at hx
    simpa using h x hx.1 (by simpa using hx.2)
  exact ((hn.filter _).subperm hsub).length_le

/-- A connection that is gone does not come back, and one is new at most. -/
theorem alive_new {a : Act} (hl : Life w []) (hs : w.step a = some w') :
    (w'.alive.filter (· ∉ w.alive)).length ≤ 1 := by
  refine filter_length_le_one (n := w.nextConn) alive_nodup fun c hc hn => ?_
  have hg := (step_grown hl hs).conns
  obtain ⟨hlt, hrec⟩ := mem_alive.mp hc
  by_contra hne
  have hlt' : c < w.nextConn := by omega
  have hgone : Gone w c := by
    by_contra hx
    exact hn (Life.alive hl hx)
  rw [Moves.gone hgone hlt' (.step hs)] at hrec
  exact hn (mem_alive.mpr ⟨hlt', hrec⟩)

theorem unreturned_new {a : Act} (hl : Life w []) (hs : w.step a = some w') :
    (w'.unreturned.filter (· ∉ w.unreturned)).length ≤ 1 := by
  refine filter_length_le_one (n := w.nextCoro) unreturned_nodup fun k hk hn => ?_
  have hg := step_grown hl hs
  obtain ⟨hlt, hf⟩ := mem_unreturned.mp hk
  by_contra hne
  have hlt' : k < w.nextCoro := by have := hg.coros; omega
  refine hn (mem_unreturned.mpr ⟨hlt', fun hx => hf (hg.returned k hlt' hx)⟩)

end Worker

-- ---------------------------------------------------------------------------
-- The worker and its memory
-- ---------------------------------------------------------------------------

/-- A worker with the blocks its connections and its coroutines' stacks are in. -/
structure Housed where
  worker : Worker
  conns : Tenancy Nat Nat
  coros : Tenancy Nat Nat

/-- A move of the worker, and the blocks that `calloc` and `mmap` would give out
in it. -/
structure Move where
  act : Worker.Act
  conn : Nat
  stack : Nat

namespace Housed

def start (w : Worker) : Housed where
  worker := w
  conns := ⟨.empty, fun _ => 0⟩
  coros := ⟨.empty, fun _ => 0⟩

/-- `cfg.idle_connections` and `cfg.idle_stacks` are how many a pool keeps. -/
def step (idleConnections idleStacks : Nat) (h : Housed) (m : Move) : Option Housed :=
  (h.worker.step m.act).map fun w =>
    { worker := w
      conns := h.conns.follow idleConnections h.worker.alive w.alive m.conn
      coros := h.coros.follow idleStacks h.worker.unreturned w.unreturned m.stack }

/-- The allocator gives out no block that it has not had back. -/
def fits (h : Housed) (m : Move) : Bool :=
  decide (m.conn ∉ h.conns.pool.heap ∧ m.stack ∉ h.coros.pool.heap)

end Housed

/-- Blocks are given out again only when nothing knows them any more: live
connections and coroutines are in blocks of their own, neither idle nor freed,
so what the kernel, a queue or a wait has the address of is one of them only;
and a worker with nothing alive has every block back once its pools are
drained. -/
structure Homes (idleConnections idleStacks : Nat) (h : Housed) : Prop where
  conns : h.conns.Sound idleConnections h.worker.alive
  coros : h.coros.Sound idleStacks h.worker.unreturned
  conn : ∀ c d, ¬ Worker.Gone h.worker c → ¬ Worker.Gone h.worker d →
    h.conns.home c = h.conns.home d → c = d
  coro : ∀ j k, ¬ Worker.Over h.worker j → ¬ Worker.Over h.worker k →
    h.coros.home j = h.coros.home k → j = k
  connIn : ∀ c, ¬ Worker.Gone h.worker c →
    h.conns.home c ∈ h.conns.pool.heap ∧ h.conns.home c ∉ h.conns.pool.idle
  coroIn : ∀ k, ¬ Worker.Over h.worker k →
    h.coros.home k ∈ h.coros.pool.heap ∧ h.coros.home k ∉ h.coros.pool.idle
  drained : h.worker.live = 0 → h.conns.pool.drain.heap = [] ∧ h.coros.pool.drain.heap = []

structure Housing (idleConnections idleStacks : Nat) (h : Housed) : Prop where
  life : Life h.worker []
  census : Census h.worker
  conns : h.conns.Sound idleConnections h.worker.alive
  coros : h.coros.Sound idleStacks h.worker.unreturned

namespace Housed

variable {idleConnections idleStacks : Nat} {h h' : Housed} {m : Move}

theorem step_housing (hh : Housing idleConnections idleStacks h) (hf : h.fits m = true)
    (hs : h.step idleConnections idleStacks m = some h') :
    Housing idleConnections idleStacks h' := by
  obtain ⟨w, hw, rfl⟩ := Option.map_eq_some_iff.mp hs
  simp only [fits, decide_eq_true_eq] at hf
  obtain ⟨h1, h2⟩ := hf
  exact ⟨Worker.step_life hh.life hw, Worker.step_census hh.census hh.life hw,
    hh.conns.follow Worker.alive_nodup Worker.alive_nodup (Worker.alive_new hh.life hw) h1,
    hh.coros.follow Worker.unreturned_nodup Worker.unreturned_nodup
      (Worker.unreturned_new hh.life hw) h2⟩

theorem start_housing (bufCount fileSlots : Nat) (certs : List Bool) (pr : Pipereader)
    (slab : Nat → Mem Byte) : Housing idleConnections idleStacks
      (start (Worker.start bufCount fileSlots certs pr slab)) := by
  have ha (w : Worker) : Alike w ((List.range certs.length).foldl Worker.armAccept w) :=
    Worker.foldl_alike _ (fun w l => Worker.armAccept_alike l) _ w
  have h1 : (Worker.start bufCount fileSlots certs pr slab).alive = [] := by
    rw [Worker.alive, Worker.start, (ha _).nextConn]
    rfl
  have h2 : (Worker.start bufCount fileSlots certs pr slab).unreturned = [] := by
    rw [Worker.unreturned, Worker.start, (ha _).nextCoro]
    rfl
  refine ⟨Worker.start_life .., Worker.start_census .., ?_, ?_⟩
  · show Tenancy.Sound _ _ (Worker.start bufCount fileSlots certs pr slab).alive
    rw [h1]
    exact Pool.empty_sound _
  · show Tenancy.Sound _ _ (Worker.start bufCount fileSlots certs pr slab).unreturned
    rw [h2]
    exact Pool.empty_sound _

theorem homes_of_housing (hh : Housing idleConnections idleStacks h) :
    Homes idleConnections idleStacks h := by
  refine ⟨hh.conns, hh.coros, fun c d hc hd => ?_, fun j k hj hk => ?_, fun c hc => ?_,
    fun k hk => ?_, fun hz => ⟨?_, ?_⟩⟩
  · exact hh.conns.inj (Worker.Life.alive hh.life hc) (Worker.Life.alive hh.life hd)
  · exact hh.coros.inj (Worker.Life.unreturned hh.life hj) (Worker.Life.unreturned hh.life hk)
  · exact Pool.Sound.mem hh.conns (List.mem_map_of_mem (Worker.Life.alive hh.life hc))
  · exact Pool.Sound.mem hh.coros (List.mem_map_of_mem (Worker.Life.unreturned hh.life hk))
  · -- nothing is alive, so the pool has every block
    have hnone : h.worker.alive = [] := by
      refine List.eq_nil_iff_forall_not_mem.mpr fun c hc => ?_
      obtain ⟨hlt, hrec⟩ := Worker.mem_alive.mp hc
      rw [(hh.life.conn c).recycled, if_pos ⟨hlt, (hh.census.gone hh.life hz c).1⟩] at hrec
      cases hrec
    have hd := Pool.Sound.drain hh.conns
    rw [hnone] at hd
    exact hd.eq_nil
  · have hnone : h.worker.unreturned = [] := by
      refine List.eq_nil_iff_forall_not_mem.mpr fun k hk => ?_
      obtain ⟨hlt, hf⟩ := Worker.mem_unreturned.mp hk
      have hcl := (hh.census.main k hlt hf).2.1
      rw [(hh.census.gone hh.life hz _).2.closed] at hcl
      cases hcl
    have hd := Pool.Sound.drain hh.coros
    rw [hnone] at hd
    exact hd.eq_nil

/-- Every run of a worker is one of a worker with its memory: there is always a
block that the allocator has not given out. -/
theorem housed_of_run {s w : Worker} (hr : Reach Worker.step (fun _ _ => true) s w) :
    ∃ h, Reach (step idleConnections idleStacks) fits (start s) h ∧ h.worker = w := by
  induction hr with
  | start => exact ⟨start s, .start, rfl⟩
  | @next w₁ w₂ a _ _ hs ih =>
    obtain ⟨h, hr, rfl⟩ := ih
    obtain ⟨conn, hc⟩ := Infinite.exists_notMem_finset h.conns.pool.heap.toFinset
    obtain ⟨stack, hk⟩ := Infinite.exists_notMem_finset h.coros.pool.heap.toFinset
    refine ⟨_, hr.next (a := ⟨a, conn, stack⟩) ?_ (Option.map_eq_some_iff.mpr ⟨w₂, hs, rfl⟩), rfl⟩
    rw [List.mem_toFinset] at hc hk
    exact decide_eq_true ⟨hc, hk⟩

/-- Whatever the allocator gives out and however small the pools are, in every
state of every run of a worker an address is of one thing at a time; and no run
of a worker is left out. -/
theorem homes_apart (idleConnections idleStacks bufCount fileSlots : Nat) (certs : List Bool)
    (pr : Pipereader) (slab : Nat → Mem Byte) :
    (∀ h, Reach (step idleConnections idleStacks) fits
      (start (Worker.start bufCount fileSlots certs pr slab)) h →
        Homes idleConnections idleStacks h) ∧
    ∀ w, Reach Worker.step (fun _ _ => true) (Worker.start bufCount fileSlots certs pr slab) w →
      ∃ h, Reach (step idleConnections idleStacks) fits
        (start (Worker.start bufCount fileSlots certs pr slab)) h ∧ h.worker = w := by
  refine ⟨fun h hr => homes_of_housing ?_, fun w hr => housed_of_run hr⟩
  exact hr.invariant (start_housing ..) fun _ _ _ hh hf hs => step_housing hh hf hs

/-- One connection is served and closed and a second one is accepted, with an
allocator that always has another block. -/
def servedTwice : List Move :=
  let acts : List Worker.Act := Worker.woken ++ [.go, .co .finish] ++ Worker.turns 6 ++
    [.accept 0 4 true] ++ Worker.turns 5
  acts.mapIdx fun i a => ⟨a, 100 + i, 200 + i⟩

/-- The second connection is where the first one was. -/
theorem homes_apart_again : ∃ h, Reach (step 1 1) fits (start Worker.oneListener) h ∧
    h.worker.alive = [1] ∧ h.conns.home 1 = h.conns.home 0 ∧ Homes 1 1 h := by
  have h : (perform (step 1 1) fits (start Worker.oneListener) servedTwice).map
      (fun h => (h.worker.alive, h.conns.home 0, h.conns.home 1)) = some ([1], 107, 107) := by
    decide
  obtain ⟨h', hw, hb⟩ := Option.map_eq_some_iff.mp h
  simp only [Prod.mk.injEq] at hb
  have hr := Reach.start.perform hw
  exact ⟨h', hr, hb.1, hb.2.2.trans hb.2.1.symm, (homes_apart ..).1 h' hr⟩

end Housed

end Ioxd.Io
