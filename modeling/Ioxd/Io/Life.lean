import Ioxd.Io.WorkerLaws

/-!
# The life of a connection

A connection is held by its handler and by its recv. What a handler of the
worker still owes after the wake in its middle is a task, and a task that drops
the recv's reference holds the connection too. `Held` ties the references of
one connection to these, and its recv to where its last completion is: with the
kernel, in the queue, or with what handles it. A function of the worker may have
a task in hand before it is left to do. `Life` adds what ties connections to
coroutines, and every move of the worker and of the kernel keeps it.
-/

namespace Ioxd.Io

open Flat Ioxd.Pipe Runs

-- ---------------------------------------------------------------------------
-- What holds a connection
-- ---------------------------------------------------------------------------

def Await.on : Await → Option Nat
  | .item c => some c
  | .pause c => some c
  | .op => none
  | .setopt c => some c

/-- The await a coroutine is parked in, or was resumed in and is not out of. -/
def CoState.await : CoState → Option Await
  | .parked a => some a
  | .running a => a
  | _ => none

def CoState.inOp : CoState → Bool
  | .parked .op => true
  | .parked (.setopt _) => true
  | _ => false

/-- The connection that a task is about. -/
def Task.conn : Task → Option Nat
  | .unref c => some c
  | .tail c _ => some c
  | .drain => none

def Cqe.of (c : Nat) : Cqe → Bool
  | .recv d _ _ _ => d == c
  | _ => false

/-- The last completion of this connection's recv. -/
def Cqe.last (c : Nat) : Cqe → Bool
  | .recv d _ more _ => d == c && !more
  | _ => false

namespace Worker

def opening (w : Worker) (c : Nat) : Prop :=
  (w.coros (w.conns c).owner).state.await = some (.setopt c)

instance (w : Worker) (c : Nat) : Decidable (w.opening c) := inferInstanceAs (Decidable (_ = _))

def lasts (w : Worker) (hand : List Task) (c : Nat) : Nat :=
  (if (w.conns c).armed then 1 else 0) + w.cq.countP (Cqe.last c) +
    (hand ++ w.tasks).count (.tail c false) + if w.opening c then 1 else 0

end Worker

structure Held (w : Worker) (hand : List Task) (c : Nat) : Prop where
  refs : (w.conns c).refs = (if (w.conns c).closed then 0 else 1) +
    (if (w.conns c).recv = .done then 0 else 1) + ((hand ++ w.tasks).count (.unref c) : Nat)
  recycled : (w.conns c).recycled = if c < w.nextConn ∧ (w.conns c).refs = 0 then 1 else 0
  fresh : w.nextConn ≤ c → (w.conns c).refs = 0
  starved : w.starved.count c = if (w.conns c).recv = .starved then 1 else 0
  lasts : w.lasts hand c = if (w.conns c).recv = .armed then 1 else 0
  seen : ∀ x ∈ w.cq, x.of c = true → (w.conns c).recv = .armed
  tail : ∀ more, .tail c more ∈ hand ++ w.tasks → (w.conns c).recv = .armed
  behind : .tail c false ∈ hand ++ w.tasks → ∀ x ∈ w.cq, x.of c = false
  single : (hand ++ w.tasks).count (.tail c true) + (hand ++ w.tasks).count (.tail c false) ≤ 1
  opened : w.opening c →
    (∀ x ∈ w.cq, x.of c = false) ∧ ∀ more, .tail c more ∉ hand ++ w.tasks
  waiter : ∀ k, (w.conns c).waiter = some k →
    (w.coros k).state = .parked (.item c) ∨ (w.coros k).state = .parked (.pause c)

structure Sits (w : Worker) (k : Nat) : Prop where
  on : ∀ a c, (w.coros k).state.await = some a → a.on = some c →
    (w.conns c).owner = k ∧ (w.conns c).closed = false ∧ c < w.nextConn
  ops : w.ops.count k + w.cq.count (.op k) = if (w.coros k).state.inOp then 1 else 0
  ready : w.ready.count k = if (w.coros k).state = .ready then 1 else 0
  running : ∀ a, (w.coros k).state = .running a → w.running = some k
  fresh : w.nextCoro ≤ k → (w.coros k).state = .finished

structure Life (w : Worker) (hand : List Task) : Prop where
  conn : ∀ c, Held w hand c
  coro : ∀ k, Sits w k
  order : w.cq.Pairwise fun x y => ∀ c, x.last c = true → y.of c = false
  more : ∀ c result buf, .recv c result true buf ∈ w.cq → 0 < result

variable {w w' w'' : Worker} {hand hand' : List Task} {c k : Nat}

-- ---------------------------------------------------------------------------
-- Changes
-- ---------------------------------------------------------------------------

/-- Nothing has changed that the life of a connection hangs on. -/
structure Alike (w w' : Worker) : Prop where
  conn : ∀ c, (w'.conns c).recv = (w.conns c).recv ∧ (w'.conns c).refs = (w.conns c).refs ∧
    (w'.conns c).closed = (w.conns c).closed ∧ (w'.conns c).owner = (w.conns c).owner ∧
    (w'.conns c).armed = (w.conns c).armed ∧ (w'.conns c).recycled = (w.conns c).recycled ∧
    (w'.conns c).waiter = (w.conns c).waiter
  nextConn : w'.nextConn = w.nextConn
  coros : w'.coros = w.coros
  nextCoro : w'.nextCoro = w.nextCoro
  ready : w'.ready = w.ready
  starved : w'.starved = w.starved
  cq : w'.cq = w.cq
  ops : w'.ops = w.ops
  running : w'.running = w.running
  tasks : w'.tasks = w.tasks

theorem Alike.refl (w : Worker) : Alike w w :=
  ⟨fun _ => ⟨rfl, rfl, rfl, rfl, rfl, rfl, rfl⟩, rfl, rfl, rfl, rfl, rfl, rfl, rfl, rfl, rfl⟩

theorem Alike.trans (h : Alike w w') (h' : Alike w' w'') : Alike w w'' where
  conn c := by
    obtain ⟨h1, h2, h3, h4, h5, h6, h7⟩ := h.conn c
    obtain ⟨h1', h2', h3', h4', h5', h6', h7'⟩ := h'.conn c
    exact ⟨h1'.trans h1, h2'.trans h2, h3'.trans h3, h4'.trans h4, h5'.trans h5, h6'.trans h6,
      h7'.trans h7⟩
  nextConn := h'.nextConn.trans h.nextConn
  coros := h'.coros.trans h.coros
  nextCoro := h'.nextCoro.trans h.nextCoro
  ready := h'.ready.trans h.ready
  starved := h'.starved.trans h.starved
  cq := h'.cq.trans h.cq
  ops := h'.ops.trans h.ops
  running := h'.running.trans h.running
  tasks := h'.tasks.trans h.tasks

theorem Life.alike (h : Life w hand) (ha : Alike w w') : Life w' hand where
  conn c := by
    obtain ⟨h1, h2, h3, h4, h5, h6, h7⟩ := ha.conn c
    have hc := h.conn c
    have ho : w'.opening c ↔ w.opening c := by
      unfold Worker.opening
      rw [ha.coros, h4]
    refine ⟨?_, ?_, ?_, ?_, ?_, ?_, ?_, ?_, ?_, ?_, ?_⟩
    · rw [h1, h2, h3, ha.tasks]
      exact hc.refs
    · rw [h2, h6, ha.nextConn]
      exact hc.recycled
    · rw [h2, ha.nextConn]
      exact hc.fresh
    · rw [h1, ha.starved]
      exact hc.starved
    · have hl := hc.lasts
      simp only [Worker.lasts, h1, h5, ha.cq, ha.tasks, ho] at hl ⊢
      exact hl
    · rw [h1, ha.cq]
      exact hc.seen
    · rw [h1, ha.tasks]
      exact hc.tail
    · rw [ha.cq, ha.tasks]
      exact hc.behind
    · rw [ha.tasks]
      exact hc.single
    · rw [ho, ha.cq, ha.tasks]
      exact hc.opened
    · rw [h7, ha.coros]
      exact hc.waiter
  coro k := by
    have hk := h.coro k
    refine ⟨?_, ?_, ?_, ?_, ?_⟩
    · intro a c
      rw [ha.coros, ha.nextConn, (ha.conn c).2.2.1, (ha.conn c).2.2.2.1]
      exact hk.on a c
    · rw [ha.ops, ha.cq, ha.coros]
      exact hk.ops
    · rw [ha.ready, ha.coros]
      exact hk.ready
    · rw [ha.coros, ha.running]
      exact hk.running
    · rw [ha.nextCoro, ha.coros]
      exact hk.fresh
  order := ha.cq ▸ h.order
  more := ha.cq ▸ h.more

/-- One connection has changed, with the list of those that starve and the
tasks about it. -/
structure Apart (c : Nat) (w : Worker) (hand : List Task) (w' : Worker) (hand' : List Task) :
    Prop where
  conn : ∀ d, d ≠ c → w'.conns d = w.conns d
  owner : (w'.conns c).owner = (w.conns c).owner
  starved : ∀ d, d ≠ c → w'.starved.count d = w.starved.count d
  tasks : ∀ t, t.conn ≠ some c → (hand' ++ w'.tasks).count t = (hand ++ w.tasks).count t
  nextConn : w'.nextConn = w.nextConn
  coros : w'.coros = w.coros
  nextCoro : w'.nextCoro = w.nextCoro
  ready : w'.ready = w.ready
  cq : w'.cq = w.cq
  ops : w'.ops = w.ops
  running : w'.running = w.running

theorem Life.apart (h : Life w hand) (ha : Apart c w hand w' hand')
    (hc : Held w' hand' c)
    (hcl : (w'.conns c).closed = true → (w.conns c).closed = true ∨
      ∀ k a, (w.coros k).state.await = some a → a.on ≠ some c) : Life w' hand' where
  conn d := by
    by_cases hd : d = c
    · exact hd ▸ hc
    have hw := h.conn d
    have e := ha.conn d hd
    have ho : w'.opening d ↔ w.opening d := by
      unfold Worker.opening
      rw [ha.coros, e]
    have hunref : (hand' ++ w'.tasks).count (.unref d) = (hand ++ w.tasks).count (.unref d) :=
      ha.tasks _ (by simpa [Task.conn] using hd)
    have htail (more : Bool) :
        (hand' ++ w'.tasks).count (.tail d more) = (hand ++ w.tasks).count (.tail d more) :=
      ha.tasks _ (by simpa [Task.conn] using hd)
    have hmem {more : Bool} (hm : .tail d more ∈ hand' ++ w'.tasks) :
        .tail d more ∈ hand ++ w.tasks := by
      rw [← List.count_pos_iff] at hm ⊢
      rwa [← htail more]
    refine ⟨?_, ?_, ?_, ?_, ?_, ?_, ?_, ?_, ?_, ?_, ?_⟩
    · rw [e, hunref]
      exact hw.refs
    · rw [e, ha.nextConn]
      exact hw.recycled
    · rw [e, ha.nextConn]
      exact hw.fresh
    · rw [e, ha.starved d hd]
      exact hw.starved
    · have hl := hw.lasts
      simp only [Worker.lasts, e, ha.cq, htail, ho] at hl ⊢
      exact hl
    · rw [e, ha.cq]
      exact hw.seen
    · intro more hm
      rw [e]
      exact hw.tail more (hmem hm)
    · intro hm
      rw [ha.cq]
      exact hw.behind (hmem hm)
    · rw [htail, htail]
      exact hw.single
    · intro hop
      rw [ha.cq]
      obtain ⟨h1, h2⟩ := hw.opened (ho.mp hop)
      exact ⟨h1, fun more hm => h2 more (hmem hm)⟩
    · rw [e, ha.coros]
      exact hw.waiter
  coro k := by
    have hk := h.coro k
    refine ⟨?_, ?_, ?_, ?_, ?_⟩
    · intro a d hst hon
      rw [ha.coros] at hst
      obtain ⟨h1, h2, h3⟩ := hk.on a d hst hon
      rw [ha.nextConn]
      by_cases hd : d = c
      · subst hd
        refine ⟨ha.owner.trans h1, ?_, h3⟩
        by_contra hx
        rcases hcl (by simpa using hx) with hx | hx
        · exact absurd (h2.symm.trans hx) nofun
        · exact hx k a hst hon
      · rw [ha.conn d hd]
        exact ⟨h1, h2, h3⟩
    · rw [ha.ops, ha.cq, ha.coros]
      exact hk.ops
    · rw [ha.ready, ha.coros]
      exact hk.ready
    · rw [ha.coros, ha.running]
      exact hk.running
    · rw [ha.nextCoro, ha.coros]
      exact hk.fresh
  order := ha.cq ▸ h.order
  more := ha.cq ▸ h.more

-- ---------------------------------------------------------------------------
-- The recv
-- ---------------------------------------------------------------------------

/-- One connection is `x` now, and the parked ones are `starved`. -/
structure Turned (c : Nat) (x : Conn) (starved : List Nat) (w w' : Worker) : Prop where
  conns : w'.conns = Function.update w.conns c x
  starved : w'.starved = starved
  nextConn : w'.nextConn = w.nextConn
  coros : w'.coros = w.coros
  nextCoro : w'.nextCoro = w.nextCoro
  ready : w'.ready = w.ready
  cq : w'.cq = w.cq
  ops : w'.ops = w.ops
  running : w'.running = w.running
  tasks : w'.tasks = w.tasks

/-- With the last completion of a recv in hand, there is no other. -/
structure AtLast (w : Worker) (hand : List Task) (c : Nat) : Prop where
  recv : (w.conns c).recv = .armed
  armed : (w.conns c).armed = false
  cq : ∀ x ∈ w.cq, x.of c = false
  lasts : w.cq.countP (Cqe.last c) = 0
  opening : ¬ w.opening c
  tasks : ∀ more, .tail c more ∉ hand ++ w.tasks

theorem Life.atLast (h : Life w (.tail c false :: hand)) : AtLast w hand c := by
  have hc := h.conn c
  have hr := hc.tail false (by simp)
  have hl := hc.lasts
  have hs := hc.single
  rw [List.cons_append, List.count_cons_self, List.count_cons_of_ne (by simp)] at hs
  rw [Worker.lasts, List.cons_append, List.count_cons_self, if_pos hr] at hl
  refine ⟨hr, ?_, hc.behind (by simp), by omega, fun ho => ?_, fun more hm => ?_⟩
  · by_contra hx
    rw [if_pos (by simpa using hx)] at hl
    omega
  · rw [if_pos ho] at hl
    omega
  · have := List.count_pos_iff.mpr hm
    cases more with
    | false => omega
    | true => omega

theorem AtLast.count (h : AtLast w hand c) (more : Bool) :
    (hand ++ w.tasks).count (.tail c more) = 0 :=
  List.count_eq_zero_of_not_mem (h.tasks more)

theorem Held.idle (h : Held w hand c) (hr : (w.conns c).recv ≠ .armed) :
    (∀ x ∈ w.cq, x.of c = false) ∧ ∀ more, .tail c more ∉ hand ++ w.tasks := by
  refine ⟨fun x hx => ?_, fun more hm => hr (h.tail more hm)⟩
  by_contra hne
  exact hr (h.seen x hx (by simpa using hne))

/-- A connection that is held before and after: its references, its place among
the parked ones and its last completion are what is left to show. `l` are the
tasks about it that were in hand, `l'` those that are. -/
theorem Life.turned (l l' : List Task) {x : Conn} {s : List Nat} (h : Life w (l ++ hand))
    (ht : Turned c x s w w') (hl : ∀ t ∈ l, t.conn = some c)
    (hl' : ∀ t ∈ l', t = .unref c)
    (hkeep : x.waiter = (w.conns c).waiter ∧ x.recycled = (w.conns c).recycled ∧
      x.owner = (w.conns c).owner)
    (hlive : (w.conns c).refs ≠ 0) (hlive' : x.refs ≠ 0)
    (hrefs : x.refs = (if x.closed then 0 else 1) + (if x.recv = .done then 0 else 1) +
      ((l' ++ hand ++ w.tasks).count (.unref c) : Nat))
    (hst : s.count c = if x.recv = .starved then 1 else 0)
    (hother : ∀ d, d ≠ c → s.count d = w.starved.count d)
    (hlasts : (if x.armed then 1 else 0) + w.cq.countP (Cqe.last c) +
      (hand ++ w.tasks).count (.tail c false) + (if w.opening c then 1 else 0) =
        if x.recv = .armed then 1 else 0)
    (hrecv : x.recv ≠ .armed → (w.conns c).recv ≠ .armed ∨ AtLast w hand c)
    (hcl : x.closed = true → (w.conns c).closed = true ∨
      ∀ k a, (w.coros k).state.await = some a → a.on ≠ some c) : Life w' (l' ++ hand) := by
  have hself : w'.conns c = x := by rw [ht.conns, Function.update_self]
  have hw := h.conn c
  have htail (more : Bool) (hm : .tail c more ∈ l' ++ hand ++ w'.tasks) :
      .tail c more ∈ hand ++ w.tasks := by
    rw [ht.tasks, List.append_assoc, List.mem_append] at hm
    exact hm.resolve_left fun hx => absurd (hl' _ hx) nofun
  have hzero (more : Bool) : l'.count (.tail c more) = 0 :=
    List.count_eq_zero_of_not_mem fun hx => absurd (hl' _ hx) nofun
  have hup (t : Task) (hm : t ∈ hand ++ w.tasks) : t ∈ l ++ hand ++ w.tasks := by
    rw [List.append_assoc]
    exact List.mem_append_right _ hm
  have hidle (hx : x.recv ≠ .armed) :
      (∀ x ∈ w.cq, x.of c = false) ∧ ∀ more, .tail c more ∉ hand ++ w.tasks := by
    rcases hrecv hx with hx | hx
    · exact ⟨(hw.idle hx).1, fun more hm => (hw.idle hx).2 more (hup _ hm)⟩
    · exact ⟨hx.cq, hx.tasks⟩
  have ho : w'.opening c ↔ w.opening c := by
    unfold Worker.opening
    rw [hself, ht.coros, hkeep.2.2]
  refine h.apart (c := c) ⟨fun d hd => ?_, ?_, fun d hd => ?_, fun t hn => ?_, ht.nextConn,
    ht.coros, ht.nextCoro, ht.ready, ht.cq, ht.ops, ht.running⟩
    ⟨?_, ?_, fun hn => ?_, ?_, ?_, fun y hy hof => ?_, fun more hm => ?_, fun hm => ?_, ?_,
      fun hop => ?_, ?_⟩ ?_
  · rw [ht.conns, Function.update_of_ne hd]
  · rw [hself]
    exact hkeep.2.2
  · rw [ht.starved]
    exact hother d hd
  · have h1 : l.count t = 0 := List.count_eq_zero_of_not_mem fun hm => hn (hl t hm)
    have h2 : l'.count t = 0 := List.count_eq_zero_of_not_mem fun hm => hn (hl' t hm ▸ rfl)
    rw [ht.tasks]
    simp only [List.count_append, h1, h2]
  · rw [hself, ht.tasks]
    exact hrefs
  · rw [hself, hkeep.2.1, hw.recycled, if_neg fun hx => hlive hx.2, if_neg fun hx => hlive' hx.2]
  · exact absurd (hw.fresh (ht.nextConn ▸ hn)) hlive
  · rw [ht.starved, hself]
    exact hst
  · rw [← hself] at hlasts
    simp only [Worker.lasts, ht.cq, ht.tasks, ho, List.append_assoc, List.count_append, hzero]
      at hlasts ⊢
    omega
  · by_contra hne
    rw [hself] at hne
    exact absurd (hof.symm.trans ((hidle hne).1 y (ht.cq ▸ hy))) nofun
  · by_contra hne
    rw [hself] at hne
    exact (hidle hne).2 more (htail more hm)
  · rw [ht.cq]
    exact hw.behind (hup _ (htail false hm))
  · have := hw.single
    rw [ht.tasks]
    simp only [List.append_assoc, List.count_append, hzero] at this ⊢
    omega
  · obtain ⟨h1, h2⟩ := hw.opened (ho.mp hop)
    exact ⟨ht.cq ▸ h1, fun more hm => h2 more (hup _ (htail more hm))⟩
  · rw [hself, hkeep.1, ht.coros]
    exact hw.waiter
  · rw [hself]
    exact hcl

theorem setConn_self (c : Nat) (f : Conn → Conn) : (w.setConn c f).conns c = f (w.conns c) :=
  Function.update_self ..

theorem setConn_other {d : Nat} {f : Conn → Conn} (hd : d ≠ c) :
    (w.setConn c f).conns d = w.conns d := Function.update_of_ne hd _ _

theorem setConn_turned (c : Nat) (f : Conn → Conn) :
    Turned c (f (w.conns c)) w.starved w (w.setConn c f) :=
  ⟨rfl, rfl, rfl, rfl, rfl, rfl, rfl, rfl, rfl, rfl⟩

structure Conn.Steady (x x' : Conn) : Prop where
  waiter : x'.waiter = x.waiter
  closed : x'.closed = x.closed
  refs : x'.refs = x.refs
  recycled : x'.recycled = x.recycled
  owner : x'.owner = x.owner

theorem Conn.Steady.keeps {x x' : Conn} (h : x.Steady x') :
    x'.waiter = x.waiter ∧ x'.recycled = x.recycled ∧ x'.owner = x.owner :=
  ⟨h.waiter, h.recycled, h.owner⟩

theorem endInput_steady (x : Conn) (err : Int) (r : RecvState) :
    x.Steady { Conn.endInput x err with recv := r } ∧
      (Conn.endInput x err).armed = x.armed := by
  unfold Conn.endInput
  split
  · exact ⟨⟨rfl, rfl, rfl, rfl, rfl⟩, rfl⟩
  · exact ⟨⟨rfl, rfl, rfl, rfl, rfl⟩, rfl⟩

@[simp] theorem count_unref_tail (c d : Nat) (more : Bool) (l : List Task) :
    (.tail d more :: l).count (.unref c) = l.count (.unref c) := List.count_cons_of_ne (by simp)

theorem Life.refs_tail (h : Life w (.tail c false :: hand)) : (w.conns c).refs =
    (if (w.conns c).closed then 0 else 1) + 1 + ((hand ++ w.tasks).count (.unref c) : Nat) := by
  have hr := (h.conn c).refs
  rw [List.cons_append, count_unref_tail, h.atLast.recv] at hr
  exact hr

theorem Life.live_tail (h : Life w (.tail c false :: hand)) : (w.conns c).refs ≠ 0 := by
  have := h.refs_tail
  split at this <;> omega

theorem AtLast.starved (h : AtLast w hand c) (hc : Held w hand' c) : w.starved.count c = 0 := by
  rw [hc.starved, h.recv]
  rfl

theorem Life.done {f : Conn → Conn} (h : Life w (.tail c false :: hand))
    (hf : (w.conns c).Steady (f (w.conns c))) (hr : (f (w.conns c)).recv = .done)
    (ha : (f (w.conns c)).armed = (w.conns c).armed) :
    Life (w.setConn c f) (.unref c :: hand) := by
  have hl := h.atLast
  refine Life.turned [.tail c false] [.unref c] h (setConn_turned c f)
    (by simp [Task.conn]) (by simp) hf.keeps h.live_tail (hf.refs ▸ h.live_tail) ?_ ?_
    (fun _ _ => rfl) ?_ (fun _ => .inr hl) fun hx => .inl (hf.closed ▸ hx)
  · rw [hf.refs, hf.closed, hr, h.refs_tail, if_pos rfl, List.append_assoc, List.singleton_append,
      List.count_cons_self]
    omega
  · rw [hr, hl.starved (h.conn c)]
    rfl
  · rw [ha, hr, hl.armed, hl.lasts, hl.count, if_neg hl.opening]
    rfl

theorem Life.stopped {f : Conn → Conn} (h : Life w (.tail c false :: hand))
    (hf : (w.conns c).Steady (f (w.conns c))) (hr : (f (w.conns c)).recv = .paused)
    (ha : (f (w.conns c)).armed = (w.conns c).armed) : Life (w.setConn c f) hand := by
  have hl := h.atLast
  refine Life.turned [.tail c false] [] h (setConn_turned c f)
    (by simp [Task.conn]) nofun hf.keeps h.live_tail (hf.refs ▸ h.live_tail) ?_ ?_
    (fun _ _ => rfl) ?_ (fun _ => .inr hl) fun hx => .inl (hf.closed ▸ hx)
  · rw [hf.refs, hf.closed, hr, h.refs_tail]
    rfl
  · rw [hr, hl.starved (h.conn c)]
    rfl
  · rw [ha, hr, hl.armed, hl.lasts, hl.count, if_neg hl.opening]
    rfl

theorem Life.parked (h : Life w (.tail c false :: hand)) :
    Life ((w.setRecv c .starved).starvedPush c) hand := by
  have hl := h.atLast
  refine Life.turned [.tail c false] [] (x := { w.conns c with recv := .starved })
    (s := w.starved ++ [c]) h ⟨rfl, rfl, rfl, rfl, rfl, rfl, rfl, rfl, rfl, rfl⟩
    (by simp [Task.conn]) nofun ⟨rfl, rfl, rfl⟩ h.live_tail h.live_tail h.refs_tail ?_
    (fun d hd => ?_) ?_ (fun _ => .inr hl) .inl
  · rw [List.count_append, hl.starved (h.conn c), List.count_singleton_self]
    rfl
  · rw [List.count_append, List.count_singleton, if_neg (by simpa using Ne.symm hd), Nat.add_zero]
  · rw [hl.armed, hl.lasts, hl.count, if_neg hl.opening]
    rfl

theorem Life.rearmed (h : Life w (.tail c false :: hand)) : Life (w.armRecv c) hand := by
  have hl := h.atLast
  refine Life.turned [.tail c false] [] (s := w.starved)
    (x := { w.conns c with recv := .armed, cancelling := false, armed := true }) h
    ⟨rfl, rfl, rfl, rfl, rfl, rfl, rfl, rfl, rfl, rfl⟩
    (by simp [Task.conn]) nofun ⟨rfl, rfl, rfl⟩ h.live_tail h.live_tail h.refs_tail ?_
    (fun _ _ => rfl) ?_ (fun hx => absurd rfl hx) .inl
  · rw [hl.starved (h.conn c)]
    rfl
  · rw [hl.lasts, hl.count, if_neg hl.opening]
    rfl

/-- A recv that is not armed: nothing of it is with the kernel or in the queue. -/
theorem Held.unarmed (h : Held w hand c) (hr : (w.conns c).recv ≠ .armed) :
    (w.conns c).armed = false ∧ w.cq.countP (Cqe.last c) = 0 ∧
      (hand ++ w.tasks).count (.tail c false) = 0 ∧ ¬ w.opening c := by
  have hl := h.lasts
  rw [Worker.lasts, if_neg hr] at hl
  refine ⟨?_, by omega, by omega, fun ho => ?_⟩
  · by_contra hx
    rw [if_pos (by simpa using hx)] at hl
    omega
  · rw [if_pos ho] at hl
    omega

/-- A parked or paused recv of a connection changes to what is not armed
either, and its reference is kept, dropped or owed. -/
theorem Life.unpark (l l' : List Task) {x : Conn} {s : List Nat} (h : Life w (l ++ hand))
    (ht : Turned c x s w w') (hl : ∀ t ∈ l, t = .unref c) (hl' : ∀ t ∈ l', t = .unref c)
    (hr : (w.conns c).recv ≠ .armed) (hr' : x.recv = .done ∨ x.recv = .paused)
    (hkeep : x.waiter = (w.conns c).waiter ∧ x.recycled = (w.conns c).recycled ∧
      x.owner = (w.conns c).owner) (ha : x.armed = (w.conns c).armed)
    (hcl : x.closed = (w.conns c).closed) (hlive : (w.conns c).refs ≠ 0) (hlive' : x.refs ≠ 0)
    (hrefs : x.refs + (if (w.conns c).recv = .done then 0 else 1) + l.length =
      (w.conns c).refs + (if x.recv = .done then 0 else 1) + l'.length)
    (hst : s.count c = 0) (hother : ∀ d, d ≠ c → s.count d = w.starved.count d) :
    Life w' (l' ++ hand) := by
  have hc := h.conn c
  obtain ⟨h1, h2, h3, h4⟩ := hc.unarmed hr
  have hcount (l : List Task) (hl : ∀ t ∈ l, t = .unref c) :
      (l ++ hand ++ w.tasks).count (.unref c) =
        l.length + (hand ++ w.tasks).count (.unref c) := by
    rw [List.append_assoc, List.count_append, List.count_eq_length.mpr fun t ht => (hl t ht).symm]
  have hne : x.recv ≠ .armed ∧ x.recv ≠ .starved := by
    rcases hr' with hr' | hr' <;> rw [hr'] <;> exact ⟨nofun, nofun⟩
  refine h.turned l l' ht (fun t hm => hl t hm ▸ rfl) hl' hkeep hlive hlive' ?_ ?_ hother ?_
    (fun _ => .inl hr) fun hx => .inl (hcl ▸ hx)
  · have hcr := hc.refs
    rw [hcount l hl] at hcr
    rw [hcount l' hl', hcl]
    omega
  · rw [hst, if_neg hne.2]
  · rw [List.append_assoc, List.count_append] at h3
    rw [ha, h1, h2, if_neg h4, if_neg hne.1]
    simp only [Bool.false_eq_true, if_false]
    omega

theorem Held.live (h : Held w hand c) (hr : (w.conns c).recv ≠ .done) : (w.conns c).refs ≠ 0 := by
  have := h.refs
  rw [if_neg hr] at this
  split at this <;> omega

theorem Held.erased (h : Held w hand c) : (w.starved.erase c).count c = 0 := by
  rw [List.count_erase_self, h.starved]
  split <;> rfl

theorem count_erase_other (d : Nat) (hd : d ≠ c) :
    (w.starved.erase c).count d = w.starved.count d :=
  List.count_erase_of_ne hd

namespace Worker

theorem connUnref_life (h : Life w (.unref c :: hand)) : Life (w.connUnref c) hand := by
  have hc := h.conn c
  have hcr := hc.refs
  rw [List.cons_append, List.count_cons_self] at hcr
  have hpos : 0 < (w.conns c).refs := by split at hcr <;> split at hcr <;> omega
  have hlt : c < w.nextConn := by
    by_contra hge
    have := hc.fresh (by omega)
    omega
  have hrec : (w.conns c).recycled = 0 := by
    rw [hc.recycled, if_neg fun hx => by omega]
  obtain ⟨n, hn, x, hx, hw⟩ : ∃ n : Nat, (n = if (w.conns c).refs = 1 then 1 else 0) ∧
      ∃ x, x = { w.conns c with refs := (w.conns c).refs - 1, recycled := n } ∧
        Turned c x w.starved w (w.connUnref c) := by
    unfold connUnref
    by_cases h1 : (w.conns c).refs = 1
    · refine ⟨1, by rw [if_pos h1], _, rfl, ?_⟩
      rw [if_neg (by simp [setConn, h1])]
      refine ⟨?_, rfl, rfl, rfl, rfl, rfl, rfl, rfl, rfl, rfl⟩
      simp [setConn, hrec]
    · refine ⟨0, by rw [if_neg h1], _, rfl, ?_⟩
      rw [if_pos (by simp [setConn]; omega)]
      refine ⟨?_, rfl, rfl, rfl, rfl, rfl, rfl, rfl, rfl, rfl⟩
      simp [setConn, ← hrec]
  have hself : (w.connUnref c).conns c = x := by rw [hw.conns, Function.update_self]
  have ho : (w.connUnref c).opening c ↔ w.opening c := by
    unfold opening
    rw [hself, hw.coros, hx]
  have htail (more : Bool) : (hand ++ w.tasks).count (.tail c more) =
      (.unref c :: hand ++ w.tasks).count (.tail c more) := by
    rw [List.cons_append, List.count_cons_of_ne (by simp)]
  have hmem {more : Bool} (hm : .tail c more ∈ hand ++ w.tasks) :
      .tail c more ∈ .unref c :: hand ++ w.tasks := List.mem_cons_of_mem _ hm
  refine h.apart (c := c) ⟨fun d hd => ?_, ?_, fun d hd => ?_, fun t ht => ?_, hw.nextConn,
    hw.coros, hw.nextCoro, hw.ready, hw.cq, hw.ops, hw.running⟩
    ⟨?_, ?_, fun hge => ?_, ?_, ?_, ?_, fun more hm => ?_, fun hm => ?_, ?_, fun hop => ?_, ?_⟩ ?_
  · rw [hw.conns, Function.update_of_ne hd]
  · rw [hself, hx]
  · rw [hw.starved]
  · rw [hw.tasks, List.cons_append, List.count_cons_of_ne (by rintro rfl; exact ht rfl)]
  · rw [hself, hx, hw.tasks]
    dsimp only
    omega
  · rw [hself, hx, hn, hw.nextConn]
    dsimp only
    by_cases h1 : (w.conns c).refs = 1
    · rw [if_pos h1, if_pos ⟨hlt, by omega⟩]
    · rw [if_neg h1, if_neg fun hx => h1 (by omega)]
  · have hge : w.nextConn ≤ c := hw.nextConn ▸ hge
    omega
  · rw [hw.starved, hself, hx]
    exact hc.starved
  · have hl := hc.lasts
    simp only [lasts, hself, hw.cq, hw.tasks, ho, htail, hx] at hl ⊢
    exact hl
  · rw [hself, hx, hw.cq]
    exact hc.seen
  · rw [hself, hx]
    exact hc.tail more (hmem (hw.tasks ▸ hm))
  · rw [hw.cq]
    exact hc.behind (hmem (hw.tasks ▸ hm))
  · rw [hw.tasks, htail, htail]
    exact hc.single
  · obtain ⟨h1, h2⟩ := hc.opened (ho.mp hop)
    rw [hw.cq, hw.tasks]
    exact ⟨h1, fun more hm => h2 more (hmem hm)⟩
  · rw [hself, hx, hw.coros]
    exact hc.waiter
  · rw [hself, hx]
    exact .inl

end Worker

-- ---------------------------------------------------------------------------
-- The coroutines
-- ---------------------------------------------------------------------------

theorem Life.waited (h : Life w hand) (c : Nat) {v : Option Nat}
    (hv : ∀ k, v = some k →
      (w.coros k).state = .parked (.item c) ∨ (w.coros k).state = .parked (.pause c)) :
    Life (w.setConn c ({ · with waiter := v })) hand := by
  have hc := h.conn c
  have hself : (w.setConn c ({ · with waiter := v })).conns c = { w.conns c with waiter := v } :=
    Function.update_self ..
  refine h.apart (c := c) ⟨fun d hd => Function.update_of_ne hd _ _, by rw [hself],
    fun _ _ => rfl, fun _ _ => rfl, rfl, rfl, rfl, rfl, rfl, rfl, rfl⟩
    ⟨?_, ?_, ?_, ?_, ?_, ?_, ?_, ?_, ?_, ?_, ?_⟩ ?_
  · rw [hself]
    exact hc.refs
  · rw [hself]
    exact hc.recycled
  · rw [hself]
    exact hc.fresh
  · rw [hself]
    exact hc.starved
  · have hl := hc.lasts
    simp only [Worker.lasts, Worker.opening, hself] at hl ⊢
    exact hl
  · rw [hself]
    exact hc.seen
  · rw [hself]
    exact hc.tail
  · exact hc.behind
  · exact hc.single
  · unfold Worker.opening
    rw [hself]
    exact hc.opened
  · rw [hself]
    exact hv
  · rw [hself]
    exact .inl

/-- One coroutine is at `st` now, maybe by the completion of its operation. -/
structure Seated (k : Nat) (st : CoState) (w w' : Worker) : Prop where
  state : (w'.coros k).state = st
  other : ∀ k', k' ≠ k → w'.coros k' = w.coros k'
  conns : w'.conns = w.conns
  nextConn : w'.nextConn = w.nextConn
  nextCoro : w.nextCoro ≤ w'.nextCoro
  starved : w'.starved = w.starved
  cq : w'.cq = w.cq ∨ w.cq = .op k :: w'.cq
  tasks : w'.tasks = w.tasks

theorem Seated.of_update {st : CoState}
    (hx : w'.coros = Function.update w.coros k { w.coros k with state := st })
    (hc : w'.conns = w.conns) (hn : w'.nextConn = w.nextConn) (hn' : w'.nextCoro = w.nextCoro)
    (hs : w'.starved = w.starved) (hq : w'.cq = w.cq ∨ w.cq = .op k :: w'.cq)
    (ht : w'.tasks = w.tasks) : Seated k st w w' :=
  ⟨by rw [hx, Function.update_self], fun k' hk => by rw [hx, Function.update_of_ne hk], hc, hn,
    Nat.le_of_eq hn'.symm, hs, hq, ht⟩

theorem Seated.mem {st : CoState} (h : Seated k st w w') {x : Cqe} (hx : x ∈ w'.cq) : x ∈ w.cq := by
  rcases h.cq with hq | hq
  · exact hq ▸ hx
  · exact hq ▸ List.mem_cons_of_mem _ hx

theorem Seated.lasts {st : CoState} (h : Seated k st w w') (c : Nat) :
    w'.cq.countP (Cqe.last c) = w.cq.countP (Cqe.last c) := by
  rcases h.cq with hq | hq
  · rw [hq]
  · rw [hq, List.countP_cons_of_neg (by simp [Cqe.last])]

theorem Seated.count {st : CoState} (h : Seated k st w w') {k' : Nat} (hk : k' ≠ k) :
    w'.cq.count (.op k') = w.cq.count (.op k') := by
  rcases h.cq with hq | hq
  · rw [hq]
  · rw [hq, List.count_cons_of_ne (by simpa using Ne.symm hk)]

theorem Seated.held {st : CoState} (hs : Seated k st w w') (hc : Held w hand c)
    (ht : ∀ t, t.conn = some c → (hand' ++ w.tasks).count t = (hand ++ w.tasks).count t)
    (ho : w'.opening c ↔ w.opening c)
    (hwait : (w.conns c).waiter = some k → st = .parked (.item c) ∨ st = .parked (.pause c)) :
    Held w' hand' c := by
  have hmem {more : Bool} (hm : .tail c more ∈ hand' ++ w.tasks) :
      .tail c more ∈ hand ++ w.tasks := by
    rw [← List.count_pos_iff] at hm ⊢
    rwa [← ht _ rfl]
  refine ⟨?_, ?_, ?_, ?_, ?_, ?_, ?_, ?_, ?_, ?_, ?_⟩
  · rw [hs.conns, hs.tasks, ht _ rfl]
    exact hc.refs
  · rw [hs.conns, hs.nextConn]
    exact hc.recycled
  · rw [hs.conns, hs.nextConn]
    exact hc.fresh
  · rw [hs.conns, hs.starved]
    exact hc.starved
  · have hl := hc.lasts
    simp only [Worker.lasts, hs.conns, hs.lasts, hs.tasks, ho, ht (.tail c false) rfl] at hl ⊢
    exact hl
  · rw [hs.conns]
    exact fun x hx => hc.seen x (hs.mem hx)
  · rw [hs.conns, hs.tasks]
    exact fun more hm => hc.tail more (hmem hm)
  · rw [hs.tasks]
    exact fun hm x hx => hc.behind (hmem hm) x (hs.mem hx)
  · rw [hs.tasks, ht _ rfl, ht _ rfl]
    exact hc.single
  · intro hop
    obtain ⟨h1, h2⟩ := hc.opened (ho.mp hop)
    rw [hs.tasks]
    exact ⟨fun x hx => h1 x (hs.mem hx), fun more hm => h2 more (hmem hm)⟩
  · intro k' hw
    rw [hs.conns] at hw
    by_cases hk' : k' = k
    · subst hk'
      rw [hs.state]
      exact hwait hw
    · rw [hs.other k' hk']
      exact hc.waiter k' hw

/-- The connections are shown already: what is left is about that coroutine. -/
theorem Life.reseated {st : CoState} (h : Life w hand) (hs : Seated k st w w')
    (hconn : ∀ c, Held w' hand' c) (hk : Sits w' k)
    (hother : ∀ k', k' ≠ k → w'.ops.count k' = w.ops.count k' ∧
      w'.ready.count k' = w.ready.count k' ∧
      ∀ a, (w.coros k').state = .running a → w'.running = some k') : Life w' hand' where
  conn := hconn
  coro k' := by
    by_cases hk' : k' = k
    · exact hk' ▸ hk
    have hw := h.coro k'
    obtain ⟨h1, h2, h3⟩ := hother k' hk'
    have hst := hs.other k' hk'
    refine ⟨?_, ?_, ?_, ?_, ?_⟩
    · rw [hst, hs.conns, hs.nextConn]
      exact hw.on
    · rw [h1, hs.count hk', hst]
      exact hw.ops
    · rw [h2, hst]
      exact hw.ready
    · rw [hst]
      exact h3
    · rw [hst]
      exact fun hn => hw.fresh (Nat.le_trans hs.nextCoro hn)
  order := by
    rcases hs.cq with hq | hq
    · exact hq ▸ h.order
    · have := h.order
      rw [hq] at this
      exact (List.pairwise_cons.mp this).2
  more c result buf hm := h.more c result buf (hs.mem hm)

theorem Life.seated {s : CoState} (h : Life w hand) (hs : Seated k s w w')
    (hopt : ∀ c, s.await = some (.setopt c) ↔ (w.coros k).state.await = some (.setopt c))
    (hwait : ∀ c, (w.conns c).waiter = some k → s = .parked (.item c) ∨ s = .parked (.pause c))
    (hk : Sits w' k)
    (hother : ∀ k', k' ≠ k → w'.ops.count k' = w.ops.count k' ∧
      w'.ready.count k' = w.ready.count k' ∧
      ∀ a, (w.coros k').state = .running a → w'.running = some k') : Life w' hand := by
  refine h.reseated hs (fun c => hs.held (h.conn c) (fun _ _ => rfl) ?_ (hwait c)) hk hother
  unfold Worker.opening
  rw [hs.conns]
  by_cases hw : (w.conns c).owner = k
  · rw [hw, hs.state]
    exact hopt c
  · rw [hs.other _ hw]

namespace Worker

/-- Nobody runs: a parked coroutine that no operation is to resume runs on. -/
theorem coroResume_life (h : Life w hand) (hr : w.running = none)
    (hst : (w.coros k).state = .parked (.item c) ∨ (w.coros k).state = .parked (.pause c))
    (hw : ∀ d, (w.conns d).waiter ≠ some k) : Life (w.coroResume k) hand := by
  obtain ⟨a, ha, hon, hset⟩ : ∃ a, (w.coros k).state = .parked a ∧ a.on = some c ∧
      (CoState.parked a).inOp = false := by
    rcases hst with hst | hst
    · exact ⟨_, hst, rfl, rfl⟩
    · exact ⟨_, hst, rfl, rfl⟩
  have hk := h.coro k
  have hco : w.coroResume k = { w.setState k (.running (some a)) with running := some k } := by
    unfold coroResume
    rw [ha]
  rw [hco]
  refine h.seated (k := k) (s := .running (some a)) (.of_update rfl rfl rfl rfl rfl (.inl rfl) rfl)
    (fun d => by rw [ha]; rfl) (fun d hd => absurd hd (hw d)) ⟨?_, ?_, ?_, ?_, ?_⟩
    fun k' _ => ⟨rfl, rfl, fun b hb => ?_⟩
  · intro b d hb hd
    refine hk.on b d ?_ hd
    rw [ha]
    simpa [setState, CoState.await] using hb
  · have hops := hk.ops
    rw [ha, hset] at hops
    simpa [setState, CoState.inOp] using hops
  · have hrd := hk.ready
    rw [ha] at hrd
    simpa [setState] using hrd
  · exact fun _ _ => rfl
  · intro hn
    have := hk.fresh hn
    rw [ha] at this
    cases this
  · have := (h.coro k').running b hb
    rw [hr] at this
    cases this

theorem wakeReader_life (h : Life w hand) (hr : w.running = none) (c : Nat) :
    Life (w.wakeReader c) hand := by
  unfold wakeReader
  split
  · exact h
  · rename_i k hk
    have hst := (h.conn c).waiter k hk
    refine coroResume_life (c := c) (h.waited c nofun) hr hst fun d hd => ?_
    by_cases hdc : d = c
    · subst hdc
      simp [setConn] at hd
    · rw [setConn_other hdc] at hd
      rcases (h.conn d).waiter k hd with hx | hx <;> rcases hst with hy | hy <;>
        rw [hx] at hy <;> cases hy <;> exact hdc rfl

end Worker

-- ---------------------------------------------------------------------------
-- The tasks
-- ---------------------------------------------------------------------------

/-- The same is owed, or less at the end of a completion that was not the last. -/
theorem Life.owed (ts : List Task) (h : Life w hand)
    (hp : ∀ c, (hand' ++ ts).count (.unref c) = (hand ++ w.tasks).count (.unref c) ∧
      (hand' ++ ts).count (.tail c false) = (hand ++ w.tasks).count (.tail c false) ∧
      (hand' ++ ts).count (.tail c true) ≤ (hand ++ w.tasks).count (.tail c true)) :
    Life { w with tasks := ts } hand' where
  conn c := by
    have hc := h.conn c
    obtain ⟨h1, h2, h3⟩ := hp c
    have hmem {more : Bool} (hm : .tail c more ∈ hand' ++ ts) : .tail c more ∈ hand ++ w.tasks := by
      rw [← List.count_pos_iff] at hm ⊢
      cases more with
      | false => omega
      | true => omega
    refine ⟨?_, hc.recycled, hc.fresh, hc.starved, ?_, hc.seen,
      fun more hm => hc.tail more (hmem hm), fun hm => hc.behind (hmem hm), ?_, fun ho => ?_,
      hc.waiter⟩
    · rw [h1]
      exact hc.refs
    · have hl := hc.lasts
      simp only [Worker.lasts, Worker.opening, h2] at hl ⊢
      exact hl
    · have := hc.single
      show (hand' ++ ts).count _ + (hand' ++ ts).count _ ≤ 1
      omega
    · obtain ⟨h4, h5⟩ := hc.opened ho
      exact ⟨h4, fun more hm => h5 more (hmem hm)⟩
  coro k := ⟨(h.coro k).on, (h.coro k).ops, (h.coro k).ready, (h.coro k).running, (h.coro k).fresh⟩
  order := h.order
  more := h.more

theorem Life.owed_perm {ts : List Task} (h : Life w hand)
    (hp : (hand' ++ ts).Perm (hand ++ w.tasks)) : Life { w with tasks := ts } hand' :=
  h.owed _ fun _ => ⟨hp.count_eq _, hp.count_eq _, Nat.le_of_eq (hp.count_eq _)⟩

namespace Worker

theorem afterwards_life {t : Task} (h : Life w (t :: hand)) : Life (w.afterwards t) hand :=
  h.owed_perm List.perm_middle

theorem drop_life (h : Life w (.tail c true :: hand)) : Life w hand :=
  h.owed w.tasks fun d => by
    refine ⟨?_, ?_, ?_⟩
    · rw [List.cons_append, List.count_cons_of_ne (by simp)]
    · rw [List.cons_append, List.count_cons_of_ne (by simp)]
    · rw [List.cons_append]
      exact List.count_le_count_cons

end Worker

end Ioxd.Io
