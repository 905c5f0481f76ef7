import Ioxd.Io.Worker
import Ioxd.Lib.Rings

/-!
# The receive ring

`lib/io/spsc.h`: the items of a connection in an array of `RX_QUEUE` slots, with
a head and a tail that wrap modulo 2³². `Queue` is what it is for, and what the
worker has in its place: a list of at most `RX_QUEUE` items. The ring is one for
every `RX_QUEUE` that an `unsigned` holds; the static assertion looks at the
value after the cast, and lets larger ones pass.
-/

namespace Ioxd.Io

open Ioxd.Pipe
open Rings (Holds)

-- ---------------------------------------------------------------------------
-- The ring
-- ---------------------------------------------------------------------------

/-- The static assertion on `RX_QUEUE`. -/
def Admitted (queue : Nat) : Prop :=
  UInt32.ofNat queue &&& (UInt32.ofNat queue - 1) = 0 ∧ queue ≥ 2

instance (queue : Nat) : Decidable (Admitted queue) := inferInstanceAs (Decidable (_ ∧ _))

structure Spsc where
  items : Nat → RxItem
  head : UInt32
  tail : UInt32

namespace Spsc

-- the value of `RX_QUEUE`
variable (queue : Nat)

def reset (q : Spsc) : Spsc := { q with head := 0, tail := 0 }

def count (q : Spsc) : UInt32 := q.tail - q.head

def empty (q : Spsc) : Bool := q.tail == q.head

/-- The comparison is of values: a constant that no `unsigned` holds has a wider
type, and so has the comparison. -/
def full (q : Spsc) : Bool := (q.tail - q.head).toNat == queue

def slot (c : UInt32) : Nat := c.toNat &&& (queue - 1)

/-- `ioxd__spsc_push`, with the item put in the slot it returns. -/
def push (q : Spsc) (x : RxItem) : Spsc :=
  { q with items := Function.update q.items (slot queue q.tail) x, tail := q.tail + 1 }

def pop (q : Spsc) : RxItem × Spsc := (q.items (slot queue q.head), { q with head := q.head + 1 })

end Spsc

-- ---------------------------------------------------------------------------
-- Guarded calls
-- ---------------------------------------------------------------------------

inductive SpscOp
  | push (x : RxItem)
  | pop

/-- A push where there is room and a pop where there is an item, with what it
returns; `none` is a call that its guard does not let through. -/
def Spsc.step (queue : Nat) (q : Spsc) : SpscOp → Option (List RxItem × Spsc)
  | .push x => if q.full queue then none else some ([], q.push queue x)
  | .pop => if q.empty then none else some ([(q.pop queue).1], (q.pop queue).2)

/-- The same of a queue of that capacity. -/
def Queue.step (queue : Nat) (xs : List RxItem) : SpscOp → Option (List RxItem × List RxItem)
  | .push x => if xs.length = queue then none else some ([], xs ++ [x])
  | .pop =>
    match xs with
    | [] => none
    | x :: xs => some ([x], xs)

/-- Calls one after the other, and all that they return. -/
def calls {σ : Type} (step : σ → SpscOp → Option (List RxItem × σ)) :
    σ → List SpscOp → Option (List RxItem × σ)
  | s, [] => some ([], s)
  | s, op :: ops =>
    match step s op with
    | none => none
    | some (out, s) => (calls step s ops).map fun r => (out ++ r.1, r.2)

/-- What a ring says of itself is so of the queue. -/
structure Tells (queue : Nat) (q : Spsc) (xs : List RxItem) : Prop where
  count : q.count.toNat = xs.length
  empty : q.empty = true ↔ xs = []
  full : q.full queue = true ↔ xs.length = queue
  bounded : xs.length ≤ queue

/-- From any ring that is reset, every list of calls goes as far and returns the
same items as of the queue, and the ring tells the queue's length. -/
def BoundedFifo (queue : Nat) : Prop := ∀ (q : Spsc) (ops : List SpscOp),
  Option.Rel (fun r r' => r.1 = r'.1 ∧ Tells queue r.2 r'.2)
    (calls (Spsc.step queue) q.reset ops) (calls (Queue.step queue) [] ops)

-- ---------------------------------------------------------------------------
-- The ring is the queue
-- ---------------------------------------------------------------------------

variable {queue : Nat} {q : Spsc} {xs : List RxItem}

theorem isPowerOfTwo_of_admitted (h : Admitted queue) (hlt : queue < 2 ^ 32) :
    queue.isPowerOfTwo := by
  obtain ⟨h0, h2⟩ := h
  have hn : (UInt32.ofNat queue).toNat = queue := UInt32.toNat_ofNat_of_lt' hlt
  have h1 : (UInt32.ofNat queue - 1).toNat = queue - 1 := by
    rw [UInt32.toNat_sub_of_le _ _ (UInt32.le_iff_toNat_le.mpr (by rw [hn, UInt32.toNat_one]; omega)),
      hn, UInt32.toNat_one]
  have hand := congrArg UInt32.toNat h0
  rw [UInt32.toNat_and, hn, h1] at hand
  exact Nat.ne_zero_and_sub_one_eq_zero_iff_isPowerOfTwo.mp ⟨by omega, hand⟩

def Spsc.Like (queue : Nat) (q : Spsc) (xs : List RxItem) : Prop :=
  Holds queue q.items q.head q.tail xs

theorem Spsc.Like.tells (h : q.Like queue xs) (hlt : queue < 2 ^ 32) : Tells queue q xs where
  count := h.count hlt
  empty := by
    rw [Spsc.empty, beq_iff_eq]
    exact h.eq_iff hlt
  full := by rw [Spsc.full, beq_iff_eq, h.count hlt]
  bounded := h.bounded

theorem step_like (hpow : queue.isPowerOfTwo) (hlt : queue < 2 ^ 32) (h : q.Like queue xs)
    (op : SpscOp) : Option.Rel (fun r r' => r.1 = r'.1 ∧ r.2.Like queue r'.2)
      (q.step queue op) (Queue.step queue xs op) := by
  have hdvd := Rings.dvd_of_isPowerOfTwo hpow hlt
  have ht := h.tells hlt
  cases op with
  | push x =>
    simp only [Spsc.step, Queue.step]
    by_cases hf : xs.length = queue
    · rw [if_pos (ht.full.mpr hf), if_pos hf]
      exact .none
    · rw [if_neg (fun hx => hf (ht.full.mp hx)), if_neg hf]
      refine .some ⟨rfl, ?_⟩
      have hp := Holds.push h hdvd (Nat.lt_of_le_of_ne h.bounded hf) x
      rw [← Rings.and_mask hpow] at hp
      exact hp
  | pop =>
    simp only [Spsc.step, Queue.step]
    cases xs with
    | nil =>
      rw [if_pos (ht.empty.mpr rfl)]
      exact .none
    | cons x xs =>
      rw [if_neg (fun hx => List.cons_ne_nil x xs (ht.empty.mp hx))]
      obtain ⟨hx, hp⟩ := Holds.pop h hdvd
      rw [← Rings.and_mask hpow] at hx
      exact .some ⟨congrArg ([·]) hx, hp⟩

theorem calls_like (hpow : queue.isPowerOfTwo) (hlt : queue < 2 ^ 32) (h : q.Like queue xs)
    (ops : List SpscOp) : Option.Rel (fun r r' => r.1 = r'.1 ∧ r.2.Like queue r'.2)
      (calls (Spsc.step queue) q ops) (calls (Queue.step queue) xs ops) := by
  induction ops generalizing q xs with
  | nil => exact .some ⟨rfl, h⟩
  | cons op ops ih =>
    have hs := step_like hpow hlt h op
    simp only [calls]
    generalize q.step queue op = r, Queue.step queue xs op = r' at hs
    cases hs with
    | none => exact .none
    | @some r r' hr =>
      have hc := ih hr.2
      dsimp only
      generalize calls (Spsc.step queue) r.2 ops = u, calls (Queue.step queue) r'.2 ops = u' at hc
      cases hc with
      | none => exact .none
      | some hu => exact .some ⟨congrArg₂ (· ++ ·) hr.1 hu.1, hu.2⟩

theorem boundedFifo_of_lt (h : Admitted queue) (hlt : queue < 2 ^ 32) : BoundedFifo queue := by
  intro q ops
  have h0 : q.reset.Like queue [] := Holds.nil queue q.items 0
  have hc := calls_like (isPowerOfTwo_of_admitted h hlt) hlt h0 ops
  generalize calls (Spsc.step queue) q.reset ops = r, calls (Queue.step queue) [] ops = r' at hc
  cases hc with
  | none => exact .none
  | some hr => exact .some ⟨hr.1, hr.2.tells hlt⟩

-- ---------------------------------------------------------------------------
-- A value that the counters cannot reach
-- ---------------------------------------------------------------------------

theorem calls_pushes (hge : 2 ^ 32 ≤ queue) (x : RxItem) (n : Nat) (q : Spsc) :
    ∃ q', calls (Spsc.step queue) q (List.replicate n (.push x)) = some ([], q') ∧
      q'.head = q.head ∧ q'.tail = q.tail + UInt32.ofNat n := by
  induction n generalizing q with
  | zero => exact ⟨q, rfl, rfl, by simp⟩
  | succ n ih =>
    obtain ⟨q', hr, hh, ht⟩ := ih (q.push queue x)
    have hf : q.full queue = false := by
      rw [Spsc.full, beq_eq_false_iff_ne]
      exact Nat.ne_of_lt (Nat.lt_of_lt_of_le (UInt32.toNat_lt _) hge)
    refine ⟨q', ?_, hh, ?_⟩
    · have hs : q.step queue (.push x) = some ([], q.push queue x) := by
        rw [Spsc.step, hf]
        rfl
      rw [List.replicate_succ, calls, hs]
      simp only [hr, Option.map_some, List.append_nil]
    · rw [ht, Nat.add_comm n 1, UInt32.ofNat_add, ← UInt32.add_assoc]
      rfl

theorem calls_pushes_queue (x : RxItem) (n : Nat) (xs : List RxItem)
    (h : xs.length + n ≤ queue) : calls (Queue.step queue) xs (List.replicate n (.push x)) =
      some ([], xs ++ List.replicate n x) := by
  induction n generalizing xs with
  | zero => simp [calls]
  | succ n ih =>
    have hn : ¬ xs.length = queue := by omega
    have hr := ih (xs ++ [x]) (by rw [List.length_append, List.length_singleton]; omega)
    simp only [List.replicate_succ, calls, Queue.step, if_neg hn, hr]
    simp

theorem not_boundedFifo_of_ge (hge : 2 ^ 32 ≤ queue) : ¬ BoundedFifo queue := by
  intro h
  have hr := h ⟨fun _ => ⟨0, 0⟩, 0, 0⟩ (List.replicate (2 ^ 32) (.push ⟨0, 0⟩))
  obtain ⟨q', hc, hh, ht⟩ :=
    calls_pushes hge ⟨0, 0⟩ (2 ^ 32) (Spsc.reset ⟨fun _ => ⟨0, 0⟩, 0, 0⟩)
  rw [hc, calls_pushes_queue _ _ _ (by simpa using hge)] at hr
  cases hr with
  | some hx =>
    have hn := hx.2.count
    rw [Spsc.count, hh, ht, List.nil_append, List.length_replicate] at hn
    exact absurd hn (by decide)

/-- Among the values that the assertion admits, the ring is a queue of that
capacity for those that an `unsigned` holds, and for no others. -/
theorem boundedFifo_iff (h : Admitted queue) : BoundedFifo queue ↔ queue < 2 ^ 32 := by
  constructor
  · intro hf
    by_contra hn
    exact not_boundedFifo_of_ge (Nat.not_lt.mp hn) hf
  · exact boundedFifo_of_lt h

/-- The ring of the build. -/
theorem boundedFifo_iff_rxQueue : Admitted rxQueue ∧ BoundedFifo rxQueue :=
  ⟨by decide, (boundedFifo_iff (by decide)).mpr (by decide)⟩

/-- The assertion admits 2³² + 2, and the third push lands on the first item. -/
theorem not_boundedFifo_truncated : Admitted 4294967298 ∧ ¬ BoundedFifo 4294967298 := by
  refine ⟨by decide, fun h => ?_⟩
  have hr := h ⟨fun _ => ⟨0, 0⟩, 0, 0⟩ [.push ⟨1, 1⟩, .push ⟨2, 2⟩, .push ⟨3, 3⟩, .pop]
  have hc : (calls (Spsc.step 4294967298) (Spsc.reset ⟨fun _ => ⟨0, 0⟩, 0, 0⟩)
      [.push ⟨1, 1⟩, .push ⟨2, 2⟩, .push ⟨3, 3⟩, .pop]).map (·.1) = some [⟨3, 3⟩] := by
    decide +kernel
  have hq : (calls (Queue.step 4294967298) [] [.push ⟨1, 1⟩, .push ⟨2, 2⟩, .push ⟨3, 3⟩, .pop]).map
      (·.1) = some [⟨1, 1⟩] := by decide +kernel
  generalize calls (Spsc.step 4294967298) (Spsc.reset ⟨fun _ => ⟨0, 0⟩, 0, 0⟩)
      [.push ⟨1, 1⟩, .push ⟨2, 2⟩, .push ⟨3, 3⟩, .pop] = r at hr hc
  generalize calls (Queue.step 4294967298) [] [.push ⟨1, 1⟩, .push ⟨2, 2⟩, .push ⟨3, 3⟩, .pop] = r'
    at hr hq
  cases hr with
  | none => cases hc
  | some hx =>
    simp only [Option.map_some, Option.some.injEq] at hc hq
    have := hc.symm.trans (hx.1.trans hq)
    exact absurd this (by decide)

end Ioxd.Io
