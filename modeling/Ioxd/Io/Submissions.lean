import Ioxd.Io.Completions

/-!
# The submission queue

The other half of `lib/io/uring.c`: what `ioxd__uring_get_sqe` hands out and
what `flush_and_enter` lets the kernel take, over the counters of
`Ioxd.Io.Completions`. An entry is handed out zeroed, filled in by the caller
of `ioxd__proactor_sqe`, and read by the kernel in some later enter, through
the index array where the ring has one. Nothing but the two counters says
which slots are the kernel's, and both wrap.

Every enter has an `Answer` of the kernel, which may take any number of
entries, none included. What the kernel has taken is kept as `sent`.
-/

namespace Ioxd.Io

open Rings (Holds)

/-- `struct io_uring_sqe`, its unions under the name of one of their members. -/
structure IoUringSqe where
  opcode : UInt8
  flags : UInt8
  ioprio : UInt16
  fd : Int32
  off : UInt64
  addr : UInt64
  len : UInt32
  rwFlags : UInt32
  userData : UInt64
  bufGroup : UInt16
  personality : UInt16
  fileIndex : UInt32
  optval : UInt64
  pad : UInt64
  deriving DecidableEq, Repr

def IoUringSqe.zero : IoUringSqe := ⟨0, 0, 0, 0, 0, 0, 0, 0, 0, 0, 0, 0, 0, 0⟩

/-- A worker's queues, with the memory of the submissions and what the kernel
has taken of it. -/
structure Submissions extends Proactor where
  sqMask : UInt32
  hasSqArray : Bool
  sqArray : Nat → UInt32
  sqes : Nat → IoUringSqe
  sent : List IoUringSqe

/-- What happens at the queues: a submission with the fields its caller sets,
the wait of the loop, a completion read, the head published, and the kernel
posting completions. -/
inductive QueueOp
  | sqe (fill : IoUringSqe → IoUringSqe) (answers : Nat → Answer × Answer)
  | wait (answer : Answer)
  | read
  | publish
  | post (cqes : List IoUringCqe)

namespace Submissions

/-- `ioxd__uring_get_sqe`, with the slot it hands out; `none` is its null. -/
def getSqe (s : Submissions) : Option (Nat × Submissions) :=
  if s.ring.sqeTail - s.ring.sqHead ≥ s.ring.sqEntries then none
  else
    let slot := s.ring.sqeTail &&& s.sqMask
    some (slot.toNat, { s with
      sqArray := if s.hasSqArray then Function.update s.sqArray slot.toNat slot else s.sqArray
      ring := { s.ring with sqeTail := s.ring.sqeTail + 1 }
      sqes := Function.update s.sqes slot.toNat .zero })

/-- The caller of `ioxd__proactor_sqe` sets its fields. -/
def fill (s : Submissions) (slot : Nat) (f : IoUringSqe → IoUringSqe) : Submissions :=
  { s with sqes := Function.update s.sqes slot (f (s.sqes slot)) }

/-- The entry that the kernel reads at a counter; one outside of the array is
dropped. -/
def entryAt (s : Submissions) (c : UInt32) : Option IoUringSqe :=
  let slot := c &&& s.sqMask
  let index := if s.hasSqArray then s.sqArray slot.toNat else slot
  if index < s.ring.sqEntries then some (s.sqes index.toNat) else none

/-- The kernel takes `n` entries from its head on. -/
def take (s : Submissions) : Nat → Submissions
  | 0 => s
  | n + 1 =>
    take { s with
      sent := s.sent ++ (s.entryAt s.ring.sqHead).toList
      ring := { s.ring with sqHead := s.ring.sqHead + 1 } } n

def flushAndEnter (s : Submissions) (waitNr : Nat) (getevents : Bool) (answer : Answer) :
    Int × Submissions :=
  let toSubmit := s.ring.sqeTail - s.ring.sqHead
  let s := { s with ring := { s.ring with sqTail := s.ring.sqeTail } }
  if toSubmit = 0 ∧ waitNr = 0 ∧ ¬ (getevents || answer.overflow) then (0, s)
  else
    let s := s.take (min answer.taken toSubmit).toNat
    (answer.rc, { s with ring := s.ring.post answer.posted })

def submit (s : Submissions) (answer : Answer) : Int × Submissions := s.flushAndEnter 0 false answer

def submitWait (s : Submissions) (waitNr : Nat) (answer : Answer) : Int × Submissions :=
  s.flushAndEnter waitNr true answer

def publishCq (s : Submissions) : Submissions := { s with toProactor := s.toProactor.publishCq }

/-- The loop of `ioxd__proactor_sqe`, with `left` of its turns to go; `none` is
the abort. -/
def sqeLoop (answers : Nat → Answer × Answer) :
    Nat → Nat → Submissions → Option (Nat × Submissions)
  | left, i, s =>
    match s.getSqe with
    | some got => some got
    | none =>
      match left with
      | 0 => none
      | left + 1 =>
        let (rc, s) := s.publishCq.submit (answers i).1
        let s :=
          if rc = -EBUSY ∨ rc = -EAGAIN ∨ rc = -EINTR then (s.submitWait 0 (answers i).2).2 else s
        sqeLoop answers left (i + 1) s

def proactorSqe (s : Submissions) (answers : Nat → Answer × Answer) :
    Option (Nat × Submissions) :=
  sqeLoop answers 16 0 s

def op (s : Submissions) : QueueOp → Option Submissions
  | .sqe f answers => (s.proactorSqe answers).map fun got => got.2.fill got.1 f
  | .wait answer => some (s.submitWait 1 answer).2
  | .read => some { s with cqTaken := s.cqTaken + 1 }
  | .publish => some s.publishCq
  | .post cqes => some { s with ring := s.ring.post cqes }

def run (s : Submissions) (ops : List QueueOp) : Option Submissions := ops.foldlM op s

/-- A ring that was just set up, wherever its counters stand. -/
structure Start (s : Submissions) : Prop where
  mask : s.sqMask.toNat + 1 = s.ring.sqEntries.toNat
  entries : s.ring.sqEntries.toNat.isPowerOfTwo
  empty : s.ring.sqHead = s.ring.sqeTail
  sent : s.sent = []

/-- The entries handed out that the kernel has not taken, as it will read them. -/
def waiting (s : Submissions) : List (Option IoUringSqe) :=
  (List.range (s.ring.sqeTail - s.ring.sqHead).toNat).map fun i =>
    s.entryAt (s.ring.sqHead + UInt32.ofNat i)

end Submissions

/-- What the callers asked for, in the order of their calls: each set its
fields in an entry of zeros. -/
def asked : List QueueOp → List IoUringSqe
  | [] => []
  | .sqe f _ :: ops => f .zero :: asked ops
  | _ :: ops => asked ops

/-- The kernel takes nothing in the enters of one turn of `ioxd__proactor_sqe`. -/
def Refused (a : Answer × Answer) : Prop :=
  a.1.taken = 0 ∧ (a.1.rc = -EBUSY ∨ a.1.rc = -EAGAIN ∨ a.1.rc = -EINTR → a.2.taken = 0)

/-- Each entry that was asked for is with the kernel once, in the order of the
calls and as it was filled in, or waits for it; and a submission aborts the
worker only if the ring is full and sixteen turns find the kernel taking
nothing. -/
structure InTurn (s : Submissions) (claimed : List IoUringSqe) : Prop where
  order : s.sent.map some ++ s.waiting = claimed.map some
  room : s.waiting.length ≤ s.ring.sqEntries.toNat
  aborts : ∀ f answers, s.op (.sqe f answers) = none ↔
    s.waiting.length = s.ring.sqEntries.toNat ∧ ∀ i < 16, Refused (answers i)

-- ---------------------------------------------------------------------------
-- The other half is the one of the completions
-- ---------------------------------------------------------------------------

section Completions

variable (s : Submissions)

theorem getSqe_none : s.getSqe = none ↔ s.ring.getSqe = none := by
  unfold Submissions.getSqe Uring.getSqe
  split <;> simp

theorem getSqe_some {got : Nat × Submissions} (h : s.getSqe = some got) :
    s.ring.getSqe = some got.2.ring ∧ got.2.cqTaken = s.cqTaken := by
  unfold Submissions.getSqe at h
  split at h
  · cases h
  · cases h
    exact ⟨if_neg ‹_›, rfl⟩

theorem take_proactor (n : Nat) : (s.take n).toProactor =
    { s.toProactor with ring := { s.ring with sqHead := s.ring.sqHead + UInt32.ofNat n } } := by
  induction n generalizing s with
  | zero => simp [Submissions.take]
  | succ n ih =>
    rw [Submissions.take, ih]
    simp only [Proactor.mk.injEq, Uring.mk.injEq, and_true]
    rw [Nat.add_comm n 1, UInt32.ofNat_add, ← UInt32.add_assoc]
    rfl

theorem flushAndEnter_proactor (waitNr : Nat) (getevents : Bool) (a : Answer) :
    (s.flushAndEnter waitNr getevents a).1 = (s.ring.flushAndEnter waitNr getevents a).1 ∧
      (s.flushAndEnter waitNr getevents a).2.toProactor =
        { s.toProactor with ring := (s.ring.flushAndEnter waitNr getevents a).2 } := by
  unfold Submissions.flushAndEnter Uring.flushAndEnter
  dsimp only
  split
  · exact ⟨rfl, rfl⟩
  · refine ⟨rfl, ?_⟩
    rw [take_proactor, UInt32.ofNat_toNat]

/-- A turn of `ioxd__proactor_sqe` that found the ring full. -/
def Submissions.retry (s : Submissions) (a : Answer × Answer) : Submissions :=
  let (rc, s) := s.publishCq.submit a.1
  if rc = -EBUSY ∨ rc = -EAGAIN ∨ rc = -EINTR then (s.submitWait 0 a.2).2 else s

variable {s} {left i : Nat} {answers : Nat → Answer × Answer}

theorem sqeLoop_got {got : Nat × Submissions} (h : s.getSqe = some got) :
    Submissions.sqeLoop answers left i s = some got := by
  unfold Submissions.sqeLoop
  rw [h]

theorem sqeLoop_zero (h : s.getSqe = none) : Submissions.sqeLoop answers 0 i s = none := by
  unfold Submissions.sqeLoop
  rw [h]

theorem sqeLoop_succ (h : s.getSqe = none) : Submissions.sqeLoop answers (left + 1) i s =
    Submissions.sqeLoop answers left (i + 1) (s.retry (answers i)) := by
  conv_lhs => unfold Submissions.sqeLoop
  rw [h]
  rfl

theorem retry_proactor (a : Answer × Answer) : (s.retry a).toProactor =
    { s.toProactor.publishCq with
      ring :=
        let (rc, ring) := s.toProactor.publishCq.ring.submit a.1
        if rc = -EBUSY ∨ rc = -EAGAIN ∨ rc = -EINTR then (ring.submitWait 0 a.2).2 else ring } := by
  obtain ⟨h1, h2⟩ := flushAndEnter_proactor s.publishCq 0 false a.1
  obtain ⟨-, h3⟩ := flushAndEnter_proactor (s.publishCq.submit a.1).2 0 true a.2
  have h1 : (s.publishCq.submit a.1).1 = (s.toProactor.publishCq.ring.submit a.1).1 := h1
  unfold Submissions.retry
  dsimp only
  rw [← h1]
  split
  · refine h3.trans ?_
    show Proactor.mk _ _ = Proactor.mk _ _
    rw [show (s.publishCq.submit a.1).2.toProactor = _ from h2]
    rfl
  · exact h2

theorem proactorLoop_got {got : Nat × Submissions} (hg : s.getSqe = some got) :
    Proactor.sqeLoop answers left i s.toProactor = some got.2.toProactor := by
  obtain ⟨hr, ht⟩ := getSqe_some s hg
  unfold Proactor.sqeLoop
  rw [hr, ← ht]

theorem sqeLoop_proactor :
    (Submissions.sqeLoop answers left i s).map (fun got => got.2.toProactor) =
      Proactor.sqeLoop answers left i s.toProactor := by
  induction left generalizing s i with
  | zero =>
    cases hg : s.getSqe with
    | none =>
      unfold Proactor.sqeLoop
      rw [sqeLoop_zero hg, (getSqe_none s).mp hg, Option.map_none]
    | some got => rw [sqeLoop_got hg, Option.map_some, proactorLoop_got hg]
  | succ left ih =>
    cases hg : s.getSqe with
    | none =>
      unfold Proactor.sqeLoop
      rw [sqeLoop_succ hg, (getSqe_none s).mp hg, ih, retry_proactor]
    | some got => rw [sqeLoop_got hg, Option.map_some, proactorLoop_got hg]

end Completions

/-- A submission does to the completions what the model of these says. -/
theorem Submissions.proactorSqe_proactor (s : Submissions) (f : IoUringSqe → IoUringSqe)
    (answers : Nat → Answer × Answer) :
    (s.op (.sqe f answers)).map (·.toProactor) = s.toProactor.proactorSqe answers := by
  rw [Proactor.proactorSqe, ← sqeLoop_proactor, Submissions.op, Option.map_map]
  rfl

-- ---------------------------------------------------------------------------
-- What the kernel will read
-- ---------------------------------------------------------------------------

section Queue

variable {cap : Nat} {s s' : Submissions} {xs : List IoUringSqe}

/-- The ring holds `xs` for the kernel, the oldest first. -/
structure Holding (cap : Nat) (s : Submissions) (xs : List IoUringSqe) : Prop where
  mask : s.sqMask.toNat + 1 = cap
  entries : s.ring.sqEntries.toNat = cap
  power : cap.isPowerOfTwo
  holds : Holds cap s.sqes s.ring.sqHead s.ring.sqeTail xs
  indexed : s.hasSqArray → ∀ i < xs.length,
    (s.sqArray ((s.ring.sqHead.toNat + i) % cap)).toNat = (s.ring.sqHead.toNat + i) % cap

theorem Holding.lt (h : Holding cap s xs) : cap < 2 ^ 32 := h.entries ▸ s.ring.sqEntries.toNat_lt

theorem Holding.dvd (h : Holding cap s xs) : cap ∣ 2 ^ 32 := Rings.dvd_of_isPowerOfTwo h.power h.lt

theorem Holding.count (h : Holding cap s xs) :
    (s.ring.sqeTail - s.ring.sqHead).toNat = xs.length := h.holds.count h.lt

theorem Holding.slot (h : Holding cap s xs) (c : UInt32) :
    (c &&& s.sqMask).toNat = c.toNat % cap := by
  rw [UInt32.toNat_and, ← Rings.and_mask h.power, ← h.mask, Nat.add_sub_cancel]

theorem Holding.entryAt (h : Holding cap s xs) {i : Nat} {x : IoUringSqe} (hx : xs[i]? = some x) :
    s.entryAt (s.ring.sqHead + UInt32.ofNat i) = some x := by
  have hi := (List.getElem?_eq_some_iff.mp hx).1
  have hcap : 0 < cap := Nat.lt_of_lt_of_le (by omega) h.holds.bounded
  have hslot := h.slot (s.ring.sqHead + UInt32.ofNat i)
  rw [Rings.slot_add h.dvd] at hslot
  have hidx : (if s.hasSqArray then
      s.sqArray ((s.ring.sqHead + UInt32.ofNat i) &&& s.sqMask).toNat
      else (s.ring.sqHead + UInt32.ofNat i) &&& s.sqMask).toNat =
      (s.ring.sqHead.toNat + i) % cap := by
    split
    · rw [hslot]
      exact h.indexed ‹_› i hi
    · exact hslot
  unfold Submissions.entryAt
  dsimp only
  rw [if_pos (by rw [UInt32.lt_iff_toNat_lt, hidx, h.entries]; exact Nat.mod_lt _ hcap), hidx,
    h.holds.item i x hx]

theorem Holding.waiting (h : Holding cap s xs) : s.waiting = xs.map some := by
  refine List.ext_getElem? fun i => ?_
  unfold Submissions.waiting
  rw [h.count, List.getElem?_map, List.getElem?_map]
  by_cases hi : i < xs.length
  · rw [List.getElem?_range hi, List.getElem?_eq_getElem hi]
    exact congrArg some (h.entryAt (List.getElem?_eq_getElem hi))
  · rw [List.getElem?_eq_none (by simpa using hi), List.getElem?_eq_none (by simpa using hi)]
    rfl

theorem Holding.start (h : s.Start) : Holding s.ring.sqEntries.toNat s [] where
  mask := h.mask
  entries := rfl
  power := h.entries
  holds := h.empty ▸ Holds.nil _ _ _
  indexed _ i hi := absurd hi (Nat.not_lt_zero i)

/-- What of the queue the completions have nothing to do with. -/
structure Aside (s s' : Submissions) : Prop where
  mask : s'.sqMask = s.sqMask
  array : s'.hasSqArray = s.hasSqArray ∧ s'.sqArray = s.sqArray
  sqes : s'.sqes = s.sqes
  entries : s'.ring.sqEntries = s.ring.sqEntries
  head : s'.ring.sqHead = s.ring.sqHead
  tail : s'.ring.sqeTail = s.ring.sqeTail
  sent : s'.sent = s.sent

theorem Holding.aside (h : Holding cap s xs) (ha : Aside s s') : Holding cap s' xs where
  mask := ha.mask ▸ h.mask
  entries := ha.entries ▸ h.entries
  power := h.power
  holds := by
    rw [ha.sqes, ha.head, ha.tail]
    exact h.holds
  indexed := by
    rw [ha.array.1, ha.array.2, ha.head]
    exact h.indexed

theorem post_aside (s : Submissions) (cqes : List IoUringCqe) :
    Aside s { s with ring := s.ring.post cqes } := by
  have h (ring : Uring) : (ring.post cqes).sqEntries = ring.sqEntries ∧
      (ring.post cqes).sqHead = ring.sqHead ∧ (ring.post cqes).sqeTail = ring.sqeTail := by
    unfold Uring.post
    induction cqes generalizing ring with
    | nil => exact ⟨rfl, rfl, rfl⟩
    | cons cqe cqes ih =>
      have h1 : (ring.postOne cqe).sqEntries = ring.sqEntries ∧
          (ring.postOne cqe).sqHead = ring.sqHead ∧ (ring.postOne cqe).sqeTail = ring.sqeTail := by
        unfold Uring.postOne
        split <;> exact ⟨rfl, rfl, rfl⟩
      obtain ⟨h2, h3, h4⟩ := ih (ring.postOne cqe)
      exact ⟨h2.trans h1.1, h3.trans h1.2.1, h4.trans h1.2.2⟩
  obtain ⟨h1, h2, h3⟩ := h s.ring
  exact ⟨rfl, ⟨rfl, rfl⟩, rfl, h1, h2, h3, rfl⟩

theorem publishCq_aside (s : Submissions) : Aside s s.publishCq := by
  have h : (s.toProactor.publishCq).ring.sqEntries = s.ring.sqEntries ∧
      (s.toProactor.publishCq).ring.sqHead = s.ring.sqHead ∧
      (s.toProactor.publishCq).ring.sqeTail = s.ring.sqeTail := by
    unfold Proactor.publishCq
    split
    · unfold Uring.cqAdvance
      split <;> exact ⟨rfl, rfl, rfl⟩
    · exact ⟨rfl, rfl, rfl⟩
  exact ⟨rfl, ⟨rfl, rfl⟩, rfl, h.1, h.2.1, h.2.2, rfl⟩

theorem Holding.full (h : Holding cap s xs) : s.getSqe = none ↔ xs.length = cap := by
  have hb := h.holds.bounded
  have hfull : s.ring.sqeTail - s.ring.sqHead ≥ s.ring.sqEntries ↔ xs.length = cap := by
    rw [ge_iff_le, UInt32.le_iff_toNat_le, h.count, h.entries]
    omega
  unfold Submissions.getSqe
  split
  · exact ⟨fun _ => hfull.mp ‹_›, fun _ => rfl⟩
  · exact ⟨fun hn => (by cases hn), fun he => absurd (hfull.mpr he) ‹_›⟩

/-- An entry handed out is behind the others once it is filled in, and holds
nothing of what its slot held. -/
theorem Holding.getSqe (h : Holding cap s xs) {got : Nat × Submissions}
    (hg : s.getSqe = some got) (f : IoUringSqe → IoUringSqe) :
    Holding cap (got.2.fill got.1 f) (xs ++ [f .zero]) ∧ (got.2.fill got.1 f).sent = s.sent := by
  have hroom : xs.length < cap := by
    refine Nat.lt_of_le_of_ne h.holds.bounded fun he => ?_
    rw [h.full.mpr he] at hg
    cases hg
  have hslot := h.slot s.ring.sqeTail
  unfold Submissions.getSqe at hg
  split at hg
  · cases hg
  cases hg
  refine ⟨⟨h.mask, h.entries, h.power, ?_, fun ha i hi => ?_⟩, rfl⟩
  · have hp := h.holds.push h.dvd hroom (f .zero)
    rw [← hslot] at hp
    simpa [Submissions.fill] using hp
  · -- the slots of the others are not the one handed out
    have ha : s.hasSqArray = true := ha
    rw [List.length_append, List.length_singleton] at hi
    have hs : (s.ring.sqeTail &&& s.sqMask).toNat = (s.ring.sqHead.toNat + xs.length) % cap := by
      rw [hslot, h.holds.span, Rings.slot_add h.dvd]
    simp only [Submissions.fill, ha, if_true]
    rw [hs]
    by_cases hl : i = xs.length
    · rw [hl, Function.update_self, hs]
    · rw [Function.update_of_ne (Rings.slot_ne (by omega) (by omega))]
      exact h.indexed ha i (by omega)

theorem Holding.take (h : Holding cap s xs) {n : Nat} (hn : n ≤ xs.length) :
    Holding cap (s.take n) (xs.drop n) ∧ (s.take n).sent = s.sent ++ xs.take n := by
  induction n generalizing s xs with
  | zero => exact ⟨h, by simp [Submissions.take]⟩
  | succ n ih =>
    cases xs with
    | nil => cases hn
    | cons x xs =>
      have hx := h.entryAt (i := 0) (x := x) rfl
      have h1 : Holding cap { s with
          sent := s.sent ++ (s.entryAt s.ring.sqHead).toList
          ring := { s.ring with sqHead := s.ring.sqHead + 1 } } xs := by
        refine ⟨h.mask, h.entries, h.power, (h.holds.pop h.dvd).2, fun ha i hi => ?_⟩
        have := h.indexed ha (i + 1) (by simpa using hi)
        have hone : (s.ring.sqHead + 1).toNat % cap = (s.ring.sqHead.toNat + 1) % cap :=
          Rings.slot_add h.dvd _ 1
        rw [← Nat.mod_add_mod, hone, Nat.mod_add_mod, Nat.add_assoc, Nat.add_comm 1 i]
        exact this
      obtain ⟨h2, h3⟩ := ih h1 (by simpa using hn)
      refine ⟨h2, h3.trans ?_⟩
      have hx : s.entryAt s.ring.sqHead = some x := by simpa using hx
      simp [hx]

/-- An enter takes some of the entries, the oldest first: with any there, as
many as the kernel answers. -/
theorem Holding.enter (h : Holding cap s xs) (waitNr : Nat) (getevents : Bool) (a : Answer) :
    ∃ n ≤ xs.length, Holding cap (s.flushAndEnter waitNr getevents a).2 (xs.drop n) ∧
      (s.flushAndEnter waitNr getevents a).2.sent = s.sent ++ xs.take n ∧
      (xs ≠ [] → n = min a.taken.toNat xs.length ∧
        (s.flushAndEnter waitNr getevents a).1 = a.rc) := by
  have hflush : Holding cap { s with ring := { s.ring with sqTail := s.ring.sqeTail } } xs :=
    h.aside ⟨rfl, ⟨rfl, rfl⟩, rfl, rfl, rfl, rfl, rfl⟩
  unfold Submissions.flushAndEnter
  dsimp only
  split
  · rename_i hz
    refine ⟨0, Nat.zero_le _, hflush, by simp, fun hne => ?_⟩
    have hc := h.count
    rw [hz.1] at hc
    exact absurd (List.length_eq_zero_iff.mp hc.symm) hne
  · have hmin : (min a.taken (s.ring.sqeTail - s.ring.sqHead)).toNat =
        min a.taken.toNat xs.length := by
      rw [← h.count]
      exact UInt32.toNat_min ..
    have hle : min a.taken.toNat xs.length ≤ xs.length := Nat.min_le_right ..
    rw [hmin]
    obtain ⟨h1, h2⟩ := hflush.take hle
    exact ⟨_, hle, h1.aside (post_aside _ _), h2, fun _ => ⟨rfl, rfl⟩⟩

/-- With any there, an enter takes none only if the kernel does. -/
theorem min_taken_eq_zero (hne : xs ≠ []) (t : UInt32) : min t.toNat xs.length = 0 ↔ t = 0 := by
  have hpos := List.length_pos_iff.mpr hne
  rw [← UInt32.toNat_inj, UInt32.toNat_zero]
  omega

theorem Holding.retry (h : Holding cap s xs) (hne : xs ≠ []) (a : Answer × Answer) :
    ∃ n ≤ xs.length, Holding cap (s.retry a) (xs.drop n) ∧
      (s.retry a).sent = s.sent ++ xs.take n ∧ (n = 0 ↔ Refused a) := by
  obtain ⟨n, hn, h1, hs1, hm1⟩ := (h.aside (publishCq_aside s)).enter 0 false a.1
  obtain ⟨hn1, hrc⟩ := hm1 hne
  have hrc : (s.publishCq.submit a.1).1 = a.1.rc := hrc
  have hzero : n = 0 ↔ a.1.taken = 0 := hn1 ▸ min_taken_eq_zero hne _
  unfold Submissions.retry
  dsimp only
  rw [hrc]
  split
  · rename_i hb
    obtain ⟨m, hm, h2, hs2, hm2⟩ := h1.enter 0 true a.2
    rw [List.drop_drop] at h2
    rw [List.length_drop] at hm
    refine ⟨n + m, by omega, h2, ?_, ?_⟩
    · refine hs2.trans ?_
      rw [hs1, List.append_assoc, ← List.take_add]
      rfl
    · -- what is left for the second enter is all of it when the first took none
      by_cases h0 : n = 0
      · have hd : xs.drop n ≠ [] := by rwa [h0, List.drop_zero]
        have hm0 := (hm2 hd).1 ▸ min_taken_eq_zero hd a.2.taken
        rw [Nat.add_eq_zero_iff, hm0, hzero]
        exact ⟨fun hx => ⟨hx.1, fun _ => hx.2⟩, fun hx => ⟨hx.1, hx.2 hb⟩⟩
      · exact ⟨fun hx => absurd (Nat.add_eq_zero_iff.mp hx).1 h0,
          fun hx => absurd (hzero.mpr hx.1) h0⟩
  · rename_i hb
    exact ⟨n, hn, h1, hs1, hzero.trans ⟨fun hx => ⟨hx, fun hc => absurd hc hb⟩, fun hx => hx.1⟩⟩

theorem Holding.nonempty (h : Holding cap s xs) (hg : s.getSqe = none) : xs ≠ [] := by
  have hpos := Nat.pos_of_isPowerOfTwo h.power
  rw [← h.full.mp hg] at hpos
  exact List.length_pos_iff.mp hpos

theorem Holding.loop_none (h : Holding cap s xs) (answers : Nat → Answer × Answer)
    (left i : Nat) : Submissions.sqeLoop answers left i s = none ↔
      xs.length = cap ∧ ∀ j < left, Refused (answers (i + j)) := by
  have hgot {s : Submissions} {xs : List IoUringSqe} {got : Nat × Submissions} {left i : Nat}
      {P : Prop} (h : Holding cap s xs) (hg : s.getSqe = some got) :
      Submissions.sqeLoop answers left i s = none ↔ xs.length = cap ∧ P := by
    rw [sqeLoop_got hg, ← h.full, hg]
    simp
  induction left generalizing s xs i with
  | zero =>
    cases hg : s.getSqe with
    | none => simp [sqeLoop_zero hg, h.full.mp hg]
    | some got => exact hgot h hg
  | succ left ih =>
    cases hg : s.getSqe with
    | none =>
      obtain ⟨n, hn, h1, -, h0⟩ := h.retry (h.nonempty hg) (answers i)
      have hfull := h.full.mp hg
      rw [sqeLoop_succ hg]
      refine (ih h1 (i + 1)).trans ?_
      rw [List.length_drop, Nat.forall_lt_succ_left]
      simp only [Nat.add_zero, Nat.add_assoc, Nat.add_comm 1, ← h0]
      constructor
      · rintro ⟨hl, hr⟩
        exact ⟨hfull, by omega, hr⟩
      · rintro ⟨-, hn0, hr⟩
        exact ⟨by omega, hr⟩
    | some got => exact hgot h hg

/-- Otherwise the entry that was asked for is the last of the queue. -/
theorem Holding.loop_some (h : Holding cap s xs) {answers : Nat → Answer × Answer}
    {left i : Nat} {got : Nat × Submissions} (f : IoUringSqe → IoUringSqe)
    (hl : Submissions.sqeLoop answers left i s = some got) :
    ∃ rest, Holding cap (got.2.fill got.1 f) (rest ++ [f .zero]) ∧
      (got.2.fill got.1 f).sent ++ rest = s.sent ++ xs := by
  have hgot {s : Submissions} {xs : List IoUringSqe} (h : Holding cap s xs)
      (hg : s.getSqe = some got) : ∃ rest, Holding cap (got.2.fill got.1 f) (rest ++ [f .zero]) ∧
        (got.2.fill got.1 f).sent ++ rest = s.sent ++ xs := by
    obtain ⟨h1, h2⟩ := h.getSqe hg f
    exact ⟨xs, h1, by rw [h2]⟩
  induction left generalizing s xs i with
  | zero =>
    cases hg : s.getSqe with
    | none =>
      rw [sqeLoop_zero hg] at hl
      cases hl
    | some got' =>
      rw [sqeLoop_got hg, Option.some.injEq] at hl
      exact hgot h (hl ▸ hg)
  | succ left ih =>
    cases hg : s.getSqe with
    | none =>
      rw [sqeLoop_succ hg] at hl
      obtain ⟨n, hn, h1, hs1, -⟩ := h.retry (h.nonempty hg) (answers i)
      obtain ⟨rest, h2, hs2⟩ := ih h1 hl
      refine ⟨rest, h2, hs2.trans ?_⟩
      rw [hs1, List.append_assoc, List.take_append_drop]
    | some got' =>
      rw [sqeLoop_got hg, Option.some.injEq] at hl
      exact hgot h (hl ▸ hg)

theorem op_holding {claimed : List IoUringSqe} {o : QueueOp} (h : Holding cap s xs)
    (hc : s.sent ++ xs = claimed) (ho : s.op o = some s') :
    ∃ xs', Holding cap s' xs' ∧ s'.sent ++ xs' = claimed ++ asked [o] := by
  have hsame (ha : Aside s s') : ∃ xs', Holding cap s' xs' ∧ s'.sent ++ xs' = claimed ++ [] :=
    ⟨xs, h.aside ha, by rw [ha.sent, hc, List.append_nil]⟩
  cases o with
  | sqe f answers =>
    obtain ⟨got, hl, rfl⟩ := Option.map_eq_some_iff.mp ho
    obtain ⟨rest, h1, h2⟩ := h.loop_some f hl
    exact ⟨_, h1, by rw [← List.append_assoc, h2, hc, asked, asked]⟩
  | wait answer =>
    cases ho
    obtain ⟨n, -, h1, hs, -⟩ := h.enter 1 true answer
    refine ⟨_, h1, ?_⟩
    rw [Submissions.submitWait, hs, List.append_assoc, List.take_append_drop, hc]
    exact (List.append_nil _).symm
  | read =>
    cases ho
    exact hsame ⟨rfl, ⟨rfl, rfl⟩, rfl, rfl, rfl, rfl, rfl⟩
  | publish =>
    cases ho
    exact hsame (publishCq_aside s)
  | post cqes =>
    cases ho
    exact hsame (post_aside s cqes)

theorem asked_cons (o : QueueOp) (ops : List QueueOp) :
    asked (o :: ops) = asked [o] ++ asked ops := by
  cases o <;> rfl

theorem run_holding {claimed : List IoUringSqe} {ops : List QueueOp} (h : Holding cap s xs)
    (hc : s.sent ++ xs = claimed) (hr : s.run ops = some s') :
    ∃ xs', Holding cap s' xs' ∧ s'.sent ++ xs' = claimed ++ asked ops := by
  induction ops generalizing s xs claimed with
  | nil =>
    cases hr
    exact ⟨xs, h, by rw [hc]; exact (List.append_nil _).symm⟩
  | cons o ops ih =>
    simp only [Submissions.run, List.foldlM_cons, Option.bind_eq_bind,
      Option.bind_eq_some_iff] at hr
    obtain ⟨s₁, h1, h2⟩ := hr
    obtain ⟨xs₁, hh, hc₁⟩ := op_holding h hc h1
    obtain ⟨xs', hh', hc'⟩ := ih hh hc₁ h2
    exact ⟨xs', hh', by rw [hc', asked_cons o ops, List.append_assoc]⟩

end Queue

variable {s s' : Submissions}

/-- Whatever the kernel takes and whenever, and wherever the counters wrap: the
kernel gets each submission once, in the order of the calls and as it was filled
in, and no slot is handed out again before. To the completions a submission does
what `Proactor` says. -/
theorem submitted_once (h : s.Start) {ops : List QueueOp} (hr : s.run ops = some s') :
    InTurn s' (asked ops) ∧ ∀ f answers,
      (s'.op (.sqe f answers)).map (·.toProactor) = s'.toProactor.proactorSqe answers := by
  obtain ⟨xs, hh, hc⟩ := run_holding (Holding.start h) rfl hr
  rw [h.sent, List.nil_append, List.nil_append] at hc
  refine ⟨⟨?_, ?_, fun f answers => ?_⟩, s'.proactorSqe_proactor⟩
  · rw [hh.waiting, ← hc, List.map_append]
  · rw [hh.waiting, List.length_map, hh.entries]
    exact hh.holds.bounded
  · rw [hh.waiting, List.length_map, hh.entries, Submissions.op, Option.map_eq_none_iff,
      Submissions.proactorSqe, hh.loop_none]
    simp only [Nat.zero_add]

/-- A ring of two at the end of its counters, with an index array and old
entries in its slots. -/
def twoSlots : Submissions where
  ring := ⟨0xffffffff, 0xffffffff, 2, 0xffffffff, 0, 0, 3, fun i => ⟨UInt64.ofNat i, 0, 0⟩⟩
  cqTaken := 0
  sqMask := 1
  hasSqArray := true
  sqArray := fun _ => 7
  sqes := fun _ => { IoUringSqe.zero with len := 5 }
  sent := []

/-- A recv and two sends: the third finds the ring full, and the kernel takes
one entry in its second turn. -/
def threeCalls : List QueueOp :=
  let answers (i : Nat) : Answer × Answer := (⟨false, i.toUInt32, [], 0⟩, ⟨false, 0, [], 0⟩)
  [.sqe ({ · with opcode := 27 }) answers, .sqe ({ · with opcode := 26, off := 1 }) answers,
    .sqe ({ · with opcode := 26, off := 2 }) answers]

theorem submitted_once_full : ∃ s', twoSlots.run threeCalls = some s' ∧
    InTurn s' (asked threeCalls) ∧ s'.sent.map (·.opcode) = [27] ∧
    s'.waiting.map (·.map (·.off)) = [some 1, some 2] ∧
    s'.waiting.map (·.map (·.len)) = [some 0, some 0] := by
  have hstart : twoSlots.Start := ⟨rfl, ⟨1, rfl⟩, rfl, rfl⟩
  obtain ⟨s', hr⟩ : ∃ s', twoSlots.run threeCalls = some s' := ⟨_, rfl⟩
  refine ⟨s', hr, (submitted_once hstart hr).1, ?_⟩
  cases hr
  decide +kernel

end Ioxd.Io
