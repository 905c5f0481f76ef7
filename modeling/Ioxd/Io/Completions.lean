import Ioxd.Lib.Rings

/-!
# The completion queue

The two queues of `lib/io/uring.c`, `publish_cq` and `ioxd__proactor_sqe` of
`lib/io/proactor.c`, and the loop of `ioxd__proactor_run` around them. A batch
reads the entries that were ready when it began; a handler that it resumes may
find no submission entry free, and then the head of the completions moves on in
the middle of the batch and the kernel may post more.

What a handler does is a list of such calls, and what the kernel does in an
enter is its `Answer`. It posts where there is room, at most `cq_mask + 1`
entries from the head, and keeps the rest. The buffers, the submissions
themselves and what a completion means are left out.
-/

namespace Ioxd.Io

open Rings (Holds)

def EINTR : Int := 4
def EAGAIN : Int := 11
def EBUSY : Int := 16
def ETIME : Int := 62

structure IoUringCqe where
  userData : UInt64
  res : Int
  flags : UInt32
  deriving DecidableEq, Repr

/-- `struct uring`, with what its pointers point to. -/
structure Uring where
  sqHead : UInt32
  sqTail : UInt32
  sqEntries : UInt32
  sqeTail : UInt32
  cqHead : UInt32
  cqTail : UInt32
  cqMask : UInt32
  cqes : Nat → IoUringCqe

/-- The kernel's part of an enter: the flag that completions overflowed, the
submissions taken, the completions posted and the result. -/
structure Answer where
  overflow : Bool
  taken : UInt32
  posted : List IoUringCqe
  rc : Int

namespace Uring

def postOne (ring : Uring) (cqe : IoUringCqe) : Uring :=
  if ring.cqTail - ring.cqHead ≤ ring.cqMask then
    { ring with
      cqes := Function.update ring.cqes (ring.cqTail &&& ring.cqMask).toNat cqe
      cqTail := ring.cqTail + 1 }
  else ring

def post (ring : Uring) (cqes : List IoUringCqe) : Uring := cqes.foldl postOne ring

/-- `ioxd__uring_get_sqe`; `none` is its null. -/
def getSqe (ring : Uring) : Option Uring :=
  if ring.sqeTail - ring.sqHead ≥ ring.sqEntries then none
  else some { ring with sqeTail := ring.sqeTail + 1 }

def flushAndEnter (ring : Uring) (waitNr : Nat) (getevents : Bool) (answer : Answer) :
    Int × Uring :=
  let toSubmit := ring.sqeTail - ring.sqHead
  let ring := { ring with sqTail := ring.sqeTail }
  if toSubmit = 0 ∧ waitNr = 0 ∧ ¬ (getevents || answer.overflow) then (0, ring)
  else
    let ring := { ring with sqHead := ring.sqHead + min answer.taken toSubmit }
    (answer.rc, ring.post answer.posted)

def submit (ring : Uring) (answer : Answer) : Int × Uring := ring.flushAndEnter 0 false answer

def submitWait (ring : Uring) (waitNr : Nat) (answer : Answer) : Int × Uring :=
  ring.flushAndEnter waitNr true answer

def cqReady (ring : Uring) : UInt32 := ring.cqTail - ring.cqHead

def cqeAt (ring : Uring) (i : UInt32) : IoUringCqe :=
  ring.cqes ((ring.cqHead + i) &&& ring.cqMask).toNat

def cqAdvance (ring : Uring) (n : UInt32) : Uring :=
  if n = 0 then ring else { ring with cqHead := ring.cqHead + n }

end Uring

/-- The part of `struct proactor` that the queues are worked through. -/
structure Proactor where
  ring : Uring
  cqTaken : UInt32

/-- A read of the loop: the entry, and the state of the queue it was read in. -/
structure CqRead where
  cqe : IoUringCqe
  head : UInt32
  tail : UInt32
  taken : UInt32

/-- What a handler does to the queues: it needs a submission entry, and each
enter for one has two answers, or the kernel posts of its own. -/
inductive Act
  | sqe (answers : Nat → Answer × Answer)
  | post (cqes : List IoUringCqe)

/-- One turn of the loop: what is done before the wait, the wait, what each
dispatch does, and what is done behind the batch. -/
structure LoopTurn where
  before : List Act
  wait : Answer
  during : Nat → List Act
  behind : List Act

namespace Proactor

def publishCq (p : Proactor) : Proactor :=
  if p.cqTaken ≠ 0 then { ring := p.ring.cqAdvance p.cqTaken, cqTaken := 0 } else p

/-- The loop of `ioxd__proactor_sqe`, with `left` of its turns to go; `none` is
the abort. -/
def sqeLoop (answers : Nat → Answer × Answer) : Nat → Nat → Proactor → Option Proactor
  | left, i, p =>
    match p.ring.getSqe with
    | some ring => some { p with ring := ring }
    | none =>
      match left with
      | 0 => none
      | left + 1 =>
        let p := p.publishCq
        let (rc, ring) := p.ring.submit (answers i).1
        let ring :=
          if rc = -EBUSY ∨ rc = -EAGAIN ∨ rc = -EINTR then (ring.submitWait 0 (answers i).2).2
          else ring
        sqeLoop answers left (i + 1) { p with ring := ring }

def proactorSqe (p : Proactor) (answers : Nat → Answer × Answer) : Option Proactor :=
  sqeLoop answers 16 0 p

def act (p : Proactor) : Act → Option Proactor
  | .sqe answers => p.proactorSqe answers
  | .post cqes => some { p with ring := p.ring.post cqes }

def acts (p : Proactor) (as : List Act) : Option Proactor := as.foldlM act p

/-- The loop over a batch, with `n` entries to go; an abort ends it. -/
def batchLoop (during : Nat → List Act) : Nat → Nat → Proactor → List CqRead × Option Proactor
  | 0, _, p => ([], some p)
  | n + 1, i, p =>
    let cqe := p.ring.cqeAt p.cqTaken
    let read : CqRead := ⟨cqe, p.ring.cqHead, p.ring.cqTail, p.cqTaken⟩
    match { p with cqTaken := p.cqTaken + 1 }.acts (during i) with
    | none => ([read], none)
    | some p =>
      let (reads, q) := batchLoop during n (i + 1) p
      (read :: reads, q)

/-- A batch, up to the `publish_cq` behind it. -/
def batch (during : Nat → List Act) (p : Proactor) : List CqRead × Option Proactor :=
  let (reads, q) := batchLoop during p.ring.cqReady.toNat 0 p
  (reads, q.map publishCq)

/-- A turn of the loop up to its batch; `none` is an abort, or an error of the
enter that ends the loop. -/
def wait (p : Proactor) (turn : LoopTurn) : Option Proactor :=
  match p.acts turn.before with
  | none => none
  | some p =>
    let (rc, ring) := p.ring.submitWait 1 turn.wait
    if rc < 0 ∧ rc ≠ -ETIME ∧ rc ≠ -EINTR ∧ rc ≠ -EAGAIN ∧ rc ≠ -EBUSY then none
    else some { p with ring := ring }

def turn (p : Proactor) (turn : LoopTurn) : Option Proactor :=
  match p.wait turn with
  | none => none
  | some p =>
    match (p.batch turn.during).2 with
    | none => none
    | some p => p.acts turn.behind

def turns (p : Proactor) (ts : List LoopTurn) : Option Proactor := ts.foldlM turn p

end Proactor

-- ---------------------------------------------------------------------------
-- What a batch is to do
-- ---------------------------------------------------------------------------

/-- What the kernel sets up and keeps to: the entries are a power of two, and
there are never more completions than entries. -/
structure Uring.Ok (ring : Uring) : Prop where
  entries : (ring.cqMask.toNat + 1).isPowerOfTwo
  small : ring.cqMask.toNat + 1 < 2 ^ 32
  room : ring.cqReady.toNat ≤ ring.cqMask.toNat + 1

def Uring.ready (ring : Uring) : List IoUringCqe :=
  (List.range ring.cqReady.toNat).map fun i => ring.cqeAt (UInt32.ofNat i)

def CqRead.position (read : CqRead) : UInt32 := read.head + read.taken

/-- The entry was still the reader's: behind the published head, in front of
the tail. -/
def CqRead.Held (read : CqRead) : Prop := read.taken < read.tail - read.head

/-- The entries that were ready, one after the other from the head on, each
read while its slot was held; and, unless the worker aborts, all of them, with
the head behind the last. -/
structure InOrder (p : Proactor) (reads : List CqRead) (q : Option Proactor) : Prop where
  order : reads.map (·.cqe) <+: p.ring.ready
  positions : reads.map (·.position) =
    (List.range reads.length).map fun i => p.ring.cqHead + UInt32.ofNat i
  held : ∀ read ∈ reads, read.Held
  all : ∀ p', q = some p' → reads.map (·.cqe) = p.ring.ready ∧
    p'.ring.cqHead = p.ring.cqHead + p.ring.cqReady ∧ p'.cqTaken = 0

-- ---------------------------------------------------------------------------
-- The queue under the loop
-- ---------------------------------------------------------------------------

section Queue

variable {cap : Nat} (hpow : cap.isPowerOfTwo) (hlt : cap < 2 ^ 32)
variable {p p' : Proactor} {ring : Uring} {pos : UInt32} {xs : List IoUringCqe}

/-- The queue of a batch that is to read `xs` from the position `pos` on: in
front of it is what was read and is not released yet. -/
structure Going (cap : Nat) (p : Proactor) (pos : UInt32) (xs : List IoUringCqe) : Prop where
  mask : p.ring.cqMask.toNat + 1 = cap
  next : p.ring.cqHead + p.cqTaken = pos
  holds : ∃ read, p.cqTaken = UInt32.ofNat read.length ∧
    Holds cap p.ring.cqes p.ring.cqHead p.ring.cqTail (read ++ xs)

include hpow in
theorem slot_mask (hm : ring.cqMask.toNat + 1 = cap) (c : UInt32) :
    (c &&& ring.cqMask).toNat = c.toNat % cap := by
  rw [UInt32.toNat_and, ← Rings.and_mask hpow, ← hm, Nat.add_sub_cancel]

include hpow hlt in
/-- A completion that the kernel posts goes behind the others, or nowhere. -/
theorem postOne_going (h : Going cap p pos xs) (cqe : IoUringCqe) :
    ∃ more, Going cap { p with ring := p.ring.postOne cqe } pos (xs ++ more) := by
  obtain ⟨hm, hn, read, ht, hh⟩ := h
  unfold Uring.postOne
  split
  · rename_i hroom
    have hcount := hh.count hlt
    rw [UInt32.le_iff_toNat_le, hcount] at hroom
    have hp := hh.push (Rings.dvd_of_isPowerOfTwo hpow hlt) (by omega) cqe
    rw [← slot_mask hpow hm, List.append_assoc] at hp
    exact ⟨[cqe], hm, hn, read, ht, hp⟩
  · exact ⟨[], hm, hn, read, ht, by rwa [List.append_nil]⟩

include hpow hlt in
theorem post_going (h : Going cap p pos xs) (cqes : List IoUringCqe) :
    ∃ more, Going cap { p with ring := p.ring.post cqes } pos (xs ++ more) := by
  induction cqes generalizing p xs with
  | nil => exact ⟨[], by rw [List.append_nil]; exact h⟩
  | cons cqe cqes ih =>
    obtain ⟨more, h1⟩ := postOne_going hpow hlt h cqe
    obtain ⟨more', h2⟩ := ih h1
    exact ⟨more ++ more', by rw [← List.append_assoc]; exact h2⟩

include hpow hlt in
theorem enter_going (h : Going cap p pos xs) (waitNr : Nat) (getevents : Bool) (a : Answer) :
    ∃ more, Going cap { p with ring := (p.ring.flushAndEnter waitNr getevents a).2 } pos
      (xs ++ more) := by
  unfold Uring.flushAndEnter
  dsimp only
  split
  · exact ⟨[], h.mask, h.next, by rw [List.append_nil]; exact h.holds⟩
  · have h' : Going cap { p with ring := { p.ring with
        sqTail := p.ring.sqeTail
        sqHead := p.ring.sqHead + min a.taken (p.ring.sqeTail - p.ring.sqHead) } } pos xs :=
      ⟨h.mask, h.next, h.holds⟩
    exact post_going hpow hlt h' a.posted

include hpow hlt in
/-- What was read is released, and the place in the batch is the same. -/
theorem publishCq_going (h : Going cap p pos xs) :
    Going cap p.publishCq pos xs ∧ p.publishCq.cqTaken = 0 := by
  unfold Proactor.publishCq Uring.cqAdvance
  by_cases h0 : p.cqTaken = 0
  · rw [if_neg (not_not.mpr h0)]
    exact ⟨h, h0⟩
  rw [if_pos h0, if_neg h0]
  obtain ⟨hm, hn, read, ht, hh⟩ := h
  refine ⟨⟨hm, ?_, [], rfl, ?_⟩, rfl⟩
  · show p.ring.cqHead + p.cqTaken + 0 = pos
    rw [UInt32.add_zero, hn]
  · have hd := hh.drop (Rings.dvd_of_isPowerOfTwo hpow hlt) (n := read.length)
      (by rw [List.length_append]; omega)
    rw [← ht, List.drop_left] at hd
    exact hd

theorem getSqe_going (h : Going cap p pos xs) (hg : p.ring.getSqe = some ring) :
    Going cap { p with ring := ring } pos xs := by
  unfold Uring.getSqe at hg
  split at hg
  · cases hg
  · cases hg
    exact ⟨h.mask, h.next, h.holds⟩

include hpow hlt in
theorem sqeLoop_going (answers : Nat → Answer × Answer) (left i : Nat) (h : Going cap p pos xs)
    (hs : Proactor.sqeLoop answers left i p = some p') :
    ∃ more, Going cap p' pos (xs ++ more) := by
  induction left generalizing p xs i with
  | zero =>
    unfold Proactor.sqeLoop at hs
    split at hs
    · cases hs
      exact ⟨[], by rw [List.append_nil]; exact getSqe_going h ‹_›⟩
    · cases hs
  | succ left ih =>
    unfold Proactor.sqeLoop at hs
    split at hs
    · cases hs
      exact ⟨[], by rw [List.append_nil]; exact getSqe_going h ‹_›⟩
    · obtain ⟨more, h1⟩ := enter_going hpow hlt (publishCq_going hpow hlt h).1 0 false (answers i).1
      dsimp only at hs
      split at hs
      · obtain ⟨more', h2⟩ := enter_going hpow hlt h1 0 true (answers i).2
        obtain ⟨more'', h3⟩ := ih _ h2 hs
        exact ⟨more ++ more' ++ more'', by simpa [List.append_assoc] using h3⟩
      · obtain ⟨more', h2⟩ := ih _ h1 hs
        exact ⟨more ++ more', by simpa [List.append_assoc] using h2⟩

include hpow hlt in
theorem act_going (h : Going cap p pos xs) {a : Act} (ha : p.act a = some p') :
    ∃ more, Going cap p' pos (xs ++ more) := by
  cases a with
  | sqe answers => exact sqeLoop_going hpow hlt answers 16 0 h ha
  | post cqes =>
    cases ha
    exact post_going hpow hlt h cqes

include hpow hlt in
/-- Whatever a handler does, the batch is where it was, with more behind it. -/
theorem acts_going (h : Going cap p pos xs) {as : List Act} (ha : p.acts as = some p') :
    ∃ more, Going cap p' pos (xs ++ more) := by
  induction as generalizing p xs with
  | nil =>
    cases ha
    exact ⟨[], by rw [List.append_nil]; exact h⟩
  | cons a as ih =>
    simp only [Proactor.acts, List.foldlM_cons, Option.bind_eq_bind, Option.bind_eq_some_iff] at ha
    obtain ⟨p₁, h1, h2⟩ := ha
    obtain ⟨more, hg⟩ := act_going hpow hlt h h1
    obtain ⟨more', hg'⟩ := ih hg h2
    exact ⟨more ++ more', by rw [← List.append_assoc]; exact hg'⟩

include hpow hlt in
theorem read_going {x : IoUringCqe} (h : Going cap p pos (x :: xs)) :
    p.ring.cqeAt p.cqTaken = x ∧ p.cqTaken < p.ring.cqTail - p.ring.cqHead ∧
      Going cap { p with cqTaken := p.cqTaken + 1 } (pos + 1) xs := by
  obtain ⟨hm, hn, read, ht, hh⟩ := h
  have hcount := hh.count hlt
  have hlen : read.length < 2 ^ 32 := by
    have := hh.bounded
    rw [List.length_append] at this
    omega
  refine ⟨?_, ?_, hm, ?_, read ++ [x], ?_, ?_⟩
  · unfold Uring.cqeAt
    rw [slot_mask hpow hm, ht]
    exact hh.get (Rings.dvd_of_isPowerOfTwo hpow hlt) (by simp)
  · rw [UInt32.lt_iff_toNat_lt, hcount, ht, UInt32.toNat_ofNat_of_lt' hlen, List.length_append,
      List.length_cons]
    omega
  · rw [← hn, UInt32.add_assoc]
  · show p.cqTaken + 1 = _
    rw [ht, List.length_append, List.length_singleton, UInt32.ofNat_add]
    rfl
  · rw [List.append_assoc]
    exact hh

/-- The loop has read from `todo`, and is behind it unless the worker aborts. -/
structure Reading (cap : Nat) (pos : UInt32) (todo : List IoUringCqe) (reads : List CqRead)
    (q : Option Proactor) : Prop where
  order : reads.map (·.cqe) <+: todo
  positions : reads.map (·.position) =
    (List.range reads.length).map fun i => pos + UInt32.ofNat i
  held : ∀ read ∈ reads, read.Held
  all : ∀ p', q = some p' → reads.map (·.cqe) = todo ∧
    ∃ more, Going cap p' (pos + UInt32.ofNat todo.length) more

theorem Reading.cons {x : IoUringCqe} {todo : List IoUringCqe} {reads : List CqRead}
    {q : Option Proactor} (h : Reading cap (pos + 1) todo reads q) {read : CqRead}
    (hx : read.cqe = x) (hp : read.position = pos) (hh : read.Held) :
    Reading cap pos (x :: todo) (read :: reads) q where
  order := by
    rw [List.map_cons, hx]
    exact List.cons_prefix_cons.mpr ⟨rfl, h.order⟩
  positions := by
    rw [List.map_cons, List.length_cons, List.range_succ_eq_map, List.map_cons, List.map_map,
      h.positions, hp]
    refine congrArg₂ List.cons (UInt32.add_zero pos).symm (List.map_congr_left fun i _ => ?_)
    show pos + 1 + UInt32.ofNat i = pos + UInt32.ofNat (i + 1)
    rw [Nat.add_comm i 1, UInt32.ofNat_add, UInt32.add_assoc]
    rfl
  held := by
    intro r hr
    rcases List.mem_cons.mp hr with rfl | hr
    · exact hh
    · exact h.held r hr
  all p' hq := by
    obtain ⟨h1, more, h2⟩ := h.all p' hq
    refine ⟨by rw [List.map_cons, hx, h1], more, ?_⟩
    rw [List.length_cons, Nat.add_comm todo.length 1, UInt32.ofNat_add, ← UInt32.add_assoc]
    exact h2

include hpow hlt in
theorem batchLoop_reading (during : Nat → List Act) (i : Nat) (todo : List IoUringCqe)
    {more : List IoUringCqe} (h : Going cap p pos (todo ++ more)) :
    Reading cap pos todo (Proactor.batchLoop during todo.length i p).1
      (Proactor.batchLoop during todo.length i p).2 := by
  induction todo generalizing p pos more i with
  | nil =>
    refine ⟨List.prefix_rfl, rfl, nofun, fun p' hq => ⟨rfl, more, ?_⟩⟩
    cases hq
    show Going cap p (pos + 0) more
    rw [UInt32.add_zero]
    exact h
  | cons x todo ih =>
    obtain ⟨hx, hh, hg⟩ := read_going hpow hlt h
    have hg : Going cap _ (pos + 1) (todo ++ more) := hg
    simp only [List.length_cons, Proactor.batchLoop]
    cases hd : Proactor.acts { p with cqTaken := p.cqTaken + 1 } (during i) with
    | none =>
      -- the worker has aborted in the handler of this entry
      refine ⟨?_, ?_, ?_, nofun⟩
      · rw [List.map_singleton, hx]
        exact ⟨todo, rfl⟩
      · simpa [CqRead.position] using h.next
      · simpa [CqRead.Held] using hh
    | some p₁ =>
      obtain ⟨more', h1⟩ := acts_going hpow hlt hg hd
      rw [List.append_assoc] at h1
      exact (ih (i + 1) h1).cons hx h.next hh

end Queue

-- ---------------------------------------------------------------------------
-- The loop of the worker
-- ---------------------------------------------------------------------------

variable {p p₁ p₂ : Proactor}

theorem ready_length (ring : Uring) : ring.ready.length = ring.cqReady.toNat := by
  rw [Uring.ready, List.length_map, List.length_range]

theorem Uring.Ok.going (h : p.ring.Ok) (h0 : p.cqTaken = 0) :
    Going (p.ring.cqMask.toNat + 1) p p.ring.cqHead p.ring.ready where
  mask := rfl
  next := by rw [h0, UInt32.add_zero]
  holds := by
    refine ⟨[], h0, ?_, ?_, fun i x hx => ?_⟩
    · rw [List.nil_append, ready_length]
      exact h.room
    · rw [List.nil_append, ready_length, UInt32.ofNat_toNat, Uring.cqReady]
      rw [UInt32.add_comm, UInt32.sub_add_cancel]
    · rw [List.nil_append] at hx
      have hi := (List.getElem?_eq_some_iff.mp hx).1
      rw [ready_length] at hi
      rw [Uring.ready, List.getElem?_map, List.getElem?_range hi, Option.map_some,
        Option.some.injEq] at hx
      rw [← hx, Uring.cqeAt, slot_mask h.entries rfl,
        Rings.slot_add (Rings.dvd_of_isPowerOfTwo h.entries h.small)]

/-- Between batches: nothing is read that is not released. -/
structure Between (p : Proactor) : Prop where
  ok : p.ring.Ok
  none : p.cqTaken = 0

theorem Going.between {cap : Nat} {pos : UInt32} {xs : List IoUringCqe} (hpow : cap.isPowerOfTwo)
    (hlt : cap < 2 ^ 32) (h : Going cap p pos xs) (h0 : p.cqTaken = 0) : Between p := by
  obtain ⟨rfl, -, read, -, hh⟩ := h
  refine ⟨⟨hpow, hlt, ?_⟩, h0⟩
  rw [Uring.cqReady, hh.count hlt]
  exact hh.bounded

theorem publishCq_taken (p : Proactor) : p.publishCq.cqTaken = 0 := by
  unfold Proactor.publishCq
  split
  · rfl
  · exact not_not.mp ‹_›

/-- Outside of a batch nothing is taken, and `publish_cq` finds nothing. -/
theorem sqeLoop_taken (answers : Nat → Answer × Answer) (left i : Nat) (h0 : p.cqTaken = 0)
    (hs : Proactor.sqeLoop answers left i p = some p₁) : p₁.cqTaken = 0 := by
  induction left generalizing p i with
  | zero =>
    unfold Proactor.sqeLoop at hs
    split at hs
    · cases hs
      exact h0
    · cases hs
  | succ left ih =>
    unfold Proactor.sqeLoop at hs
    split at hs
    · cases hs
      exact h0
    · dsimp only at hs
      refine ih _ ?_ hs
      exact publishCq_taken p

theorem acts_taken {as : List Act} (h0 : p.cqTaken = 0) (ha : p.acts as = some p₁) :
    p₁.cqTaken = 0 := by
  induction as generalizing p with
  | nil =>
    cases ha
    exact h0
  | cons a as ih =>
    simp only [Proactor.acts, List.foldlM_cons, Option.bind_eq_bind, Option.bind_eq_some_iff] at ha
    obtain ⟨p', h1, h2⟩ := ha
    refine ih ?_ h2
    cases a with
    | sqe answers => exact sqeLoop_taken answers 16 0 h0 h1
    | post cqes =>
      cases h1
      exact h0

theorem acts_between {as : List Act} (h : Between p) (ha : p.acts as = some p₁) :
    Between p₁ ∧ p₁.ring.cqHead = p.ring.cqHead := by
  obtain ⟨more, hg⟩ := acts_going h.ok.entries h.ok.small (h.ok.going h.none) ha
  have h0 := acts_taken h.none ha
  refine ⟨hg.between h.ok.entries h.ok.small h0, ?_⟩
  rw [← hg.next, h0, UInt32.add_zero]

theorem wait_between {t : LoopTurn} (h : Between p) (hw : p.wait t = some p₁) :
    Between p₁ ∧ p₁.ring.cqHead = p.ring.cqHead := by
  unfold Proactor.wait at hw
  split at hw
  · cases hw
  rename_i p' ha
  obtain ⟨hb, hh⟩ := acts_between h ha
  dsimp only at hw
  split at hw
  · cases hw
  cases hw
  obtain ⟨more, hg⟩ := enter_going hb.ok.entries hb.ok.small (hb.ok.going hb.none) 1 true t.wait
  refine ⟨hg.between hb.ok.entries hb.ok.small hb.none, ?_⟩
  rw [← hh, ← hg.next]
  show _ = _ + p'.cqTaken
  rw [hb.none, UInt32.add_zero]
  rfl

theorem batch_inOrder (h : Between p) (during : Nat → List Act) :
    InOrder p (p.batch during).1 (p.batch during).2 ∧
      ∀ p', (p.batch during).2 = some p' → Between p' := by
  have hg : Going (p.ring.cqMask.toNat + 1) p p.ring.cqHead (p.ring.ready ++ []) := by
    rw [List.append_nil]
    exact h.ok.going h.none
  have hr := batchLoop_reading h.ok.entries h.ok.small during 0 p.ring.ready hg
  rw [ready_length] at hr
  unfold Proactor.batch
  dsimp only
  generalize Proactor.batchLoop during p.ring.cqReady.toNat 0 p = r at hr
  obtain ⟨reads, q⟩ := r
  have hend (p' : Proactor) (hq : q.map Proactor.publishCq = some p') :
      reads.map (·.cqe) = p.ring.ready ∧ p'.ring.cqHead = p.ring.cqHead + p.ring.cqReady ∧
        Between p' := by
    obtain ⟨p'', rfl, rfl⟩ := Option.map_eq_some_iff.mp hq
    obtain ⟨hall, more, hg⟩ := hr.all p'' rfl
    obtain ⟨hg', h0⟩ := publishCq_going h.ok.entries h.ok.small hg
    refine ⟨hall, ?_, hg'.between h.ok.entries h.ok.small h0⟩
    have hn := hg'.next
    rwa [h0, UInt32.add_zero, ready_length, UInt32.ofNat_toNat] at hn
  refine ⟨⟨hr.order, hr.positions, hr.held, fun p' hq => ?_⟩, fun p' hq => (hend p' hq).2.2⟩
  obtain ⟨h1, h2, h3⟩ := hend p' hq
  exact ⟨h1, h2, h3.none⟩

theorem turn_between {t : LoopTurn} (h : Between p) (ht : p.turn t = some p₁) : Between p₁ := by
  unfold Proactor.turn at ht
  split at ht
  · cases ht
  rename_i p' hw
  split at ht
  · cases ht
  rename_i p'' hb
  exact (acts_between ((batch_inOrder (wait_between h hw).1 t.during).2 p'' hb) ht).1

theorem turns_between {ts : List LoopTurn} (h : Between p) (ht : p.turns ts = some p₁) :
    Between p₁ := by
  induction ts generalizing p with
  | nil =>
    cases ht
    exact h
  | cons t ts ih =>
    simp only [Proactor.turns, List.foldlM_cons, Option.bind_eq_bind, Option.bind_eq_some_iff] at ht
    obtain ⟨p', h1, h2⟩ := ht
    exact ih (turn_between h h1) h2

/-- After any number of turns, whatever the handlers and the kernel did in them,
the next batch begins where the last one ended and dispatches exactly what was
ready, in order. -/
theorem dispatched_once (h : p.ring.Ok) (h0 : p.cqTaken = 0) {ts : List LoopTurn}
    (h1 : p.turns ts = some p₁) {t : LoopTurn} (h2 : p₁.wait t = some p₂) :
    p₂.ring.cqHead = p₁.ring.cqHead ∧
      InOrder p₂ (p₂.batch t.during).1 (p₂.batch t.during).2 := by
  obtain ⟨hb, hh⟩ := wait_between (turns_between ⟨h, h0⟩ h1) h2
  exact ⟨hh, (batch_inOrder hb t.during).1⟩

/-- A queue of four at the end of its counters, with two entries ready and no
submission entry free. -/
def wrapped : Proactor where
  ring := ⟨0, 1, 1, 1, 0xffffffff, 1, 3, fun i => ⟨UInt64.ofNat i, 0, 0⟩⟩
  cqTaken := 0

/-- Every handler needs a submission entry, and every enter posts a completion. -/
def busyTurn : LoopTurn where
  before := []
  wait := ⟨false, 0, [], 0⟩
  during := fun _ => [.sqe fun _ => (⟨false, 1, [⟨9, 0, 0⟩], 0⟩, ⟨false, 0, [], 0⟩)]
  behind := []

theorem dispatched_once_wrapped : ∃ p₂, wrapped.wait busyTurn = some p₂ ∧
    InOrder p₂ (p₂.batch busyTurn.during).1 (p₂.batch busyTurn.during).2 ∧
    (p₂.batch busyTurn.during).1.map (·.cqe.userData) = [3, 0] := by
  have hok : wrapped.ring.Ok := ⟨⟨2, rfl⟩, by decide, by decide⟩
  obtain ⟨p₂, hw⟩ : ∃ p₂, wrapped.wait busyTurn = some p₂ := ⟨_, rfl⟩
  have h1 : wrapped.turns [] = some wrapped := rfl
  refine ⟨p₂, hw, (dispatched_once hok rfl h1 hw).2, ?_⟩
  cases hw
  decide +kernel

end Ioxd.Io
