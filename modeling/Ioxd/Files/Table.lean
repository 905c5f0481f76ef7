import Ioxd.Pipe.Reader
import Mathlib.Logic.Function.Basic

/-!
# A worker's table of files

The table of `lib/http/static.c`: entries in the heap, chained in buckets and
linked by recency. An operation is `none` where the source would follow a null
or a freed pointer, free an entry twice, or not come back; a pointer is never
given out again, so that what is freed stays so. A loop takes its turns from
the number of entries. The sums of bytes are of memory that is allocated at the
same time, and do not wrap.
-/

namespace Ioxd.Files

open Ioxd.Pipe (Byte)

abbrev Ptr := Nat

inductive Variant
  | plain
  | br
  | gzip
  deriving DecidableEq, Repr

/-- What `fstat` says of a file. -/
structure Stat where
  dev : Nat
  ino : Nat
  size : Nat
  sec : Int
  nsec : Nat
  deriving DecidableEq, Repr

structure Entry where
  chain : Option Ptr
  newer : Option Ptr
  older : Option Ptr
  name : List Byte
  hash : UInt32
  stat : Stat
  v : Variant → Option (List Byte)
  bytes : Nat
  checkedAt : UInt64
  refs : Nat
  dropped : Bool

abbrev Heap := Ptr → Option Entry

/-- `struct cache`, with the heap its pointers are into. -/
structure Table where
  heap : Heap
  buckets : List (Option Ptr)
  count : Nat
  newest : Option Ptr
  oldest : Option Ptr
  bytes : Nat
  budget : Nat

def hashOf (name : List Byte) : UInt32 :=
  name.foldl (fun h c => (h ^^^ c.toUInt32) * 16777619) 2166136261

def slot (n : Nat) (hash : UInt32) : Nat := hash.toNat &&& (n - 1)

namespace Table

def bucket (t : Table) (i : Nat) : Option Ptr := t.buckets.getD i none

def modify (t : Table) (p : Ptr) (f : Entry → Entry) : Option Table :=
  (t.heap p).map fun e => { t with heap := Function.update t.heap p (some (f e)) }

def lookupLoop (t : Table) (name : List Byte) (hash : UInt32) :
    Nat → Option Ptr → Option (Option Ptr)
  | _, none => some none
  | 0, some _ => none
  | turns + 1, some p => do
    let e ← t.heap p
    if e.hash = hash ∧ e.name = name then some (some p) else lookupLoop t name hash turns e.chain

def lookup (t : Table) (name : List Byte) (hash : UInt32) : Option (Option Ptr) :=
  t.lookupLoop name hash t.count (t.bucket (slot t.buckets.length hash))

-- ---------------------------------------------------------------------------
-- Recency
-- ---------------------------------------------------------------------------

/-- The `older` of an entry, or of the list's end. -/
def setOlder (t : Table) (q v : Option Ptr) : Option Table :=
  match q with
  | some q => t.modify q ({ · with older := v })
  | none => some { t with newest := v }

def setNewer (t : Table) (q v : Option Ptr) : Option Table :=
  match q with
  | some q => t.modify q ({ · with newer := v })
  | none => some { t with oldest := v }

def recencyOut (t : Table) (p : Ptr) : Option Table := do
  let e ← t.heap p
  let t ← t.setOlder e.newer e.older
  let t ← t.setNewer e.older e.newer
  t.modify p ({ · with newer := none, older := none })

/-- The entry that was the newest learns of the one in front of it. -/
def setFront (t : Table) (q : Option Ptr) (p : Ptr) : Option Table :=
  match q with
  | some q => t.modify q ({ · with newer := some p })
  | none => some t

def recencyIn (t : Table) (p : Ptr) : Option Table := do
  let newest := t.newest
  let t ← t.modify p ({ · with older := newest, newer := none })
  let t ← t.setFront newest p
  some { t with
    newest := some p
    oldest := match t.oldest with
      | some q => some q
      | none => some p }

def touch (t : Table) (p : Ptr) : Option Table :=
  if t.newest ≠ some p then do
    let t ← t.recencyOut p
    t.recencyIn p
  else some t

-- ---------------------------------------------------------------------------
-- Leaving the table
-- ---------------------------------------------------------------------------

def entryFree (t : Table) (p : Ptr) : Option Table :=
  (t.heap p).map fun _ => { t with heap := Function.update t.heap p none }

/-- A place that a chain goes through: a bucket, or an entry's own link. -/
inductive At
  | bucket (i : Nat)
  | chain (p : Ptr)

def deref (t : Table) : At → Option (Option Ptr)
  | .bucket i => some (t.bucket i)
  | .chain p => (t.heap p).map (·.chain)

/-- The loop of `unlink_entry`. -/
def findAt (t : Table) (p : Ptr) : Nat → At → Option At
  | 0, _ => none
  | turns + 1, place => do
    let next ← t.deref place
    let q ← next
    if q = p then some place else t.findAt p turns (.chain q)

def setAt (t : Table) (place : At) (v : Option Ptr) : Option Table :=
  match place with
  | .bucket i => some { t with buckets := t.buckets.set i v }
  | .chain p => t.modify p ({ · with chain := v })

def unlinkEntry (t : Table) (p : Ptr) : Option Table := do
  let e ← t.heap p
  let place ← t.findAt p t.count (.bucket (slot t.buckets.length e.hash))
  let t ← t.setAt place e.chain
  let t ← t.recencyOut p
  some { t with bytes := t.bytes - e.bytes, count := t.count - 1 }

def drop (t : Table) (p : Ptr) : Option Table := do
  let t ← t.unlinkEntry p
  let t ← t.modify p ({ · with dropped := true })
  let e ← t.heap p
  if e.refs = 0 then t.entryFree p else some t

/-- `release`; a reference that was not taken cannot be given back. -/
def release (t : Table) (p : Ptr) : Option Table := do
  let e ← t.heap p
  if e.refs = 0 then none
  else if e.refs - 1 = 0 ∧ e.dropped then t.entryFree p
  else t.modify p ({ · with refs := e.refs - 1 })

def makeRoomLoop : Nat → Table → Nat → Option Table
  | turns, t, need =>
    match t.oldest with
    | none => some t
    | some p =>
      if t.bytes + need > t.budget then
        match turns with
        | 0 => none
        | turns + 1 => do
          let t ← t.drop p
          makeRoomLoop turns t need
      else some t

def makeRoom (t : Table) (need : Nat) : Option Table := makeRoomLoop t.count t need

-- ---------------------------------------------------------------------------
-- Entering it
-- ---------------------------------------------------------------------------

/-- The inner loop of `grow`: a chain of the old buckets, moved to the new
ones. -/
def rehash (n : Nat) : Nat → Heap → List (Option Ptr) → Option Ptr →
    Option (Heap × List (Option Ptr))
  | _, heap, buckets, none => some (heap, buckets)
  | 0, _, _, some _ => none
  | turns + 1, heap, buckets, some p => do
    let e ← heap p
    let i := slot n e.hash
    let heap := Function.update heap p (some { e with chain := buckets.getD i none })
    rehash n turns heap (buckets.set i (some p)) e.chain

/-- `grow`, if its `calloc` gives anything. -/
def grow (t : Table) (room : Bool) : Option Table :=
  if ¬ room then some t
  else do
    let n := t.buckets.length * 2
    let (heap, buckets) ← t.buckets.foldlM
      (fun (heap, buckets) p => rehash n t.count heap buckets p) (t.heap, List.replicate n none)
    some { t with heap := heap, buckets := buckets }

def insert (t : Table) (p : Ptr) (room : Bool) : Option Table := do
  let t ← (if t.count ≥ t.buckets.length then t.grow room else some t)
  let e ← t.heap p
  let i := slot t.buckets.length e.hash
  let first := t.bucket i
  let t ← t.modify p ({ · with chain := first })
  let t ← { t with buckets := t.buckets.set i (some p) }.recencyIn p
  some { t with bytes := t.bytes + e.bytes, count := t.count + 1 }

end Table

end Ioxd.Files
