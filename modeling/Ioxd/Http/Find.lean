import Ioxd.Lib.Masks
import Ioxd.Pipe.Reader

/-!
# The searches

`lib/http/find.c`. Every read of the haystack and of the needle is checked here
against its length: a search that read outside has no result, and neither has a
loop that is still going when there is no place left to try.
-/

namespace Ioxd.Http

open Masks
open Ioxd.Pipe (Byte)

-- ---------------------------------------------------------------------------
-- Reading
-- ---------------------------------------------------------------------------

/-- The `k` bytes at `i`, if they are all there. -/
def load (buf : List Byte) (i k : Nat) : Option (List Byte) :=
  if i + k ≤ buf.length then some ((buf.drop i).take k) else none

/-- `memcmp(hay + i, needle + j, k) == 0`. -/
def sameBytes (hay : List Byte) (i : Nat) (needle : List Byte) (j k : Nat) : Option Bool := do
  let a ← load hay i k
  let b ← load needle j k
  return a == b

/-- `memchr(hay + i, c, k)`. -/
def memchr (hay : List Byte) (i : Nat) (c : Byte) (k : Nat) : Option (Option Nat) := do
  let a ← load hay i k
  return (a.findIdx? (· == c)).map (i + ·)

def placeOf : Option Nat → Int
  | some i => i
  | none => -1

-- ---------------------------------------------------------------------------
-- `ioxd__find_scalar`
-- ---------------------------------------------------------------------------

def scalarLoop (hay needle : List Byte) (stop : Nat) (first last : Byte) :
    Nat → Nat → Option Int
  | 0, _ => none
  | fuel + 1, i => do
    match ← memchr hay i first (stop - i) with
    | none => return -1
    | some i =>
      let c ← hay[i + (needle.length - 1)]?
      if c = last then
        if ← sameBytes hay (i + 1) needle 1 (needle.length - 2) then return i
        else scalarLoop hay needle stop first last fuel (i + 1)
      else scalarLoop hay needle stop first last fuel (i + 1)

def findScalar (hay needle : List Byte) : Option Int := do
  let stop := hay.length - needle.length + 1
  let last ← needle[needle.length - 1]?
  let first ← needle[0]?
  scalarLoop hay needle stop first last (stop + 1) 0

-- ---------------------------------------------------------------------------
-- `ioxd__find_sse2` and `ioxd__find_avx2`
-- ---------------------------------------------------------------------------

/-- `(v16){} + c`. -/
def splat (lanes : Nat) (c : Byte) : List Byte := List.replicate lanes c

/-- `a == b`: all ones where they are the same. -/
def vectorEq (a b : List Byte) : List Byte := List.zipWith (fun x y => if x = y then 255 else 0) a b

def vectorAnd (a b : List Byte) : List Byte := List.zipWith (· &&& ·) a b

/-- The loop over the places a mask leaves: the other `k` bytes decide. -/
def candidates (hay : List Byte) (i : Nat) (needle : List Byte) (k m : Nat) : Option Int := do
  let r ← scan 32 (fun j => sameBytes hay (i + j + 1) needle 1 k) m
  return placeOf (r.map (i + ·))

/-- `block16`, and with 32 lanes what `ioxd__find_avx2` does with a block. -/
def block (lanes : Nat) (hay : List Byte) (i : Nat) (needle first last : List Byte) :
    Option Int := do
  let a ← load hay i lanes
  let b ← load hay (i + needle.length - 1) lanes
  let m := movemask (vectorAnd (vectorEq a first) (vectorEq b last))
  candidates hay i needle (needle.length - 2) m

def blockLoop (lanes : Nat) (hay needle first last : List Byte) (span : Nat) :
    Nat → Nat → Option Int
  | 0, _ => none
  | fuel + 1, i => do
    let at' ← block lanes hay i needle first last
    if at' ≥ 0 then return at'
    else if i + lanes = span then return -1
    else
      let i := i + lanes
      let i := if i + lanes > span then span - lanes else i
      blockLoop lanes hay needle first last span fuel i

def findSse2 (hay needle : List Byte) : Option Int := do
  let c ← needle[0]?
  let first := splat 16 c
  let span := hay.length - needle.length + 1
  if span ≥ 16 then
    let c ← needle[needle.length - 1]?
    let last := splat 16 c
    blockLoop 16 hay needle first last span span 0
  else if hay.length ≥ 16 then
    let a ← load hay 0 16
    let m := movemask (vectorEq a first) &&& (2 ^ span - 1)
    candidates hay 0 needle (needle.length - 1) m
  else findScalar hay needle

def findAvx2 (hay needle : List Byte) : Option Int := do
  let span := hay.length - needle.length + 1
  if span < 32 then findSse2 hay needle
  else
    let c ← needle[0]?
    let d ← needle[needle.length - 1]?
    blockLoop 32 hay needle (splat 32 c) (splat 32 d) span span 0

-- ---------------------------------------------------------------------------
-- `ioxd_slice_find_bytes`
-- ---------------------------------------------------------------------------

/-- What the program is built for and runs on. -/
inductive Cpu
  | avx2
  | sse2
  | other

def find : Cpu → List Byte → List Byte → Option Int
  | .avx2 => findAvx2
  | .sse2 => findSse2
  | .other => findScalar

def sliceFindChar (s : List Byte) (c : Byte) : Option Int :=
  if s.length = 0 then some (-1)
  else do
    let at' ← memchr s 0 c s.length
    return placeOf at'

def sliceFindBytes (cpu : Cpu) (s needle : List Byte) : Option Int :=
  if needle.length = 0 then some 0
  else if needle.length > s.length then some (-1)
  else if needle.length = 1 then do
    let c ← needle[0]?
    sliceFindChar s c
  else find cpu s needle

end Ioxd.Http
