import Ioxd.Files.Table
import Ioxd.Http.Compress

/-!
# What a request asks of a file

The variant, the conditions and the range of `lib/http/static.c`: `pick`,
`not_modified`, `range_of`, `span_of`, and `reply` up to its write. The answers
of `ioxd_accepts_encoding` and the date that `parse_date` reads are given with
the request.
-/

namespace Ioxd.Files

open Ioxd.Pipe (Byte)
open Ioxd.Http (Coding str sliceTrim putHex parseLength)
open Ioxd.Http.Static (Range)

structure Request where
  method : List Byte
  accepts : Coding → ℚ
  ifNoneMatch : Option (List Byte)
  ifModifiedSince : Option Int
  range : Option (List Byte)
  ifRange : Option (List Byte)

def Request.head (req : Request) : Bool := req.method == str "HEAD"

/-- What `ioxd_slice_next` returns, until it returns nothing. -/
def sliceItems (s : List Byte) (sep : Byte) : List (List Byte) :=
  ((s.splitOn sep).map sliceTrim).filter (· ≠ [])

/-- The tag of `stamp`. -/
def Stat.etag (stat : Stat) : List Byte :=
  let mtime := ((stat.sec * 1000000000 + stat.nsec) % 2 ^ 64).toNat
  str "\"" ++ putHex stat.size ++ str "-" ++ putHex mtime ++ str "\""

-- ---------------------------------------------------------------------------
-- The variant
-- ---------------------------------------------------------------------------

def Entry.twins (e : Entry) : Bool := (e.v .br).isSome || (e.v .gzip).isSome

def Request.pick (req : Request) (e : Entry) : Variant :=
  let br := if (e.v .br).isSome then req.accepts .br else 0
  let gz := if (e.v .gzip).isSome then req.accepts .gzip else 0
  if br > 0 ∧ br ≥ gz then .br else if gz > 0 then .gzip else .plain

/-- The `v` of `reply`. -/
def Request.variant (req : Request) (e : Entry) : Variant :=
  if e.twins then req.pick e else .plain

/-- The bytes of a variant; one that is not there has none. -/
def Entry.data (e : Entry) (v : Variant) : List Byte := (e.v v).getD []

-- ---------------------------------------------------------------------------
-- The conditions
-- ---------------------------------------------------------------------------

def matchesTag (etag tag : List Byte) : Bool :=
  let tag := if (str "W/").isPrefixOf tag then tag.drop 2 else tag
  tag == str "*" || tag == etag

def Request.notModified (req : Request) (etag : List Byte) (mtime : Int) : Bool :=
  match req.ifNoneMatch with
  | some tags => (sliceItems tags 44).any (matchesTag etag)
  | none =>
    match req.ifModifiedSince with
    | some t => decide (mtime ≤ t)
    | none => false

/-- The last byte that `-n` or `a-b` names, and the first one. -/
def rangeSpec (spec : List Byte) (total : Nat) : Range :=
  if 44 ∈ spec ∨ 45 ∉ spec then .none
  else
    let lo := sliceTrim (spec.takeWhile (· != 45))
    let hi := sliceTrim ((spec.dropWhile (· != 45)).drop 1)
    if lo = [] then
      match parseLength hi with
      | none => .none
      | some b =>
        if b = 0 ∨ total = 0 then .bad else .one (total - min b total) (total - 1)
    else
      match parseLength lo with
      | none => .none
      | some a =>
        match if hi = [] then some (2 ^ 64 - 1) else parseLength hi with
        | none => .none
        | some b =>
          if a ≥ total ∨ a > b then .bad
          else .one a (if b ≥ total then total - 1 else b)

def Request.rangeOf (req : Request) (etag : List Byte) (total : Nat) : Range :=
  match req.range with
  | none => .none
  | some range =>
    if ¬ (str "bytes=").isPrefixOf range then .none
    else if req.ifRange.any (sliceTrim · ≠ etag) then .none
    else rangeSpec (sliceTrim (range.drop 6)) total

/-- `span_of`: where the bytes to send begin and how many they are, or nothing
for a 416. -/
def Request.spanOf (req : Request) (etag : List Byte) (total : Nat) : Option (Nat × Nat) :=
  match req.rangeOf etag total with
  | .bad => none
  | .one first last => some (first, last - first + 1)
  | .none => some (0, total)

-- ---------------------------------------------------------------------------
-- The reply
-- ---------------------------------------------------------------------------

def Entry.etag (e : Entry) : List Byte := e.stat.etag

/-- The bytes that `reply` writes, if it comes to its write. -/
def Request.body (req : Request) (e : Entry) : Option (List Byte) :=
  if req.notModified e.etag e.stat.sec then none
  else
    let data := e.data (req.variant e)
    match req.spanOf e.etag data.length with
    | none => none
    | some (first, n) => if req.head then none else some ((data.drop first).take n)

/-- A reply without a body: the client's copy is current, the range is of no
byte, or the method is HEAD. -/
def Request.Bodyless (req : Request) (e : Entry) : Prop :=
  req.notModified e.etag e.stat.sec = true ∨
    req.rangeOf e.etag (e.data (req.variant e)).length = .bad ∨ req.head = true

theorem body_eq_none_iff (req : Request) (e : Entry) : req.body e = none ↔ req.Bodyless e := by
  unfold Request.body Request.Bodyless
  split
  · rename_i hn
    simp [hn]
  · rename_i hn
    simp only [Request.spanOf]
    cases hr : req.rangeOf e.etag (e.data (req.variant e)).length <;> simp [hn]

end Ioxd.Files
