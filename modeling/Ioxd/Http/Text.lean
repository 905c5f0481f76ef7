import Ioxd.Lib.Lanes
import Ioxd.Lib.Message
import Ioxd.Pipe.Reader

/-!
# The engine's text helpers

The small functions of `lib/http/engine.c`, `lib/http/api.c` and
`lib/http/internal.h` that read names, numbers, tokens and query pairs. A
`(pointer, length)` pair is a list of bytes; a cursor into one is the rest of
the list. Slices that the source hands out into the parameter arena keep their
offsets.
-/

namespace Ioxd.Http

open Flat Lanes
open Ioxd.Pipe (Byte)

/-- A string literal of the source. -/
abbrev str : String → List Byte := Message.text

abbrev cr : Byte := 13
abbrev lf : Byte := 10
abbrev sp : Byte := 32
abbrev tab : Byte := 9
abbrev comma : Byte := 44
abbrev crlf : List Byte := [cr, lf]

def sizeMax : Nat := 2 ^ 64 - 1

def intMax : Nat := 2 ^ 31 - 1

-- ---------------------------------------------------------------------------
-- Names
-- ---------------------------------------------------------------------------

def lowerAscii (a : Byte) : Byte := if a - 65 < 26 then a ||| 0x20 else a

def eqCi (a b : List Byte) : Bool := a.length == b.length && a.map lowerAscii == b.map lowerAscii

/-- Eight bytes at once, as the body of the word loop of `lower_inplace`. -/
def lowerWord (bs : List Byte) : List Byte :=
  let w : UInt64 := .ofNat (pack bs)
  let upper := ((w + 0x3f3f3f3f3f3f3f3f) &&& ~~~ (w + 0x2525252525252525)) &&& 0x8080808080808080
  unpack 8 (w ||| upper >>> 2).toNat

def lowerInplace : List Byte → List Byte
  | b0 :: b1 :: b2 :: b3 :: b4 :: b5 :: b6 :: b7 :: rest =>
    lowerWord [b0, b1, b2, b3, b4, b5, b6, b7] ++ lowerInplace rest
  | s => s.map fun c => if c - 65 < 26 then c + 32 else c

-- ---------------------------------------------------------------------------
-- Numbers
-- ---------------------------------------------------------------------------

/-- `d` of `parse_length`: unsigned, so a byte below `'0'` is a large number. -/
def digitOf (c : Byte) : Nat := (c.toNat + 2 ^ 32 - 48) % 2 ^ 32

def parseDigits : List Byte → Nat → Option Nat
  | [], v => some v
  | c :: cs, v =>
    if digitOf c > 9 ∨ v > (sizeMax - digitOf c) / 10 then none
    else parseDigits cs (v * 10 + digitOf c)

def parseLength (s : List Byte) : Option Nat := if s = [] then none else parseDigits s 0

/-- `ioxd__http_hexval`; `none` is its -1. -/
def hexval (c : Byte) : Option Nat :=
  if 48 ≤ c ∧ c ≤ 57 then some (c.toNat - 48)
  else
    let c := c ||| 0x20
    if 97 ≤ c ∧ c ≤ 102 then some (c.toNat - 97 + 10) else none

-- ---------------------------------------------------------------------------
-- Tokens
-- ---------------------------------------------------------------------------

def isBlank (c : Byte) : Bool := c == sp || c == tab

def trimEnd (s : List Byte) : List Byte := (s.reverse.dropWhile isBlank).reverse

/-- The next token of a comma-separated list, and the cursor behind it. -/
def nextToken (rest : List Byte) : Option (List Byte × List Byte) :=
  let rest := rest.dropWhile fun c => isBlank c || c == comma
  if rest = [] then none
  else some (trimEnd (rest.takeWhile (· != comma)), rest.dropWhile (· != comma))

theorem nextToken_lt {rest tok rest' : List Byte} (h : nextToken rest = some (tok, rest')) :
    rest'.length < rest.length := by
  unfold nextToken at h
  dsimp only at h
  split at h
  · cases h
  · rename_i hne
    obtain ⟨-, rfl⟩ : _ ∧ _ := by simpa using h
    have hle := (List.dropWhile_suffix (l := rest) fun c => isBlank c || c == comma).length_le
    cases hd : rest.dropWhile fun c => isBlank c || c == comma with
    | nil => exact absurd hd hne
    | cons c cs =>
      rw [hd] at hle
      -- where the blanks stop there is no comma, so the token is not empty
      have hc : (isBlank c || c == comma) = false := by
        have := List.head?_dropWhile_not (fun c => isBlank c || c == comma) rest
        rw [hd] at this
        simpa using this
      have hk : (c != comma) = true := by
        simp only [Bool.or_eq_false_iff, beq_eq_false_iff_ne, ne_eq] at hc
        simpa using hc.2
      have := (List.dropWhile_suffix (l := cs) (· != comma)).length_le
      simp only [List.dropWhile_cons, hk, if_true, List.length_cons] at this hle ⊢
      omega

def tokenPresentCi (rest tok : List Byte) : Bool :=
  match _h : nextToken rest with
  | none => false
  | some (t, rest') => eqCi t tok || tokenPresentCi rest' tok
termination_by rest.length
decreasing_by exact nextToken_lt _h

-- ---------------------------------------------------------------------------
-- Query pairs
-- ---------------------------------------------------------------------------

/-- A slice of the query's text, or of the arena it was decoded into. -/
inductive Ref
  | text (off len : Nat)
  | arena (off len : Nat)
  deriving DecidableEq, Repr

structure Kv where
  key : Ref
  value : Ref
  deriving DecidableEq, Repr

/-- `+` is a space, `%XX` its byte unless that is NUL; anything else is kept. -/
def decode : List Byte → List Byte
  | [] => []
  | c :: cs =>
    if c = 43 then sp :: decode cs
    else if c = 37 then
      match cs with
      | h :: l :: cs' =>
        match hexval h, hexval l with
        | some hi, some lo =>
          if hi = 0 ∧ lo = 0 then c :: decode (h :: l :: cs')
          else UInt8.ofNat (hi * 16 + lo) :: decode cs'
        | _, _ => c :: decode (h :: l :: cs')
      | cs => c :: decode cs
    else c :: decode cs

/-- `decode_into`, where the slice needs decoding at all. -/
def decodeInto (needed : Bool) (r : Ref) (bytes : List Byte) (arena : Mem Byte)
    (arenaCap used : Nat) : Option (Ref × Mem Byte × Nat) :=
  if ¬ needed then some (r, arena, used)
  else if used + bytes.length > arenaCap then none
  else
    let decoded := decode bytes
    some (.arena used decoded.length, arena.write used decoded, used + decoded.length)

/-- What the loop over one pair's bytes finds: its first `=`, and whether the
text in front of and behind it has an escape. -/
structure KvScan where
  eqAt : Option Nat
  keyNeedsDecode : Bool
  valueNeedsDecode : Bool

def kvScan : List Byte → Nat → KvScan → KvScan
  | [], _, s => s
  | c :: cs, i, s =>
    kvScan cs (i + 1) <|
      if c = 61 then if s.eqAt = none then { s with eqAt := some i } else s
      else if c = 37 ∨ c = 43 then
        if s.eqAt = none then { s with keyNeedsDecode := true }
        else { s with valueNeedsDecode := true }
      else s

structure KvState where
  arena : Mem Byte
  used : Nat
  pairs : List Kv
  lost : Bool

/-- One pair that is not empty; it starts at `start`. -/
def kvPair (arenaCap start : Nat) (seg : List Byte) (s : KvState) : KvState :=
  let scan := kvScan seg 0 ⟨none, false, false⟩
  let keyLen := scan.eqAt.getD seg.length
  let valueAt := match scan.eqAt with | some e => e + 1 | none => seg.length
  let key := Ref.text start keyLen
  let value := Ref.text (start + valueAt) (seg.length - valueAt)
  match decodeInto scan.keyNeedsDecode key (seg.take keyLen) s.arena arenaCap s.used with
  | none => { s with lost := true }
  | some (key, arena, used) =>
    match decodeInto scan.valueNeedsDecode value (seg.drop valueAt) arena arenaCap used with
    | none => { s with arena := arena, lost := true }
    | some (value, arena, used) =>
      { s with arena := arena, used := used, pairs := s.pairs ++ [⟨key, value⟩] }

def kvLoop (cap arenaCap start : Nat) (rest : List Byte) (s : KvState) : KvState :=
  if rest = [] then s
  else if s.pairs.length = cap then { s with lost := true }
  else
    let seg := rest.takeWhile (· != 38)
    let s := if seg = [] then s else kvPair arenaCap start seg s
    kvLoop cap arenaCap (start + seg.length + 1) (rest.drop (seg.length + 1)) s
termination_by rest.length
decreasing_by
  have := List.length_pos_iff.mpr ‹_›
  simp only [List.length_drop]
  omega

def kvParse (text : List Byte) (cap : Nat) (arena : Mem Byte) (arenaCap : Nat) : KvState :=
  kvLoop cap arenaCap 0 text ⟨arena, 0, [], false⟩

end Ioxd.Http
