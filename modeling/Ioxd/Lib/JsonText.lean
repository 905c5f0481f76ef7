import Ioxd.Lib.Numeral

/-!
# JSON texts

The grammar of RFC 8259 over bytes: what a value is (`Value`), and a parser that
reads a text back as a tree. Bytes of a string that are not control characters
are taken as they are. A number is the pair of its digits as an integer and its
power of ten.
-/

namespace JsonText

abbrev Bytes := List UInt8

def joined : List Bytes → Bytes
  | [] => []
  | [x] => x
  | x :: xs => x ++ 44 :: joined xs

def lead (xs : List Bytes) : Bytes := if xs = [] then [] else [44]

theorem joined_concat (xs : List Bytes) (x : Bytes) :
    joined (xs ++ [x]) = joined xs ++ lead xs ++ x := by
  induction xs with
  | nil => simp [joined, lead]
  | cons y ys ih =>
    cases ys with
    | nil => simp [joined, lead]
    | cons z zs =>
      rw [List.cons_append, List.cons_append, joined, ← List.cons_append, ih]
      · simp [joined, lead]
      · simp

-- ---------------------------------------------------------------------------
-- The grammar
-- ---------------------------------------------------------------------------

def isBlank (c : UInt8) : Bool := c == 32 || c == 9 || c == 10 || c == 13

def isDigit (c : UInt8) : Bool := 48 ≤ c && c ≤ 57

def isHex (c : UInt8) : Bool := isDigit c || (97 ≤ c && c ≤ 102) || (65 ≤ c && c ≤ 70)

inductive Chars : Bytes → Prop
  | nil : Chars []
  | plain {s} (c : UInt8) : 32 ≤ c → c ≠ 34 → c ≠ 92 → Chars s → Chars (c :: s)
  | escape {s} (c : UInt8) : c ∈ [34, 92, 47, 98, 102, 110, 114, 116] → Chars s →
      Chars (92 :: c :: s)
  | unicode {s} (a b c d : UInt8) : isHex a → isHex b → isHex c → isHex d → Chars s →
      Chars (92 :: 117 :: a :: b :: c :: d :: s)

/-- A string with its quotes. -/
inductive Quoted : Bytes → Prop
  | mk {s} : Chars s → Quoted (34 :: s ++ [34])

/-- `int`: no zero in front of another digit. -/
inductive Whole : Bytes → Prop
  | zero : Whole [48]
  | more {s} (c : UInt8) : 49 ≤ c → c ≤ 57 → (∀ d ∈ s, isDigit d) → Whole (c :: s)

inductive Number : Bytes → Prop
  | mk {sign whole frac exp : Bytes} : sign = [] ∨ sign = [45] → Whole whole →
      frac = [] ∨ (∃ s, s ≠ [] ∧ (∀ d ∈ s, isDigit d) ∧ frac = 46 :: s) →
      exp = [] ∨ (∃ e sgn s, (e = 101 ∨ e = 69) ∧ (sgn = [] ∨ sgn = [43] ∨ sgn = [45]) ∧ s ≠ [] ∧
        (∀ d ∈ s, isDigit d) ∧ exp = e :: sgn ++ s) →
      Number (sign ++ whole ++ frac ++ exp)

/-- A member of an object, with the blanks around its name. -/
structure Member where
  before : Bytes
  name : Bytes
  after : Bytes
  value : Bytes

def Member.text (m : Member) : Bytes := m.before ++ m.name ++ m.after ++ 58 :: m.value

/-- The values of the grammar, with the blanks that may be around them. -/
inductive Value : Bytes → Prop
  | null : Value [110, 117, 108, 108]
  | true : Value [116, 114, 117, 101]
  | false : Value [102, 97, 108, 115, 101]
  | number {s} : Number s → Value s
  | string {s} : Quoted s → Value s
  | array (xs : List Bytes) : (∀ x ∈ xs, Value x) → Value (91 :: joined xs ++ [93])
  | object (ms : List Member) : (∀ m ∈ ms, Quoted m.name) →
      (∀ m ∈ ms, ∀ c ∈ m.before ++ m.after, isBlank c) → (∀ m ∈ ms, Value m.value) →
      Value (123 :: joined (ms.map Member.text) ++ [125])
  | emptyArray {a : Bytes} : (∀ c ∈ a, isBlank c) → Value (91 :: a ++ [93])
  | emptyObject {a : Bytes} : (∀ c ∈ a, isBlank c) → Value (123 :: a ++ [125])
  | spaced {s a b : Bytes} : Value s → (∀ c ∈ a, isBlank c) → (∀ c ∈ b, isBlank c) →
      Value (a ++ s ++ b)

-- ---------------------------------------------------------------------------
-- The parser
-- ---------------------------------------------------------------------------

/-- A value, with `ν` for its numbers. -/
inductive Datum (ν : Type)
  | null
  | bool (b : Bool)
  | num (n : ν)
  | str (s : Bytes)
  | arr (xs : List (Datum ν))
  | obj (ms : List (Bytes × Datum ν))

/-- `digits · 10 ^ exp`. -/
structure Decimal where
  digits : Int
  exp : Int
  deriving DecidableEq

def skip : Bytes → Bytes := List.dropWhile isBlank

def digitsValue (ds : Bytes) : Nat := ds.foldl (fun v d => 10 * v + (d.toNat - 48)) 0

/-- `frac`: its digits, none when there is no point. -/
def fraction : Bytes → Option (Bytes × Bytes)
  | [] => some ([], [])
  | c :: s =>
    if c = 46 then
      let ds := s.takeWhile isDigit
      if ds = [] then none else some (ds, s.drop ds.length)
    else some ([], c :: s)

/-- `exp`, 0 when there is none. -/
def exponent : Bytes → Option (Int × Bytes)
  | [] => some (0, [])
  | c :: s =>
    if c = 101 ∨ c = 69 then
      let t := if s.head? = some 43 ∨ s.head? = some 45 then s.tail else s
      let ds := t.takeWhile isDigit
      let e : Int := digitsValue ds
      if ds = [] then none else some (if s.head? = some 45 then -e else e, t.drop ds.length)
    else some (0, c :: s)

def number (s : Bytes) : Option (Decimal × Bytes) :=
  let t := if s.head? = some 45 then s.tail else s
  let whole := t.takeWhile isDigit
  if whole = [] ∨ whole.length > 1 ∧ whole.head? = some 48 then none
  else
    (fraction (t.drop whole.length)).bind fun (frac, r) =>
      (exponent r).map fun (e, r) =>
        let m : Int := digitsValue (whole ++ frac)
        (⟨if s.head? = some 45 then -m else m, e - frac.length⟩, r)

def hexValue (c : UInt8) : Option Nat :=
  if 48 ≤ c ∧ c ≤ 57 then some (c.toNat - 48)
  else if 97 ≤ c ∧ c ≤ 102 then some (c.toNat - 87)
  else if 65 ≤ c ∧ c ≤ 70 then some (c.toNat - 55)
  else none

/-- A code unit of an escape, as the bytes of UTF-8 would have it. -/
def utf8 (u : Nat) : Bytes :=
  if u < 128 then [UInt8.ofNat u]
  else if u < 2048 then [UInt8.ofNat (192 + u / 64), UInt8.ofNat (128 + u % 64)]
  else [UInt8.ofNat (224 + u / 4096), UInt8.ofNat (128 + u / 64 % 64), UInt8.ofNat (128 + u % 64)]

def unescape (c : UInt8) : Option UInt8 :=
  if c = 34 ∨ c = 92 ∨ c = 47 then some c
  else if c = 98 then some 8
  else if c = 102 then some 12
  else if c = 110 then some 10
  else if c = 114 then some 13
  else if c = 116 then some 9
  else none

/-- What stands in front of the closing quote, with its escapes undone. -/
def chars : Bytes → Option (Bytes × Bytes)
  | [] => none
  | c :: s =>
    if c = 34 then some ([], s)
    else if c = 92 then
      match s with
      | [] => none
      | e :: s =>
        if e = 117 then
          match s with
          | a :: b :: c :: d :: s =>
            match hexValue a, hexValue b, hexValue c, hexValue d with
            | some a, some b, some c, some d =>
              (chars s).map fun r => (utf8 (4096 * a + 256 * b + 16 * c + d) ++ r.1, r.2)
            | _, _, _, _ => none
          | _ => none
        else
          match unescape e with
          | some x => (chars s).map fun r => (x :: r.1, r.2)
          | none => none
    else if c < 32 then none
    else (chars s).map fun r => (c :: r.1, r.2)

def literal (word : Bytes) (t : Datum Decimal) (s : Bytes) : Option (Datum Decimal × Bytes) :=
  if s.take word.length = word then some (t, s.drop word.length) else none

mutual

/-- One value and what follows it. -/
def value : Nat → Bytes → Option (Datum Decimal × Bytes)
  | 0, _ => none
  | fuel + 1, s =>
    match skip s with
    | [] => none
    | c :: r =>
      if c = 34 then (chars r).map fun x => (.str x.1, x.2)
      else if c = 91 then
        if (skip r).head? = some 93 then some (.arr [], (skip r).tail)
        else (items fuel r).map fun x => (.arr x.1, x.2)
      else if c = 123 then
        if (skip r).head? = some 125 then some (.obj [], (skip r).tail)
        else (pairs fuel r).map fun x => (.obj x.1, x.2)
      else if c = 110 then literal [110, 117, 108, 108] .null (c :: r)
      else if c = 116 then literal [116, 114, 117, 101] (.bool true) (c :: r)
      else if c = 102 then literal [102, 97, 108, 115, 101] (.bool false) (c :: r)
      else (number (c :: r)).map fun x => (.num x.1, x.2)

def items : Nat → Bytes → Option (List (Datum Decimal) × Bytes)
  | 0, _ => none
  | fuel + 1, s =>
    (value fuel s).bind fun x =>
      match skip x.2 with
      | [] => none
      | c :: r =>
        if c = 44 then (items fuel r).map fun y => (x.1 :: y.1, y.2)
        else if c = 93 then some ([x.1], r)
        else none

def pairs : Nat → Bytes → Option (List (Bytes × Datum Decimal) × Bytes)
  | 0, _ => none
  | fuel + 1, s =>
    match skip s with
    | [] => none
    | q :: s =>
      if q ≠ 34 then none
      else
        (chars s).bind fun name =>
          match skip name.2 with
          | [] => none
          | c :: s =>
            if c ≠ 58 then none
            else
              (value fuel s).bind fun x =>
                match skip x.2 with
                | [] => none
                | c :: r =>
                  if c = 44 then (pairs fuel r).map fun y => ((name.1, x.1) :: y.1, y.2)
                  else if c = 125 then some ([(name.1, x.1)], r)
                  else none

end

/-- A text is one value with blanks around it. -/
def parse (s : Bytes) : Option (Datum Decimal) :=
  match value (2 * s.length + 1) s with
  | some (t, r) => if skip r = [] then some t else none
  | none => none

end JsonText
