import Mathlib.Algebra.Group.Int.Defs
import Mathlib.Algebra.Group.Nat.Defs
import Mathlib.Tactic.Common

/-!
# Numbers in text

A text as the digits of a number in some base: which number it is, and how the
value grows as digits are read. Decimal and hexadecimal digits are those of
ASCII, hexadecimal ones in either case.
-/

namespace Numeral

def dec (c : UInt8) : Option Nat :=
  if 48 ≤ c.toNat ∧ c.toNat ≤ 57 then some (c.toNat - 48) else none

def hex (c : UInt8) : Option Nat :=
  if 48 ≤ c.toNat ∧ c.toNat ≤ 57 then some (c.toNat - 48)
  else if 97 ≤ c.toNat ∧ c.toNat ≤ 102 then some (c.toNat - 87)
  else if 65 ≤ c.toNat ∧ c.toNat ≤ 70 then some (c.toNat - 55)
  else none

section

variable (digit : UInt8 → Option Nat) (base : Nat)

/-- The number so far, after reading more digits behind the value `v`. -/
def value (s : List UInt8) (v : Nat) : Nat := s.foldl (fun v c => v * base + (digit c).getD 0) v

/-- The text is a number in these digits and `n` its value. -/
def Reads (s : List UInt8) (n : Nat) : Prop :=
  s ≠ [] ∧ (∀ c ∈ s, (digit c).isSome) ∧ value digit base s 0 = n

@[simp] theorem value_nil (v : Nat) : value digit base [] v = v := rfl

@[simp] theorem value_cons (c : UInt8) (s : List UInt8) (v : Nat) :
    value digit base (c :: s) v = value digit base s (v * base + (digit c).getD 0) := rfl

theorem value_append (s t : List UInt8) (v : Nat) :
    value digit base (s ++ t) v = value digit base t (value digit base s v) := List.foldl_append

theorem le_value (hb : 0 < base) (s : List UInt8) (v : Nat) : v ≤ value digit base s v := by
  induction s generalizing v with
  | nil => exact Nat.le_refl v
  | cons c s ih =>
    have := Nat.le_mul_of_pos_right v hb
    exact Nat.le_trans (by omega) (ih (v * base + (digit c).getD 0))

end

abbrev Decimal : List UInt8 → Nat → Prop := Reads dec 10

abbrev Hex : List UInt8 → Nat → Prop := Reads hex 16

theorem Reads.unique {digit : UInt8 → Option Nat} {base : Nat} {s : List UInt8} {n m : Nat}
    (h : Reads digit base s n) (h' : Reads digit base s m) : n = m := h.2.2.symm.trans h'.2.2

end Numeral
