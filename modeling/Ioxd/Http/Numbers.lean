import Ioxd.Http.HeadLaws
import Ioxd.Http.TextLaws
import Ioxd.Json.Writer

/-!
# Integers from text

`digits_to_u64` of `lib/http/api.c` and the conversions on it, with the place
their result goes to. Every product, sum and sign of the source is checked here
against its type: a conversion whose arithmetic would overflow has no result at
all, and none of them is one.
-/

namespace Ioxd.Http

open Numeral
open Ioxd.Pipe (Byte)

def u64Max : Nat := 2 ^ 64 - 1

def i64Max : Nat := 2 ^ 63 - 1

/-- A `uint64_t`, if it is one. -/
def asU64 (v : Nat) : Option Nat := if v ≤ u64Max then some v else none

/-- An `int64_t`, if it is one. -/
def asI64 (v : Int) : Option Int := if -2 ^ 63 ≤ v ∧ v ≤ i64Max then some v else none

/-- The body of the loop of `digits_to_u64`: `none` is an overflow, and no value
a refusal. -/
def digitStep (limit v d : Nat) : Option (Option Nat) :=
  if d > 9 ∨ v > (limit - d) / 10 then some none
  else (asU64 (v * 10)).bind fun w => (asU64 (w + d)).map some

/-- The loop, over the `d` of each byte. -/
def digitsLoop (limit : Nat) : List Nat → Nat → Option (Option Nat)
  | [], v => some (some v)
  | d :: ds, v =>
    match digitStep limit v d with
    | none => none
    | some none => some none
    | some (some v) => digitsLoop limit ds v

/-- What is returned, and what `*out` is then. -/
def digitsToU64 (s : List Byte) (limit out : Nat) : Option (Bool × Nat) :=
  if s = [] then some (false, out)
  else
    match digitsLoop limit (s.map digitOf) 0 with
    | none => none
    | some none => some (false, out)
    | some (some v) => some (true, v)

def toU64 (s : List Byte) (out : Nat) : Option (Bool × Nat) := digitsToU64 s u64Max out

/-- The sign is put on one less than the magnitude, which may be `INT64_MIN`'s. -/
def negate (magnitude : Nat) : Option Int :=
  if magnitude ≠ 0 then
    match asI64 (magnitude - 1 : Nat) with
    | none => none
    | some v =>
      match asI64 (-v) with
      | none => none
      | some v => asI64 (v - 1)
  else some 0

def toI64 (s : List Byte) (out : Int) : Option (Bool × Int) :=
  let negative : Bool := s.head? == some 45
  let limit := if negative then i64Max + 1 else i64Max
  match digitsToU64 (if negative then s.drop 1 else s) limit 0 with
  | none => none
  | some (false, _) => some (false, out)
  | some (true, magnitude) =>
    match if negative then negate magnitude else asI64 magnitude with
    | none => none
    | some v => some (true, v)

def toInt (s : List Byte) (out : Int) : Option (Bool × Int) :=
  match toI64 s 0 with
  | none => none
  | some (false, _) => some (false, out)
  | some (true, v) =>
    if v < -2 ^ 31 ∨ v > 2 ^ 31 - 1 then some (false, out) else some (true, v)

/-- `parse_length` in the same way: its loop is the one above. -/
def parseLengthTo (s : List Byte) (out : Nat) : Option (Bool × Nat) := digitsToU64 s sizeMax out

-- ---------------------------------------------------------------------------
-- The digits
-- ---------------------------------------------------------------------------

/-- A conversion is exact: it succeeds with the one value the text has, or it
has none and the output is left as it was. -/
def Exact {α : Type} (Means : α → Prop) (out : α) (r : Option (Bool × α)) : Prop :=
  (∃ v, Means v ∧ (∀ w, Means w → w = v) ∧ r = some (true, v)) ∨
    (∀ v, ¬ Means v) ∧ r = some (false, out)

variable {s : List Byte} {limit v n : Nat}

theorem asU64_eq (h : v ≤ u64Max) : asU64 v = some v := by
  rw [asU64, if_pos h]

theorem asI64_eq {v : Int} (h : -2 ^ 63 ≤ v ∧ v ≤ i64Max) : asI64 v = some v := by
  rw [asI64, if_pos h]

/-- A digit goes on exactly if the value still fits, and then nothing overflows. -/
theorem digitStep_eq (h9 : 9 ≤ limit) (hl : limit ≤ u64Max) (v d : Nat) : digitStep limit v d =
    some (if d ≤ 9 ∧ v * 10 + d ≤ limit then some (v * 10 + d) else none) := by
  unfold digitStep
  by_cases h : d ≤ 9 ∧ v * 10 + d ≤ limit
  · have h1 : asU64 (v * 10) = some (v * 10) := asU64_eq (by omega)
    have h2 : asU64 (v * 10 + d) = some (v * 10 + d) := asU64_eq (by omega)
    rw [if_neg (by omega), if_pos h, h1, Option.bind_some, h2, Option.map_some]
  · rw [if_pos (by omega), if_neg h]

theorem digitsLoop_cons (h9 : 9 ≤ limit) (hl : limit ≤ u64Max) (d : Nat) (ds : List Nat)
    (v : Nat) :
    digitsLoop limit (d :: ds) v =
      if d ≤ 9 ∧ v * 10 + d ≤ limit then digitsLoop limit ds (v * 10 + d) else some none := by
  rw [digitsLoop, digitStep_eq h9 hl]
  by_cases h : d ≤ 9 ∧ v * 10 + d ≤ limit
  · rw [if_pos h, if_pos h]
  · rw [if_neg h, if_neg h]

theorem digitsLoop_spec (h9 : 9 ≤ limit) (hl : limit ≤ u64Max) (hv : v ≤ limit) :
    digitsLoop limit (s.map digitOf) v = some (some (value dec 10 s v)) ∧
        (∀ c ∈ s, (dec c).isSome) ∧ value dec 10 s v ≤ limit ∨
      digitsLoop limit (s.map digitOf) v = some none ∧
        ¬ ((∀ c ∈ s, (dec c).isSome) ∧ value dec 10 s v ≤ limit) := by
  induction s generalizing v with
  | nil => exact .inl ⟨rfl, by simp, hv⟩
  | cons c s ih =>
    have hdec := dec_isSome_iff c
    have heq := @digitOf_eq c
    rw [List.map_cons, digitsLoop_cons h9 hl, value_cons, List.forall_mem_cons]
    generalize digitOf c = d at hdec heq ⊢
    have hle := le_value dec 10 (by omega) s (v * 10 + (dec c).getD 0)
    rw [hdec]
    by_cases hd : d ≤ 9
    · rw [heq hd] at hle ⊢
      by_cases hfit : v * 10 + d ≤ limit
      · rw [if_pos ⟨hd, hfit⟩]
        rcases ih hfit with ⟨h1, h2, h3⟩ | ⟨h1, h2⟩
        · exact .inl ⟨h1, ⟨hd, h2⟩, h3⟩
        · exact .inr ⟨h1, fun h => h2 ⟨h.1.2, h.2⟩⟩
      · rw [if_neg (fun h => hfit h.2)]
        exact .inr ⟨rfl, fun h => by omega⟩
    · rw [if_neg (fun h => hd h.1)]
      exact .inr ⟨rfl, fun h => hd h.1.1⟩

theorem digitsToU64_exact (h9 : 9 ≤ limit) (hl : limit ≤ u64Max) (s : List Byte) (out : Nat) :
    Exact (fun n => Decimal s n ∧ n ≤ limit) out (digitsToU64 s limit out) := by
  unfold digitsToU64
  by_cases h0 : s = []
  · rw [if_pos h0]
    exact .inr ⟨fun v hv => hv.1.1 h0, rfl⟩
  rw [if_neg h0]
  rcases @digitsLoop_spec s limit 0 h9 hl (Nat.zero_le _) with ⟨h1, h2, h3⟩ | ⟨h1, h2⟩
  · have hd : Decimal s (value dec 10 s 0) := ⟨h0, h2, rfl⟩
    refine .inl ⟨_, ⟨hd, h3⟩, fun w hw => hw.1.unique hd, ?_⟩
    rw [h1]
  · refine .inr ⟨fun v hv => h2 ⟨hv.1.2.1, ?_⟩, ?_⟩
    · rw [hv.1.2.2]
      exact hv.2
    · rw [h1]

-- ---------------------------------------------------------------------------
-- Signs
-- ---------------------------------------------------------------------------

/-- The text of an integer: digits, with a minus or without. -/
def Signed (s : List Byte) (v : Int) : Prop :=
  (∃ n : Nat, Decimal s n ∧ v = n) ∨ ∃ (t : List Byte) (n : Nat), s = 45 :: t ∧ Decimal t n ∧ v = -n

theorem negate_eq (h : n ≤ i64Max + 1) : negate n = some (-n : Int) := by
  unfold negate
  unfold i64Max at h
  by_cases h0 : n = 0
  · simp [h0]
  · have h1 : asI64 ((n - 1 : Nat) : Int) = some ((n - 1 : Nat) : Int) :=
      if_pos (by unfold i64Max; omega)
    have h2 : asI64 (-((n - 1 : Nat) : Int)) = some (-((n - 1 : Nat) : Int)) :=
      if_pos (by unfold i64Max; omega)
    have h3 : asI64 (-((n - 1 : Nat) : Int) - 1) = some (-((n - 1 : Nat) : Int) - 1) :=
      if_pos (by unfold i64Max; omega)
    rw [if_pos h0]
    simp only [h1, h2, h3, Option.some.injEq]
    omega

theorem decimal_minus {t : List Byte} : ¬ Decimal (45 :: t) n := by
  intro h
  have := h.2.1 45 (by simp)
  exact absurd this (by decide)

theorem toI64_exact (s : List Byte) (out : Int) :
    Exact (fun v => Signed s v ∧ -2 ^ 63 ≤ v ∧ v ≤ i64Max) out (toI64 s out) := by
  unfold toI64
  by_cases hneg : s.head? = some 45
  · obtain ⟨t, rfl⟩ := List.head?_eq_some_iff.mp hneg
    have hex := @digitsToU64_exact (i64Max + 1) (by decide) (by decide) t 0
    simp only [List.head?_cons, beq_self_eq_true, if_true, List.drop_succ_cons, List.drop_zero]
    rcases hex with ⟨n, ⟨hn, hle⟩, hu, he⟩ | ⟨hno, he⟩
    · rw [he]
      simp only [negate_eq hle]
      refine .inl ⟨-n, ⟨.inr ⟨t, n, rfl, hn, rfl⟩, ?_⟩, ?_, rfl⟩
      · unfold i64Max at hle ⊢
        omega
      · rintro w ⟨⟨m, hm, -⟩ | ⟨t', m, ht, hm, rfl⟩, -⟩
        · exact absurd hm decimal_minus
        · obtain ⟨-, rfl⟩ := List.cons.inj ht
          rw [hm.unique hn]
    · rw [he]
      refine .inr ⟨?_, rfl⟩
      rintro v ⟨⟨m, hm, -⟩ | ⟨t', m, ht, hm, rfl⟩, hlo, -⟩
      · exact absurd hm decimal_minus
      · obtain ⟨-, rfl⟩ := List.cons.inj ht
        refine hno m ⟨hm, ?_⟩
        unfold i64Max
        omega
  · have hb : (s.head? == some 45) = false := by simpa using hneg
    have hex := @digitsToU64_exact i64Max (by decide) (by decide) s 0
    have hminus (t : List Byte) : s ≠ 45 :: t := fun e => hneg (by rw [e]; rfl)
    simp only [hb, Bool.false_eq_true, if_false]
    rcases hex with ⟨n, ⟨hn, hle⟩, hu, he⟩ | ⟨hno, he⟩
    · have ha : asI64 (n : Int) = some (n : Int) := asI64_eq (by omega)
      rw [he]
      simp only [ha]
      refine .inl ⟨n, ⟨.inl ⟨n, hn, rfl⟩, by omega⟩, ?_, rfl⟩
      rintro w ⟨⟨m, hm, rfl⟩ | ⟨t', m, ht, -⟩, -⟩
      · rw [hm.unique hn]
      · exact absurd ht (hminus t')
    · rw [he]
      refine .inr ⟨?_, rfl⟩
      rintro v ⟨⟨m, hm, rfl⟩ | ⟨t', m, ht, -⟩, -, hhi⟩
      · exact hno m ⟨hm, by omega⟩
      · exact absurd ht (hminus t')

theorem toInt_exact (s : List Byte) (out : Int) :
    Exact (fun v => Signed s v ∧ -2 ^ 31 ≤ v ∧ v ≤ 2 ^ 31 - 1) out (toInt s out) := by
  unfold toInt
  rcases toI64_exact s 0 with ⟨v, ⟨hv, hlo, hhi⟩, hu, he⟩ | ⟨hno, he⟩
  · rw [he]
    dsimp only
    have huniq (w : Int) (hw : Signed s w ∧ -2 ^ 31 ≤ w ∧ w ≤ 2 ^ 31 - 1) : w = v :=
      hu w ⟨hw.1, by omega, by unfold i64Max; omega⟩
    by_cases hfit : v < -2 ^ 31 ∨ v > 2 ^ 31 - 1
    · rw [if_pos hfit]
      refine .inr ⟨fun w hw => ?_, rfl⟩
      have := huniq w hw
      omega
    · rw [if_neg hfit]
      exact .inl ⟨v, ⟨hv, by omega⟩, huniq, rfl⟩
  · rw [he]
    exact .inr ⟨fun w hw => hno w ⟨hw.1, by omega, by unfold i64Max; omega⟩, rfl⟩

-- ---------------------------------------------------------------------------
-- The encoders
-- ---------------------------------------------------------------------------

theorem Exact.eq {α : Type} {Means : α → Prop} {out v : α} {r : Option (Bool × α)}
    (h : Exact Means out r) (hv : Means v) : r = some (true, v) := by
  rcases h with ⟨w, -, hu, he⟩ | ⟨hno, -⟩
  · rw [he, hu v hv]
  · exact absurd hv (hno v)

theorem decimal_digits (h : n ≤ u64Max) : Decimal (Json.Writer.digits n) n := by
  refine reads_putDigits (by omega) (by decide) ?_
  unfold u64Max at h
  omega

theorem signed_intText (v : Int64) : Signed (Json.Writer.intText v) v.toInt := by
  have h1 := Int64.le_toInt v
  have h2 := Int64.toInt_lt v
  unfold Json.Writer.intText Json.Writer.magnitude
  split
  · rename_i hneg
    exact .inr ⟨_, _, rfl, decimal_digits (by unfold u64Max; omega), by omega⟩
  · rename_i hpos
    exact .inl ⟨_, decimal_digits (by unfold u64Max; omega), by omega⟩

theorem parseLengthTo_eq (s : List Byte) (out : Nat) :
    parseLengthTo s out = some ((parseLength s).elim (false, out) (true, ·)) := by
  rcases digitsToU64_exact (by decide) (show sizeMax ≤ u64Max by decide) s out with
    ⟨n, hn, -, he⟩ | ⟨hno, he⟩
  · rw [parseLengthTo, he, parseLength_eq_some.mpr hn]
    rfl
  · rw [parseLengthTo, he]
    cases hp : parseLength s with
    | none => rfl
    | some n => exact absurd (parseLength_eq_some.mp hp) (hno n)

/-- Integers at their limits. Every text, every conversion: it succeeds with
the value of the text if it is a number that fits the type, and else leaves its
output, and no step overflows; and it undoes its encoder. The engine reads its
lengths with the first. -/
theorem integer_text :
    (∀ (s : List Byte) (out : Nat), Exact (fun n => Decimal s n ∧ n ≤ sizeMax) out
      (parseLengthTo s out)) ∧
    (∀ (s : List Byte) (out : Nat), Exact (fun n => Decimal s n ∧ n ≤ u64Max) out (toU64 s out)) ∧
    (∀ (s : List Byte) (out : Int), Exact (fun v => Signed s v ∧ -2 ^ 63 ≤ v ∧ v ≤ i64Max) out
      (toI64 s out)) ∧
    (∀ (s : List Byte) (out : Int), Exact (fun v => Signed s v ∧ -2 ^ 31 ≤ v ∧ v ≤ 2 ^ 31 - 1) out
      (toInt s out)) ∧
    (∀ (v : UInt64) (out : Nat), parseLengthTo (putUint v.toNat) out = some (true, v.toNat)) ∧
    (∀ (v : UInt64) (out : Nat), toU64 (Json.Writer.digits v.toNat) out = some (true, v.toNat)) ∧
    (∀ (v : Int64) (out : Int), toI64 (Json.Writer.intText v) out = some (true, v.toInt)) ∧
    (∀ (s : List Byte) (out : Nat),
      parseLengthTo s out = some ((parseLength s).elim (false, out) (true, ·))) := by
  have hsize : sizeMax ≤ u64Max := by decide
  have hpos : 9 ≤ sizeMax := by decide
  refine ⟨fun s out => digitsToU64_exact hpos hsize s out,
    fun s out => digitsToU64_exact (by decide) (Nat.le_refl _) s out, toI64_exact, toInt_exact,
    ?_, ?_, ?_, parseLengthTo_eq⟩
  · intro v out
    have hv : v.toNat ≤ sizeMax := Nat.le_pred_of_lt v.toNat_lt
    exact (digitsToU64_exact hpos hsize _ out).eq ⟨decimal_putUint hv, hv⟩
  · intro v out
    have hv : v.toNat ≤ u64Max := Nat.le_pred_of_lt v.toNat_lt
    exact (digitsToU64_exact (by decide) (Nat.le_refl _) _ out).eq ⟨decimal_digits hv, hv⟩
  · intro v out
    have h1 := Int64.le_toInt v
    have h2 := Int64.toInt_lt v
    exact (toI64_exact _ out).eq ⟨signed_intText v, by omega, by unfold i64Max; omega⟩

end Ioxd.Http
