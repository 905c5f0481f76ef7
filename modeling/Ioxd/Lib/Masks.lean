import Mathlib.Algebra.Group.Int.Defs
import Mathlib.Algebra.Group.Nat.Defs
import Mathlib.Tactic.Common

/-!
# The first of a range, and the bits of a mask

Which number of a range is the first with a property, and a loop that visits
the set bits of a mask from the lowest up by clearing one at a time. Code that
tests several places at once and then looks at the few that passed is such a
loop: it finds the first place of all.
-/

namespace Masks

-- ---------------------------------------------------------------------------
-- The first of a range
-- ---------------------------------------------------------------------------

/-- The first number with a property, of those from `lo` on and below `hi`. -/
inductive First (p : Nat → Prop) (lo hi : Nat) : Option Nat → Prop
  | found {i : Nat} : lo ≤ i → i < hi → p i → (∀ j, lo ≤ j → j < i → ¬ p j) → First p lo hi (some i)
  | missing : (∀ j, lo ≤ j → j < hi → ¬ p j) → First p lo hi none

variable {p q : Nat → Prop} {lo mid hi : Nat} {r r' : Option Nat}

theorem First.unique (h : First p lo hi r) (h' : First p lo hi r') : r = r' := by
  cases h with
  | found hl hh hp hno =>
    cases h' with
    | found hl' hh' hp' hno' =>
      rename_i i i'
      rcases Nat.lt_trichotomy i i' with h | rfl | h
      · exact absurd hp (hno' i hl h)
      · rfl
      · exact absurd hp' (hno i' hl' h)
    | missing hno' => exact absurd hp (hno' _ hl hh)
  | missing hno =>
    cases h' with
    | found hl' hh' hp' _ => exact absurd hp' (hno _ hl' hh')
    | missing => rfl

theorem First.congr (h : First p lo hi r) (hpq : ∀ i, lo ≤ i → i < hi → (p i ↔ q i)) :
    First q lo hi r := by
  cases h with
  | found hl hh hp hno =>
    refine .found hl hh ((hpq _ hl hh).mp hp) fun j hj hji hq => ?_
    exact hno j hj hji ((hpq j hj (Nat.lt_trans hji hh)).mpr hq)
  | missing hno => exact .missing fun j hj hjh hq => hno j hj hjh ((hpq j hj hjh).mpr hq)

theorem First.append (h : ∀ j, lo ≤ j → j < mid → ¬ p j) (hlm : lo ≤ mid)
    (h' : First p mid hi r) : First p lo hi r := by
  have hno (b : Nat) (hb : ∀ j, mid ≤ j → j < b → ¬ p j) : ∀ j, lo ≤ j → j < b → ¬ p j := by
    intro j hj hjb
    rcases Nat.lt_or_ge j mid with hm | hm
    · exact h j hj hm
    · exact hb j hm hjb
  cases h' with
  | found hl hh hp hno' => exact .found (Nat.le_trans hlm hl) hh hp (hno _ hno')
  | missing hno' => exact .missing (hno _ hno')

theorem First.extend {i : Nat} (h : First p lo mid (some i)) (hmh : mid ≤ hi) :
    First p lo hi (some i) := by
  cases h with
  | found hl hh hp hno => exact .found hl (Nat.lt_of_lt_of_le hh hmh) hp hno

theorem First.absent (h : First p lo hi none) : ∀ j, lo ≤ j → j < hi → ¬ p j := by
  cases h with
  | missing hno => exact hno

theorem first_range (b : Nat → Bool) (n : Nat) :
    First (b · = true) 0 n ((List.range n).find? b) := by
  cases h : (List.range n).find? b with
  | none =>
    rw [List.find?_range_eq_none] at h
    refine .missing fun j _ hj hb => ?_
    have := h j hj
    simp [hb] at this
  | some i =>
    obtain ⟨hb, hi, hno⟩ := List.find?_range_eq_some.mp h
    refine .found (Nat.zero_le _) (List.mem_range.mp hi) hb fun j _ hj hb' => ?_
    have := hno j hj
    simp [hb'] at this

-- ---------------------------------------------------------------------------
-- The bits of a mask
-- ---------------------------------------------------------------------------

/-- The mask whose bit `j` is the top bit of byte `j`. -/
def movemask (v : List UInt8) : Nat := v.foldr (fun b m => b.toNat / 128 + 2 * m) 0

theorem testBit_movemask (v : List UInt8) (j : Nat) :
    (movemask v).testBit j = decide (128 ≤ (v.getD j 0).toNat) := by
  induction v generalizing j with
  | nil => simp [movemask]
  | cons b v ih =>
    have hb := b.toNat_lt
    have hm : movemask (b :: v) = b.toNat / 128 + 2 * movemask v := rfl
    cases j with
    | zero =>
      rw [hm, Nat.testBit_zero, List.getD_cons_zero]
      congr 1
      apply propext
      omega
    | succ j =>
      rw [hm, Nat.testBit_succ, List.getD_cons_succ, ← ih]
      congr 1
      omega

/-- How many bits are clear below the lowest one set, of `w` bits. -/
def ctz (w m : Nat) : Nat := ((List.range w).find? m.testBit).getD w

variable {w m : Nat}

theorem exists_testBit (h : m ≠ 0) : ∃ j, m.testBit j = true := by
  by_contra hc
  refine h (Nat.eq_of_testBit_eq fun j => ?_)
  rw [Nat.zero_testBit, ← Bool.not_eq_true]
  exact fun hj => hc ⟨j, hj⟩

theorem ctz_spec (h : m ≠ 0) (hw : m < 2 ^ w) :
    m.testBit (ctz w m) = true ∧ ∀ i < ctz w m, m.testBit i = false := by
  obtain ⟨j, hj⟩ := exists_testBit h
  have hjw : j < w := by
    refine Nat.lt_of_not_le fun hle => ?_
    rw [Nat.testBit_lt_two_pow (Nat.lt_of_lt_of_le hw (Nat.pow_le_pow_right (by omega) hle))] at hj
    exact Bool.false_ne_true hj
  have hfirst := first_range m.testBit w
  unfold ctz
  cases hf : (List.range w).find? m.testBit with
  | none =>
    rw [hf] at hfirst
    exact absurd hj (hfirst.absent j (Nat.zero_le _) hjw)
  | some i =>
    rw [hf] at hfirst
    cases hfirst with
    | found _ _ hp hno =>
      refine ⟨hp, fun k hk => ?_⟩
      rw [← Bool.not_eq_true]
      exact hno k (Nat.zero_le _) hk

theorem testBit_clear {j : Nat} (hj : m.testBit j = true) (hlow : ∀ i < j, m.testBit i = false)
    (i : Nat) : (m &&& (m - 1)).testBit i = (m.testBit i && decide (i ≠ j)) := by
  have hmod : m % 2 ^ j = 0 := by
    refine Nat.eq_of_testBit_eq fun i => ?_
    rw [Nat.testBit_mod_two_pow, Nat.zero_testBit]
    by_cases hi : i < j
    · rw [hlow i hi, Bool.and_false]
    · simp [hi]
  have hodd : m / 2 ^ j % 2 = 1 := by
    have h0 : (m / 2 ^ j).testBit 0 = true := by rw [Nat.testBit_div_two_pow, Nat.zero_add, hj]
    rw [Nat.testBit_zero] at h0
    exact of_decide_eq_true h0
  have hpos : 0 < 2 ^ j := Nat.two_pow_pos j
  obtain ⟨q, hq⟩ : ∃ q, m = 2 ^ (j + 1) * q + 2 ^ j := by
    refine ⟨m / 2 ^ j / 2, ?_⟩
    have h1 := Nat.div_add_mod m (2 ^ j)
    have h2 := Nat.div_add_mod (m / 2 ^ j) 2
    rw [hodd] at h2
    rw [hmod, ← h2, Nat.mul_add, Nat.mul_one, ← Nat.mul_assoc, ← Nat.pow_succ] at h1
    exact h1.symm
  have hpred : m - 1 = 2 ^ (j + 1) * q + (2 ^ j - 1) := by omega
  have hlt : 2 ^ j < 2 ^ (j + 1) := Nat.pow_lt_pow_right (by omega) (Nat.lt_succ_self j)
  rw [Nat.testBit_and, hpred, hq, Nat.testBit_two_pow_mul_add _ hlt,
    Nat.testBit_two_pow_mul_add _ (by omega), Nat.testBit_two_pow, Nat.testBit_two_pow_sub_one]
  by_cases hi : i < j + 1
  · simp only [if_pos hi]
    by_cases hij : j = i
    · simp [hij]
    · simp [hij]
  · have hne : i ≠ j := by omega
    simp [hi, hne]

theorem clear_lt (h : m ≠ 0) : m &&& (m - 1) < m :=
  Nat.lt_of_le_of_lt Nat.and_le_right (Nat.sub_one_lt h)

/-- `for (; m; m &= m - 1)`, with a test that may not be possible at every bit. -/
def scan (w : Nat) (test : Nat → Option Bool) (m : Nat) : Option (Option Nat) :=
  if h : m = 0 then some none
  else do
    if ← test (ctz w m) then return some (ctz w m)
    else scan w test (m &&& (m - 1))
termination_by m
decreasing_by exact clear_lt h

theorem scan_first {test : Nat → Option Bool} (hw : m < 2 ^ w)
    (ht : ∀ j, m.testBit j = true → ∃ b, test j = some b) :
    ∃ r, scan w test m = some r ∧
      First (fun j => m.testBit j = true ∧ test j = some true) 0 w r := by
  induction m using Nat.strongRecOn with
  | _ m ih =>
    unfold scan
    by_cases h : m = 0
    · refine ⟨none, dif_pos h, .missing fun j _ _ hj => ?_⟩
      rw [h, Nat.zero_testBit] at hj
      exact Bool.false_ne_true hj.1
    · obtain ⟨hset, hlow⟩ := ctz_spec h hw
      obtain ⟨b, hb⟩ := ht _ hset
      rw [dif_neg h, hb]
      cases b with
      | true =>
        refine ⟨some (ctz w m), rfl, .found (Nat.zero_le _) ?_ ⟨hset, hb⟩ fun j _ hj hc => ?_⟩
        · refine Nat.lt_of_not_le fun hle => ?_
          rw [Nat.testBit_lt_two_pow (Nat.lt_of_lt_of_le hw
            (Nat.pow_le_pow_right (by omega) hle))] at hset
          exact Bool.false_ne_true hset
        · rw [hlow j hj] at hc
          exact Bool.false_ne_true hc.1
      | false =>
        have hbits := testBit_clear hset hlow
        obtain ⟨r, hr, hfirst⟩ := ih _ (clear_lt h) (Nat.lt_trans (clear_lt h) hw) fun j hj => by
          rw [hbits j, Bool.and_eq_true] at hj
          exact ht j hj.1
        refine ⟨r, hr, hfirst.congr fun i _ _ => ?_⟩
        rw [hbits i, Bool.and_eq_true, decide_eq_true_eq]
        refine ⟨fun hi => ⟨hi.1.1, hi.2⟩, fun hi => ⟨⟨hi.1, fun he => ?_⟩, hi.2⟩⟩
        rw [he, hb] at hi
        exact absurd hi.2 (by decide)

end Masks
