import Mathlib.Tactic.Common

/-!
# The Gregorian calendar

Proleptic: the rule for leap years holds in every year, those before 1 too. Days
are counted from the first of January 1970. `Date.days` counts up to a date, and
`Date.ofDays` finds the date of a count: the four hundred years it is in, then
the hundred, the four and the year, each but the last of its kind of one length.
-/

namespace Calendar

def Leap (year : Int) : Prop := year % 4 = 0 ∧ (year % 100 ≠ 0 ∨ year % 400 = 0)

instance (year : Int) : Decidable (Leap year) := inferInstanceAs (Decidable (_ ∧ _))

def monthLength (year : Int) (month : Nat) : Nat :=
  if month = 1 then if Leap year then 29 else 28
  else if month = 3 ∨ month = 5 ∨ month = 8 ∨ month = 10 then 30
  else 31

def daysBeforeMonth (year : Int) : Nat → Nat
  | 0 => 0
  | month + 1 => daysBeforeMonth year month + monthLength year month

def yearLength (year : Int) : Nat := daysBeforeMonth year 12

/-- The leap days of the years in front of this one, from 1 on, tell the days
from the first of January 1970 to its own. -/
def daysBeforeYear (year : Int) : Int :=
  365 * (year - 1) + (year - 1) / 4 - (year - 1) / 100 + (year - 1) / 400 - 719162

@[ext] structure Date where
  year : Int
  month : Nat
  day : Nat
  monthOk : month < 12
  dayOk : 1 ≤ day ∧ day ≤ monthLength year month

def Date.days (d : Date) : Int :=
  daysBeforeYear d.year + daysBeforeMonth d.year d.month + (d.day - 1 : Nat)

theorem yearLength_eq (year : Int) : yearLength year = if Leap year then 366 else 365 := by
  by_cases h : Leap year
  · simp [yearLength, daysBeforeMonth, monthLength, h]
  · simp [yearLength, daysBeforeMonth, monthLength, h]

-- ---------------------------------------------------------------------------
-- The date of a count
-- ---------------------------------------------------------------------------

def yearOf (days : Int) : Int × Nat :=
  let n := days + 719162
  let n400 := n / 146097
  let r400 := n % 146097
  let n100 := min (r400 / 36524) 3
  let r100 := r400 - n100 * 36524
  let n4 := r100 / 1461
  let r4 := r100 % 1461
  let n1 := min (r4 / 365) 3
  (400 * n400 + 100 * n100 + 4 * n4 + n1 + 1, (r4 - n1 * 365).toNat)

section Cycles

-- a year as the last of so many four hundreds, hundreds, fours and ones
variable {a b c e : Int} (hb : 0 ≤ b ∧ b ≤ 3) (hc : 0 ≤ c ∧ c ≤ 24) (he : 0 ≤ e ∧ e ≤ 3)

include hb hc he

theorem daysBeforeYear_cycles : daysBeforeYear (400 * a + 100 * b + 4 * c + e + 1) =
    146097 * a + 36524 * b + 1461 * c + 365 * e - 719162 := by
  unfold daysBeforeYear
  omega

theorem leap_cycles :
    Leap (400 * a + 100 * b + 4 * c + e + 1) ↔ e = 3 ∧ (c ≠ 24 ∨ b = 3) := by
  unfold Leap
  omega

end Cycles

theorem yearOf_spec (days : Int) :
    daysBeforeYear (yearOf days).1 + (yearOf days).2 = days ∧
      (yearOf days).2 < yearLength (yearOf days).1 := by
  unfold yearOf
  dsimp only
  generalize hn : days + 719162 = n
  generalize ha : n / 146097 = a
  generalize hr : n % 146097 = r
  generalize hb : min (r / 36524) 3 = b
  generalize hs : r - b * 36524 = s
  generalize hc : s / 1461 = c
  generalize hu : s % 1461 = u
  generalize he : min (u / 365) 3 = e
  have hb3 : 0 ≤ b ∧ b ≤ 3 := by omega
  have hs0 : 0 ≤ s ∧ (s < 36524 ∨ b = 3 ∧ s ≤ 36524) := by omega
  have hc24 : 0 ≤ c ∧ c ≤ 24 := by omega
  have he3 : 0 ≤ e ∧ e ≤ 3 := by omega
  have hv : 0 ≤ u - e * 365 ∧ (u - e * 365 < 365 ∨ e = 3 ∧ u - e * 365 = 365) := by omega
  rw [daysBeforeYear_cycles hb3 hc24 he3, yearLength_eq]
  simp only [leap_cycles hb3 hc24 he3]
  constructor
  · omega
  · split
    · omega
    · omega

/-- The month that a day of a year is in, from `month` on, and the days of it in
front. -/
def monthOf (year : Int) : Nat → Nat → Nat → Nat × Nat
  | 0, month, rest => (month, rest)
  | left + 1, month, rest =>
    if rest < monthLength year month then (month, rest)
    else monthOf year left (month + 1) (rest - monthLength year month)

theorem monthOf_spec (year : Int) {left month rest : Nat} (hl : left + month = 12)
    (h : daysBeforeMonth year month + rest < yearLength year) :
    (monthOf year left month rest).1 < 12 ∧
      (monthOf year left month rest).2 < monthLength year (monthOf year left month rest).1 ∧
      daysBeforeMonth year (monthOf year left month rest).1 + (monthOf year left month rest).2 =
        daysBeforeMonth year month + rest := by
  induction left generalizing month rest with
  | zero =>
    obtain rfl : month = 12 := by omega
    unfold yearLength at h
    omega
  | succ left ih =>
    unfold monthOf
    by_cases hr : rest < monthLength year month
    · rw [if_pos hr]
      exact ⟨by omega, hr, rfl⟩
    · rw [if_neg hr]
      have hsum : daysBeforeMonth year (month + 1) + (rest - monthLength year month) =
          daysBeforeMonth year month + rest := by
        rw [daysBeforeMonth]
        omega
      rw [← hsum] at h ⊢
      exact ih (by omega) h

theorem monthOf_year (year : Int) {rest : Nat} (h : rest < yearLength year) :
    (monthOf year 12 0 rest).1 < 12 ∧
      (monthOf year 12 0 rest).2 < monthLength year (monthOf year 12 0 rest).1 ∧
      daysBeforeMonth year (monthOf year 12 0 rest).1 + (monthOf year 12 0 rest).2 = rest := by
  have hm := @monthOf_spec year 12 0 rest rfl (by rw [daysBeforeMonth, Nat.zero_add]; exact h)
  rwa [daysBeforeMonth, Nat.zero_add] at hm

def Date.ofDays (days : Int) : Date where
  year := (yearOf days).1
  month := (monthOf (yearOf days).1 12 0 (yearOf days).2).1
  day := (monthOf (yearOf days).1 12 0 (yearOf days).2).2 + 1
  monthOk := (monthOf_year _ (yearOf_spec days).2).1
  dayOk := ⟨by omega, (monthOf_year _ (yearOf_spec days).2).2.1⟩

theorem Date.days_ofDays (days : Int) : (Date.ofDays days).days = days := by
  obtain ⟨hy, hd⟩ := yearOf_spec days
  obtain ⟨-, -, hm⟩ := monthOf_year _ hd
  unfold Date.days Date.ofDays
  dsimp only
  omega

/-- The last of February 2000. -/
example : (Date.ofDays 11016).year = 2000 ∧ (Date.ofDays 11016).month = 1 ∧
    (Date.ofDays 11016).day = 29 := by decide

end Calendar
