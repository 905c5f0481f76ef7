import Mathlib.Algebra.Group.Int.Defs
import Mathlib.Algebra.Group.Nat.Defs
import Mathlib.Logic.Function.Basic
import Mathlib.Tactic.Common

/-!
# Rings with wrapping counters

An array with two counters that only grow, modulo 2³². The slot of a counter is
its value modulo the capacity; a capacity that divides 2³² makes the slots go
round with the counters. `Holds` says which items there are from one counter to
the other, and what a push, a pop and a release of several leave.
-/

namespace Rings

variable {α : Type} {cap : Nat} {slots : Nat → α} {head tail : UInt32} {xs : List α}

theorem and_mask (hcap : cap.isPowerOfTwo) (n : Nat) : n &&& (cap - 1) = n % cap := by
  obtain ⟨k, rfl⟩ := hcap
  exact Nat.and_two_pow_sub_one_eq_mod n k

theorem dvd_of_isPowerOfTwo (hcap : cap.isPowerOfTwo) (hlt : cap < 2 ^ 32) : cap ∣ 2 ^ 32 := by
  obtain ⟨k, rfl⟩ := hcap
  have hk : k < 32 := (Nat.pow_lt_pow_iff_right (by decide)).mp hlt
  exact Nat.pow_dvd_pow 2 (Nat.le_of_lt hk)

theorem toNat_add_ofNat (c : UInt32) (i : Nat) :
    (c + UInt32.ofNat i).toNat = (c.toNat + i) % 2 ^ 32 := by
  rw [UInt32.toNat_add, UInt32.toNat_ofNat', Nat.add_mod_mod]

theorem slot_add (hcap : cap ∣ 2 ^ 32) (c : UInt32) (i : Nat) :
    (c + UInt32.ofNat i).toNat % cap = (c.toNat + i) % cap := by
  rw [toNat_add_ofNat, Nat.mod_mod_of_dvd _ hcap]

/-- Positions less than the capacity apart have different slots. -/
theorem slot_ne {i j n : Nat} (hij : i < j) (hj : j - i < cap) : (n + i) % cap ≠ (n + j) % cap := by
  intro h
  have h0 := Nat.sub_mod_eq_zero_of_mod_eq h.symm
  rw [Nat.add_sub_add_left, Nat.mod_eq_of_lt hj] at h0
  omega

/-- The items from the one counter to the other, the oldest first. -/
structure Holds (cap : Nat) (slots : Nat → α) (head tail : UInt32) (xs : List α) : Prop where
  bounded : xs.length ≤ cap
  span : tail = head + UInt32.ofNat xs.length
  item : ∀ i x, xs[i]? = some x → slots ((head.toNat + i) % cap) = x

theorem Holds.nil (cap : Nat) (slots : Nat → α) (c : UInt32) : Holds cap slots c c [] where
  bounded := Nat.zero_le _
  span := by simp
  item i x h := by simp at h

theorem Holds.count (h : Holds cap slots head tail xs) (hcap : cap < 2 ^ 32) :
    (tail - head).toNat = xs.length := by
  have hlt : xs.length < 2 ^ 32 := Nat.lt_of_le_of_lt h.bounded hcap
  have hh := head.toNat_lt
  rw [h.span, UInt32.toNat_sub, toNat_add_ofNat]
  omega

/-- Nothing is between equal counters, and nothing else makes them equal. -/
theorem Holds.eq_iff (h : Holds cap slots head tail xs) (hcap : cap < 2 ^ 32) :
    tail = head ↔ xs = [] := by
  have hn := h.count hcap
  constructor
  · rintro rfl
    rw [UInt32.sub_self] at hn
    exact List.length_eq_zero_iff.mp hn.symm
  · rintro rfl
    simpa using h.span

theorem Holds.get (h : Holds cap slots head tail xs) (hcap : cap ∣ 2 ^ 32) {i : Nat} {x : α}
    (hx : xs[i]? = some x) : slots ((head + UInt32.ofNat i).toNat % cap) = x := by
  rw [slot_add hcap]
  exact h.item i x hx

theorem Holds.push (h : Holds cap slots head tail xs) (hcap : cap ∣ 2 ^ 32)
    (hroom : xs.length < cap) (x : α) :
    Holds cap (Function.update slots (tail.toNat % cap) x) head (tail + 1) (xs ++ [x]) where
  bounded := by
    rw [List.length_append]
    exact hroom
  span := by
    rw [h.span, List.length_append, List.length_singleton, UInt32.ofNat_add, ← UInt32.add_assoc]
    rfl
  item i y hy := by
    rw [h.span, slot_add hcap]
    rcases Nat.lt_trichotomy i xs.length with hi | rfl | hi
    · rw [List.getElem?_append_left hi] at hy
      rw [Function.update_of_ne (slot_ne hi (by omega))]
      exact h.item i y hy
    · simp only [List.getElem?_concat_length, Option.some.injEq] at hy
      rw [Function.update_self, hy]
    · rw [List.getElem?_eq_none (by rw [List.length_append, List.length_singleton]; omega)] at hy
      cases hy

theorem Holds.drop (h : Holds cap slots head tail xs) (hcap : cap ∣ 2 ^ 32) {n : Nat}
    (hn : n ≤ xs.length) : Holds cap slots (head + UInt32.ofNat n) tail (xs.drop n) where
  bounded := by
    have := h.bounded
    rw [List.length_drop]
    omega
  span := by
    rw [h.span, List.length_drop, UInt32.add_assoc, ← UInt32.ofNat_add]
    congr 2
    omega
  item i x hx := by
    rw [← Nat.mod_add_mod, slot_add hcap, Nat.mod_add_mod, Nat.add_assoc]
    exact h.item (n + i) x (by rwa [List.getElem?_drop] at hx)

theorem Holds.pop {x : α} (h : Holds cap slots head tail (x :: xs)) (hcap : cap ∣ 2 ^ 32) :
    slots (head.toNat % cap) = x ∧ Holds cap slots (head + 1) tail xs :=
  ⟨h.item 0 x rfl, h.drop hcap (n := 1) (by simp)⟩

end Rings
