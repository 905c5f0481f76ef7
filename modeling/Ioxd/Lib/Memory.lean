import Mathlib.Algebra.Group.Int.Defs
import Mathlib.Algebra.GroupWithZero.Nat
import Mathlib.Tactic.Common
import Mathlib.Data.List.Basic

/-!
# Flat memory

A memory is a total map from offsets to cells. `read` takes a span out of it,
`write` lays a list of cells over it; `memcpy` is a `write` of what was read
elsewhere and `memmove` a `write` of what was read in the same memory before.
The laws say when a span survives a write (it lies below or above it) and how
spans split.
-/

namespace Flat

abbrev Mem (α : Type) := Nat → α

variable {α : Type}

/-- The `n` cells from `pos` on. -/
def Mem.read (m : Mem α) (pos n : Nat) : List α := (List.range n).map fun i => m (pos + i)

/-- The cells `xs` from `pos` on, everything else as it was. -/
def Mem.write (m : Mem α) (pos : Nat) (xs : List α) : Mem α := fun i =>
  if pos ≤ i then (xs[i - pos]?).getD (m i) else m i

@[simp] theorem length_read (m : Mem α) (pos n : Nat) : (m.read pos n).length = n := by
  simp [Mem.read]

@[simp] theorem read_zero (m : Mem α) (pos : Nat) : m.read pos 0 = [] := rfl

@[simp] theorem read_eq_nil (m : Mem α) : m.read pos n = [] ↔ n = 0 := by
  simp [Mem.read]

theorem getElem?_read (m : Mem α) (pos n i : Nat) :
    (m.read pos n)[i]? = if i < n then some (m (pos + i)) else none := by
  by_cases h : i < n <;> simp [Mem.read, h]

theorem read_congr {m m' : Mem α} (h : ∀ i, pos ≤ i → i < pos + n → m i = m' i) :
    m.read pos n = m'.read pos n := by
  apply List.map_congr_left
  intro i hi
  have hi : i < n := by simpa using hi
  exact h _ (by omega) (by omega)

theorem read_add (m : Mem α) (pos a b : Nat) :
    m.read pos (a + b) = m.read pos a ++ m.read (pos + a) b := by
  apply List.ext_getElem?
  intro i
  by_cases h : i < a
  · rw [List.getElem?_append_left (by simpa using h)]
    have hb : i < a + b := by omega
    simp only [getElem?_read, h, hb, if_true]
  · rw [List.getElem?_append_right (by simpa using Nat.le_of_not_lt h)]
    simp only [getElem?_read, length_read]
    have hp : pos + a + (i - a) = pos + i := by omega
    by_cases hb : i < a + b
    · have : i - a < b := by omega
      simp [hb, this, hp]
    · have : ¬ i - a < b := by omega
      simp [hb, this]

/-- A span read in two pieces, the second piece named by where it starts. -/
theorem read_split (m : Mem α) (h : k = pos + a) (hn : n = a + b) :
    m.read pos n = m.read pos a ++ m.read k b := by
  subst h hn
  exact read_add ..

theorem take_read (m : Mem α) (pos : Nat) (h : k ≤ n) : (m.read pos n).take k = m.read pos k := by
  rw [read_split m (a := k) (b := n - k) rfl (by omega),
    List.take_append_of_le_length (by simp), List.take_of_length_le (by simp)]

theorem drop_read (m : Mem α) (pos n k : Nat) :
    (m.read pos n).drop k = m.read (pos + k) (n - k) := by
  by_cases h : k ≤ n
  · conv => lhs; rw [read_split m (a := k) (b := n - k) rfl (by omega)]
    have hk : k = (m.read pos k).length := by simp
    conv => lhs; arg 1; rw [hk]
    exact List.drop_left
  · have hn : n - k = 0 := by omega
    rw [hn, read_zero]
    exact List.drop_eq_nil_of_le (by simp; omega)

theorem write_apply_below (m : Mem α) (xs : List α) (h : i < pos) : m.write pos xs i = m i := by
  have : ¬ pos ≤ i := by omega
  simp [Mem.write, this]

theorem write_apply_above (m : Mem α) (xs : List α) (h : pos + xs.length ≤ i) :
    m.write pos xs i = m i := by
  have hn : xs[i - pos]? = none := List.getElem?_eq_none (by omega)
  simp [Mem.write, hn]

theorem write_apply_inside (m : Mem α) (xs : List α) (h : k < xs.length) :
    m.write pos xs (pos + k) = xs.get ⟨k, h⟩ := by
  simp [Mem.write, h]

@[simp] theorem write_nil (m : Mem α) (pos : Nat) : m.write pos [] = m := by
  funext i
  simp [Mem.write]

theorem read_write_self (m : Mem α) (pos : Nat) (xs : List α) :
    (m.write pos xs).read pos xs.length = xs := by
  apply List.ext_getElem?
  intro i
  rw [getElem?_read]
  by_cases h : i < xs.length
  · simp [h, write_apply_inside m xs h]
  · simp [h]

theorem read_write_eq (m : Mem α) (xs : List α) (hn : n = xs.length) :
    (m.write pos xs).read pos n = xs := by
  subst hn
  exact read_write_self ..

theorem read_write_behind (m : Mem α) (xs : List α) (h : pos = q + n) :
    (m.write pos xs).read q (n + xs.length) = m.read q n ++ xs := by
  rw [read_split _ h rfl, read_write_self]
  congr 1
  exact read_congr fun _ _ hi => write_apply_below m xs (by omega)

theorem read_write_below (m : Mem α) (xs : List α) (h : q + n ≤ pos) :
    (m.write pos xs).read q n = m.read q n :=
  read_congr fun _ _ hi => write_apply_below m xs (by omega)

theorem read_write_above (m : Mem α) (xs : List α) (h : pos + xs.length ≤ q) :
    (m.write pos xs).read q n = m.read q n :=
  read_congr fun _ hq _ => write_apply_above m xs (by omega)

end Flat
