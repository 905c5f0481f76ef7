import Mathlib.Data.List.Basic
import Mathlib.Logic.Function.Basic
import Mathlib.Tactic.Common

/-!
# Linked lists

A pointer field as a function from a node to the next one. `Seg` are the nodes
met on the way from one pointer to another; a way that ends at all visits no
node twice. `Dll` are two such ways through the same nodes, one the other's
reverse, with the pointers to their ends.
-/

namespace Links

open Function (update update_self update_of_ne)

variable {α : Type} {next next' : α → Option α} {p q r : Option α} {a b : α} {l l' xs ys : List α}

/-- The nodes from `p` to `q`. -/
def Seg (next : α → Option α) : Option α → List α → Option α → Prop
  | p, [], q => p = q
  | p, a :: l, q => p = some a ∧ Seg next (next a) l q

theorem seg_append : Seg next p (l ++ l') q ↔ ∃ r, Seg next p l r ∧ Seg next r l' q := by
  induction l generalizing p with
  | nil =>
    constructor
    · intro h
      exact ⟨p, rfl, h⟩
    · rintro ⟨r, rfl, h⟩
      exact h
  | cons a l ih =>
    constructor
    · rintro ⟨hp, h⟩
      obtain ⟨r, h1, h2⟩ := ih.mp h
      exact ⟨r, ⟨hp, h1⟩, h2⟩
    · rintro ⟨r, ⟨hp, h1⟩, h2⟩
      exact ⟨hp, ih.mpr ⟨r, h1, h2⟩⟩

theorem seg_mid : Seg next p (xs ++ a :: ys) q ↔ Seg next p xs (some a) ∧ Seg next (next a) ys q := by
  rw [seg_append]
  constructor
  · rintro ⟨r, h1, rfl, h2⟩
    exact ⟨h1, h2⟩
  · rintro ⟨h1, h2⟩
    exact ⟨some a, h1, rfl, h2⟩

theorem Seg.congr (h : Seg next p l q) (hn : ∀ a ∈ l, next' a = next a) : Seg next' p l q := by
  induction l generalizing p with
  | nil => exact h
  | cons a l ih =>
    refine ⟨h.1, ?_⟩
    rw [hn a (List.mem_cons_self ..)]
    exact ih h.2 fun b hb => hn b (List.mem_cons_of_mem _ hb)

theorem Seg.unique (h : Seg next p l none) (h' : Seg next p l' none) : l = l' := by
  induction l generalizing p l' with
  | nil =>
    cases l' with
    | nil => rfl
    | cons b l' =>
      have hp : p = none := h
      rw [hp] at h'
      exact absurd h'.1 (by simp)
  | cons a l ih =>
    cases l' with
    | nil =>
      have hp : p = none := h'
      rw [hp] at h
      exact absurd h.1 (by simp)
    | cons b l' =>
      obtain rfl : a = b := Option.some.inj (h.1.symm.trans h'.1)
      rw [ih h.2 h'.2]

theorem Seg.nodup (h : Seg next p l none) : l.Nodup := by
  induction l generalizing p with
  | nil => exact List.nodup_nil
  | cons a l ih =>
    refine List.nodup_cons.mpr ⟨fun ha => ?_, ih h.2⟩
    -- the way from the second `a` would be the way from the first
    obtain ⟨xs, ys, rfl⟩ := List.append_of_mem ha
    have h2 : Seg next (some a) (a :: ys) none := ⟨rfl, (seg_mid.mp h.2).2⟩
    have h1 : Seg next (some a) (a :: (xs ++ a :: ys)) none := ⟨rfl, h.2⟩
    have he := congrArg List.length (h1.unique h2)
    simp only [List.length_cons, List.length_append] at he
    omega

theorem Seg.head (h : Seg next p l none) : p = l.head? := by
  cases l with
  | nil => exact h
  | cons a l => exact h.1

theorem Seg.next_eq (h : Seg next p (xs ++ a :: ys) none) : next a = ys.head? :=
  (seg_mid.mp h).2.head

/-- The nodes from the newest to the oldest, linked both ways. -/
structure Dll (newer older : α → Option α) (newest oldest : Option α) (l : List α) : Prop where
  down : Seg older newest l none
  up : Seg newer oldest l.reverse none

variable {newer older : α → Option α} {newest oldest : Option α}

theorem Dll.nodup (h : Dll newer older newest oldest l) : l.Nodup := h.down.nodup

theorem Dll.newest_eq (h : Dll newer older newest oldest l) : newest = l.head? := h.down.head

theorem Dll.oldest_eq (h : Dll newer older newest oldest l) : oldest = l.getLast? := by
  rw [h.up.head, List.head?_reverse]

theorem Dll.older_eq (h : Dll newer older newest oldest (xs ++ a :: ys)) : older a = ys.head? :=
  h.down.next_eq

theorem Dll.newer_eq (h : Dll newer older newest oldest (xs ++ a :: ys)) :
    newer a = xs.getLast? := by
  have hu := h.up
  rw [List.reverse_append, List.reverse_cons, List.append_assoc] at hu
  exact hu.next_eq.trans List.head?_reverse

theorem Dll.congr {newer' older' : α → Option α} (h : Dll newer older newest oldest l)
    (hn : ∀ a ∈ l, newer' a = newer a) (ho : ∀ a ∈ l, older' a = older a) :
    Dll newer' older' newest oldest l :=
  ⟨h.down.congr ho, h.up.congr fun b hb => hn b (List.mem_reverse.mp hb)⟩

-- ---------------------------------------------------------------------------
-- Changing a list
-- ---------------------------------------------------------------------------

variable [DecidableEq α]

theorem Seg.update_notMem (h : Seg next p l q) (ha : a ∉ l) (v : Option α) :
    Seg (update next a v) p l q := by
  refine h.congr fun b hb => ?_
  have hne : b ≠ a := fun e => ha (e ▸ hb)
  rw [update_of_ne hne]

theorem Seg.redirect (h : Seg next p (xs ++ [b]) q) (hb : b ∉ xs) (r : Option α) :
    Seg (update next b r) p (xs ++ [b]) r := by
  obtain ⟨h1, -⟩ := seg_mid.mp h
  exact seg_mid.mpr ⟨h1.update_notMem hb r, update_self ..⟩

theorem Seg.unlink (h : Seg next p (xs ++ b :: a :: ys) none) :
    Seg (update next b (next a)) p (xs ++ b :: ys) none := by
  have hnd := h.nodup
  have hb : b ∉ xs ∧ b ∉ ys := by
    rw [List.nodup_append, List.nodup_cons, List.mem_cons, not_or] at hnd
    exact ⟨fun hm => hnd.2.2 b hm b (List.mem_cons_self ..) rfl, hnd.2.1.1.2⟩
  obtain ⟨h1, -, h2⟩ := seg_mid.mp h
  refine seg_mid.mpr ⟨h1.update_notMem hb.1 _, ?_⟩
  rw [update_self]
  exact h2.update_notMem hb.2 _

theorem Seg.push (h : Seg next p l q) (ha : a ∉ l) : Seg (update next a p) (some a) (a :: l) q := by
  refine ⟨rfl, ?_⟩
  rw [update_self]
  exact h.update_notMem ha p

theorem Seg.snoc (h : Seg next p (xs ++ [b]) none) (ha : a ∉ xs ++ [b]) (hn : next a = none) :
    Seg (update next b (some a)) p (xs ++ [b] ++ [a]) none := by
  have hb : b ∉ xs := by
    have hnd := h.nodup
    rw [List.nodup_append] at hnd
    exact fun hm => hnd.2.2 b hm b (List.mem_singleton_self b) rfl
  have hne : a ≠ b := fun e => ha (by simp [e])
  refine seg_append.mpr ⟨some a, h.redirect hb _, rfl, ?_⟩
  rw [update_of_ne hne]
  exact hn

def setLink (f : α → Option α) (at' v : Option α) : α → Option α :=
  match at' with
  | some b => update f b v
  | none => f

/-- The pointer to an end, which changes if there is no neighbour. -/
def orLink (at' kept v : Option α) : Option α :=
  match at' with
  | some _ => kept
  | none => v

/-- One direction of a node's removal: its neighbour, or the end, gets its
link. -/
theorem Seg.bypass (h : Seg next p (xs ++ a :: ys) none) :
    Seg (setLink next xs.getLast? (next a)) (orLink xs.getLast? p (next a)) (xs ++ ys) none := by
  rcases List.eq_nil_or_concat xs with rfl | ⟨zs, b, rfl⟩
  · exact h.2
  · rw [List.concat_eq_append, List.append_assoc] at h ⊢
    simpa [setLink, orLink] using h.unlink

theorem Dll.out (h : Dll newer older newest oldest (xs ++ a :: ys)) :
    Dll (setLink newer (older a) (newer a)) (setLink older (newer a) (older a))
      (orLink (newer a) newest (older a)) (orLink (older a) oldest (newer a)) (xs ++ ys) := by
  have hn := h.newer_eq
  have ho := h.older_eq
  have hd := h.down.bypass
  have hu := h.up
  rw [List.reverse_append, List.reverse_cons, List.append_assoc] at hu
  have hb := Seg.bypass hu
  rw [List.getLast?_reverse, ← ho] at hb
  rw [← hn] at hd
  refine ⟨hd, ?_⟩
  rw [List.reverse_append]
  exact hb

theorem Dll.into (h : Dll newer older newest oldest l) (ha : a ∉ l) :
    Dll (setLink (update newer a none) newest (some a)) (update older a newest) (some a)
      (orLink oldest oldest (some a)) (a :: l) := by
  refine ⟨h.down.push ha, ?_⟩
  have hup : Seg (update newer a none) oldest l.reverse none :=
    h.up.update_notMem (fun hm => ha (List.mem_reverse.mp hm)) none
  rw [h.newest_eq]
  cases l with
  | nil =>
    have ho : oldest = none := h.up
    rw [ho]
    exact ⟨rfl, update_self ..⟩
  | cons b l =>
    rw [List.reverse_cons] at hup
    have ha' : a ∉ l.reverse ++ [b] := by
      rw [← List.reverse_cons, List.mem_reverse]
      exact ha
    have hs := hup.snoc ha' (update_self ..)
    obtain ⟨o, rfl⟩ : ∃ o, oldest = some o := by
      have he := h.oldest_eq
      cases ho : oldest with
      | none => exact absurd (List.getLast?_eq_none_iff.mp (he.symm.trans ho)) (List.cons_ne_nil b l)
      | some o => exact ⟨o, rfl⟩
    simpa [setLink, orLink] using hs

end Links
