import Mathlib.Data.List.Induction
import Mathlib.Data.List.TakeWhile
import Mathlib.Tactic.NthRewrite

/-!
# The parts between separators

A text as its parts that are not empty, cut off one after the other as loops
over such a text do, and put together again with one separator between them.
-/

namespace Parts

variable {α : Type} {sep : α}

-- ---------------------------------------------------------------------------
-- Put together
-- ---------------------------------------------------------------------------

def join (sep : α) (segs : List (List α)) : List α := [sep].intercalate segs

@[simp] theorem join_nil : join sep [] = [] := rfl

theorem join_snoc (segs : List (List α)) (seg : List α) :
    join sep (segs ++ [seg]) = if segs = [] then seg else join sep segs ++ sep :: seg := by
  induction segs with
  | nil => simp [join]
  | cons s segs ih =>
    rw [if_neg (List.cons_ne_nil _ _), List.cons_append]
    unfold join at *
    rw [List.intercalate_cons_of_ne_nil (by simp), ih]
    by_cases h : segs = []
    · simp [h]
    · rw [if_neg h, List.intercalate_cons_of_ne_nil h]
      simp only [List.append_assoc]

theorem mem_join {segs : List (List α)} {c : α} (h : c ∈ join sep segs) :
    c = sep ∨ ∃ s ∈ segs, c ∈ s := by
  induction segs using List.reverseRecOn with
  | nil => exact absurd h List.not_mem_nil
  | append_singleton segs seg ih =>
    rw [join_snoc] at h
    split at h
    · exact .inr ⟨seg, by simp, h⟩
    · rw [List.mem_append, List.mem_cons] at h
      rcases h with h | rfl | h
      · refine (ih h).imp id fun ⟨s, hs, hc⟩ => ⟨s, List.mem_append_left _ hs, hc⟩
      · exact .inl rfl
      · exact .inr ⟨seg, by simp, h⟩

theorem join_ne_nil {segs : List (List α)} (h : segs ≠ []) (hne : ∀ s ∈ segs, s ≠ []) :
    join sep segs ≠ [] := by
  induction segs using List.reverseRecOn with
  | nil => exact absurd rfl h
  | append_singleton segs seg ih =>
    rw [join_snoc]
    split
    · exact hne seg (by simp)
    · simp

theorem getLast?_join {segs : List (List α)} (hne : ∀ s ∈ segs, s ≠ []) (hp : ∀ s ∈ segs, sep ∉ s) :
    (join sep segs).getLast? ≠ some sep := by
  induction segs using List.reverseRecOn with
  | nil => simp
  | append_singleton segs seg ih =>
    have hs : seg ≠ [] := hne seg (by simp)
    have hlast : seg.getLast? ≠ some sep := fun h =>
      hp seg (by simp) (List.mem_of_getLast? h)
    rw [join_snoc]
    split
    · exact hlast
    · obtain ⟨c, t, rfl⟩ := List.exists_cons_of_ne_nil hs
      rw [List.getLast?_append, List.getLast?_cons_cons, Option.or_of_isSome (by simp)]
      exact hlast

-- ---------------------------------------------------------------------------
-- Cut apart
-- ---------------------------------------------------------------------------

variable [DecidableEq α]

def parts (sep : α) (text : List α) : List (List α) := (text.splitOn sep).filter (· ≠ [])

theorem cut (sep : α) (rest : List α) :
    (rest.takeWhile (· != sep) = rest ∧ rest.drop ((rest.takeWhile (· != sep)).length + 1) = []) ∨
      rest = rest.takeWhile (· != sep) ++
        sep :: rest.drop ((rest.takeWhile (· != sep)).length + 1) := by
  have hsplit := @List.takeWhile_append_dropWhile _ (· != sep) rest
  cases hd : rest.dropWhile (· != sep) with
  | nil =>
    left
    rw [hd, List.append_nil] at hsplit
    exact ⟨hsplit, by rw [hsplit, List.drop_eq_nil_of_le (Nat.le_succ _)]⟩
  | cons c t =>
    right
    have hc : c = sep := by
      have := List.head?_dropWhile_not (· != sep) rest
      rw [hd] at this
      simpa using this
    have hdrop : rest.drop ((rest.takeWhile (· != sep)).length + 1) = t := by
      rw [← List.drop_drop]
      nth_rewrite 2 [← hsplit]
      rw [List.drop_left, hd]
      rfl
    rw [hd, hc] at hsplit
    rw [hdrop]
    exact hsplit.symm

theorem plain (sep : α) (rest : List α) : sep ∉ rest.takeWhile (· != sep) := by
  intro h
  simpa using List.mem_takeWhile_imp h

@[simp] theorem parts_nil : parts sep [] = [] := by simp [parts]

theorem parts_cut (sep : α) (rest : List α) : parts sep rest =
    (if rest.takeWhile (· != sep) = [] then [] else [rest.takeWhile (· != sep)]) ++
      parts sep (rest.drop ((rest.takeWhile (· != sep)).length + 1)) := by
  have hp := plain sep rest
  have hone : ((rest.takeWhile (· != sep)).splitOn sep).filter (· ≠ []) =
      if rest.takeWhile (· != sep) = [] then [] else [rest.takeWhile (· != sep)] := by
    rw [List.splitOn_eq_singleton hp]
    split <;> simp [*]
  rcases cut sep rest with ⟨h1, h2⟩ | h
  · rw [h2, ← hone, h1]
    simp [parts]
  · nth_rewrite 1 [h]
    rw [parts, List.splitOn_append_cons_self, List.filter_append, hone, parts]

theorem getLast?_of_parts {text : List α} (h : parts sep text = []) :
    text = [] ∨ text.getLast? = some sep := by
  induction hn : text.length using Nat.strongRecOn generalizing text with
  | _ n ih =>
    by_cases he : text = []
    · exact .inl he
    · right
      rw [parts_cut, List.append_eq_nil_iff] at h
      have hw : text.takeWhile (· != sep) = [] := by
        by_contra hc
        exact absurd h.1 (by rw [if_neg hc]; exact List.cons_ne_nil _ _)
      rcases cut sep text with ⟨h1, -⟩ | hcut
      · exact absurd (h1.symm.trans hw) he
      · have hless : (text.drop ((text.takeWhile (· != sep)).length + 1)).length < n := by
          have := List.length_pos_iff.mpr he
          rw [List.length_drop]
          omega
        rcases ih _ hless h.2 rfl with ht | ht
        · rw [hcut, ht, hw]
          rfl
        · rw [hw] at ht
          rw [hcut, hw, List.nil_append, List.getLast?_cons, ht]
          rfl

theorem parts_join {segs : List (List α)} (hne : ∀ s ∈ segs, s ≠ []) (hp : ∀ s ∈ segs, sep ∉ s) :
    parts sep (join sep segs) = segs := by
  by_cases h : segs = []
  · rw [h, join_nil, parts_nil]
  · rw [parts, join, List.splitOn_intercalate sep hp h, List.filter_eq_self]
    intro s hs
    simpa using hne s hs

end Parts
