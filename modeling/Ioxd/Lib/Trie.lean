import Mathlib.Data.List.Basic

/-!
# Tries with a wildcard

A tree whose nodes have a child for each of some keys, one for any key at all,
and a list of items. A pattern names a node: `some k` goes to the child of `k`,
`none` to the wildcard's. The patterns that fit a word of keys are listed in the
order in which a search that prefers keys to wildcards meets them.
-/

inductive Trie (κ α : Type)
  | node (kids : List (κ × Trie κ α)) (wild : Option (Trie κ α)) (items : List α)

namespace Trie

variable {κ α β : Type}

def empty : Trie κ α := node [] none []

def kids : Trie κ α → List (κ × Trie κ α)
  | node kids _ _ => kids

def wild : Trie κ α → Option (Trie κ α)
  | node _ wild _ => wild

def items : Trie κ α → List α
  | node _ _ items => items

abbrev Pattern (κ : Type) := List (Option κ)

/-- The pattern fits the word. -/
inductive Fits : Pattern κ → List κ → Prop
  | nil : Fits [] []
  | key {p w} (k : κ) : Fits p w → Fits (some k :: p) (k :: w)
  | wild {p w} (k : κ) : Fits p w → Fits (none :: p) (k :: w)

/-- Of two patterns for one word, the one with a key where they first differ. -/
inductive Earlier : Pattern κ → Pattern κ → Prop
  | here {p q} (k : κ) : Earlier (some k :: p) (none :: q)
  | there {p q} (o : Option κ) : Earlier p q → Earlier (o :: p) (o :: q)

def patterns : List κ → List (Pattern κ)
  | [] => [[]]
  | k :: w => (patterns w).map (some k :: ·) ++ (patterns w).map (none :: ·)

/-- The keys of a word that are at a pattern's wildcards. -/
def caught : Pattern κ → List κ → List κ
  | some _ :: p, _ :: w => caught p w
  | none :: p, k :: w => k :: caught p w
  | _, _ => []

def wilds (p : Pattern κ) : Nat := p.countP Option.isNone

@[simp] theorem wilds_nil : wilds ([] : Pattern κ) = 0 := rfl

@[simp] theorem wilds_key (k : κ) (p : Pattern κ) : wilds (some k :: p) = wilds p := by
  simp [wilds]

@[simp] theorem wilds_wild (p : Pattern κ) : wilds (none :: p) = wilds p + 1 := by
  simp [wilds]

theorem mem_patterns {p : Pattern κ} {w : List κ} : p ∈ patterns w ↔ Fits p w := by
  induction w generalizing p with
  | nil =>
    rw [patterns, List.mem_singleton]
    exact ⟨fun h => h ▸ .nil, fun h => by cases h; rfl⟩
  | cons k w ih =>
    simp only [patterns, List.mem_append, List.mem_map]
    constructor
    · rintro (⟨q, hq, rfl⟩ | ⟨q, hq, rfl⟩)
      · exact .key k (ih.mp hq)
      · exact .wild k (ih.mp hq)
    · rintro (_ | ⟨_, h⟩ | ⟨_, h⟩)
      · exact .inl ⟨_, ih.mpr h, rfl⟩
      · exact .inr ⟨_, ih.mpr h, rfl⟩

theorem patterns_sorted (w : List κ) : (patterns w).Pairwise Earlier := by
  induction w with
  | nil => simp [patterns]
  | cons k w ih =>
    refine List.pairwise_append.mpr ⟨?_, ?_, ?_⟩
    · exact List.pairwise_map.mpr (ih.imp fun h => .there _ h)
    · exact List.pairwise_map.mpr (ih.imp fun h => .there _ h)
    · rintro _ h _ h'
      obtain ⟨p, -, rfl⟩ := List.mem_map.mp h
      obtain ⟨q, -, rfl⟩ := List.mem_map.mp h'
      exact .here k

theorem Earlier.irrefl {p : Pattern κ} : ¬ Earlier p p := by
  intro h
  induction p with
  | nil => cases h
  | cons o p ih =>
    cases h with
    | there _ h => exact ih h

theorem Earlier.asymm {p q : Pattern κ} (h : Earlier p q) : ¬ Earlier q p := by
  induction h with
  | here k => exact fun h => nomatch h
  | there o h ih =>
    rintro (_ | ⟨_, h'⟩)
    exact ih h'

theorem Fits.length_caught {p : Pattern κ} {w : List κ} (h : Fits p w) :
    (caught p w).length = wilds p := by
  induction h with
  | nil => rfl
  | key k h ih => simpa [caught] using ih
  | wild k h ih => simpa [caught] using ih

/-- Of the patterns in order, the first that has what is looked for is earlier
than any other that has it. -/
theorem findSome_earliest {f : Pattern κ → Option β} {ps : List (Pattern κ)}
    (hs : ps.Pairwise Earlier) {b : β} (h : ps.findSome? f = some b) :
    ∃ p ∈ ps, f p = some b ∧ ∀ q ∈ ps, f q ≠ none → ¬ Earlier q p := by
  induction ps with
  | nil => cases h
  | cons p ps ih =>
    obtain ⟨hp, hs⟩ := List.pairwise_cons.mp hs
    rw [List.findSome?_cons] at h
    cases hf : f p with
    | some c =>
      rw [hf] at h
      cases h
      refine ⟨p, by simp, hf, fun q hq hne => ?_⟩
      rcases List.mem_cons.mp hq with rfl | hq
      · exact Earlier.irrefl
      · exact (hp q hq).asymm
    | none =>
      rw [hf] at h
      obtain ⟨p', hp', hf', hfirst⟩ := ih hs h
      refine ⟨p', by simp [hp'], hf', fun q hq hne => ?_⟩
      rcases List.mem_cons.mp hq with rfl | hq
      · exact absurd hf hne
      · exact hfirst q hq hne

-- ---------------------------------------------------------------------------
-- Children
-- ---------------------------------------------------------------------------

def setWild (t : Trie κ α) (kid : Trie κ α) : Trie κ α := node t.kids (some kid) t.items

def setItems (t : Trie κ α) (items : List α) : Trie κ α := node t.kids t.wild items

@[simp] theorem wild_setWild (t : Trie κ α) (kid : Trie κ α) :
    (t.setWild kid).wild = some kid := rfl

@[simp] theorem items_setWild (t : Trie κ α) (kid : Trie κ α) :
    (t.setWild kid).items = t.items := rfl

@[simp] theorem wild_setItems (t : Trie κ α) (items : List α) :
    (t.setItems items).wild = t.wild := rfl

@[simp] theorem items_setItems (t : Trie κ α) (items : List α) :
    (t.setItems items).items = items := rfl

section Children

variable [DecidableEq κ]

def kid? (t : Trie κ α) (k : κ) : Option (Trie κ α) :=
  (t.kids.find? (·.1 = k)).map (·.2)

/-- Replaces the first child of a key, or adds one behind the others. -/
def replace (k : κ) (t : Trie κ α) : List (κ × Trie κ α) → List (κ × Trie κ α)
  | [] => [(k, t)]
  | p :: kids => if p.1 = k then (k, t) :: kids else p :: replace k t kids

def setKid (t : Trie κ α) (k : κ) (kid : Trie κ α) : Trie κ α :=
  node (replace k kid t.kids) t.wild t.items

theorem find_replace (k k' : κ) (t : Trie κ α) (kids : List (κ × Trie κ α)) :
    ((replace k t kids).find? (·.1 = k')).map (·.2) =
      if k' = k then some t else (kids.find? (·.1 = k')).map (·.2) := by
  induction kids with
  | nil => by_cases h : k' = k <;> simp [replace, h, eq_comm]
  | cons p kids ih =>
    unfold replace
    by_cases hp : p.1 = k
    · by_cases h : k' = k
      · simp [hp, h]
      · have hne : k ≠ k' := fun he => h he.symm
        simp [hp, h, hne]
    · rw [if_neg hp]
      by_cases h : p.1 = k'
      · have hne : k' ≠ k := fun he => hp (h.trans he)
        simp [h, hne]
      · simp [h, ih]

@[simp] theorem kid?_setKid (t : Trie κ α) (k k' : κ) (kid : Trie κ α) :
    (t.setKid k kid).kid? k' = if k' = k then some kid else t.kid? k' :=
  find_replace k k' kid t.kids

@[simp] theorem wild_setKid (t : Trie κ α) (k : κ) (kid : Trie κ α) :
    (t.setKid k kid).wild = t.wild := rfl

@[simp] theorem items_setKid (t : Trie κ α) (k : κ) (kid : Trie κ α) :
    (t.setKid k kid).items = t.items := rfl

@[simp] theorem kid?_setWild (t : Trie κ α) (k : κ) (kid : Trie κ α) :
    (t.setWild kid).kid? k = t.kid? k := rfl

@[simp] theorem kid?_setItems (t : Trie κ α) (k : κ) (items : List α) :
    (t.setItems items).kid? k = t.kid? k := rfl

def get : Pattern κ → Trie κ α → List α
  | [], t => t.items
  | some k :: p, t => (t.kid? k).elim [] (get p)
  | none :: p, t => t.wild.elim [] (get p)

@[simp] theorem get_nil (t : Trie κ α) : get [] t = t.items := rfl

@[simp] theorem get_key (k : κ) (p : Pattern κ) (t : Trie κ α) :
    get (some k :: p) t = (t.kid? k).elim [] (get p) := rfl

@[simp] theorem get_wild (p : Pattern κ) (t : Trie κ α) :
    get (none :: p) t = t.wild.elim [] (get p) := rfl

@[simp] theorem get_empty (p : Pattern κ) : get p (empty : Trie κ α) = [] := by
  cases p with
  | nil => rfl
  | cons o p => cases o <;> rfl

end Children

end Trie
