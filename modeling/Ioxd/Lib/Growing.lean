import Mathlib.Data.List.Basic

/-!
# Parsers of an input that still grows

A parser takes the front of what has come in so far; it stops where that is
bad, and where more must come in to tell. `Stable` says that it never changes
its mind when more has come in. The primitives below look at one element after
the other, and each has its own account of what it takes and leaves.
-/

namespace Growing

inductive Stop
  | bad
  | partly
  deriving DecidableEq, Repr

abbrev Parse (σ α : Type) : Type := StateT (List σ) (Except Stop) α

variable {σ α β : Type} {s r q : List σ} {a : α} {b : β}

-- ---------------------------------------------------------------------------
-- Sequencing
-- ---------------------------------------------------------------------------

theorem bind_eq (p : Parse σ α) (k : α → Parse σ β) (s : List σ) :
    (p >>= k) s = (p s).bind fun x => k x.1 x.2 := rfl

theorem bind_ok {p : Parse σ α} {k : α → Parse σ β} :
    (p >>= k) s = .ok (b, r) ↔ ∃ a t, p s = .ok (a, t) ∧ k a t = .ok (b, r) := by
  rw [bind_eq]
  cases hp : p s with
  | error e => simp [Except.bind]
  | ok x =>
    obtain ⟨a, t⟩ := x
    simp [Except.bind]

theorem bind_bad {p : Parse σ α} {k : α → Parse σ β} :
    (p >>= k) s = .error .bad ↔
      p s = .error .bad ∨ ∃ a t, p s = .ok (a, t) ∧ k a t = .error .bad := by
  rw [bind_eq]
  cases hp : p s with
  | error e => simp [Except.bind]
  | ok x =>
    obtain ⟨a, t⟩ := x
    simp [Except.bind]

@[simp] theorem pure_ok {a' : α} : (pure a : Parse σ α) s = .ok (a', r) ↔ a' = a ∧ r = s := by
  show (Except.ok (a, s) : Except Stop (α × List σ)) = .ok (a', r) ↔ _
  simp [eq_comm]

theorem map_ok {p : Parse σ α} {f : α → β} :
    (f <$> p) s = .ok (b, r) ↔ ∃ a, p s = .ok (a, r) ∧ b = f a := by
  rw [map_eq_pure_bind, bind_ok]
  simp only [pure_ok]
  constructor
  · rintro ⟨a, t, h, rfl, rfl⟩
    exact ⟨a, h, rfl⟩
  · rintro ⟨a, h, rfl⟩
    exact ⟨a, r, h, rfl, rfl⟩

@[simp] theorem pure_run : (pure a : Parse σ α) s = .ok (a, s) := rfl

@[simp] theorem throw_run (e : Stop) : (throw e : Parse σ α) s = .error e := rfl

-- ---------------------------------------------------------------------------
-- Primitives
-- ---------------------------------------------------------------------------

def peek : Parse σ σ
  | [] => .error .partly
  | c :: s => .ok (c, c :: s)

def next : Parse σ σ
  | [] => .error .partly
  | c :: s => .ok (c, s)

def skipWhile (pass : σ → Bool) : Parse σ Unit
  | [] => .error .partly
  | c :: s => if pass c then skipWhile pass s else .ok ((), c :: s)

def spanTo (stop bad : σ → Bool) : Parse σ (List σ)
  | [] => .error .partly
  | c :: s =>
    if stop c then .ok ([], c :: s)
    else if bad c then .error .bad
    else (spanTo stop bad s).map fun x => (c :: x.1, x.2)

def atLeast (n : Nat) : Parse σ Unit := fun s =>
  if s.length < n then .error .partly else .ok ((), s)

theorem peek_ok {c : σ} : peek s = .ok (c, r) ↔ r = s ∧ ∃ t, s = c :: t := by
  cases s with
  | nil => simp [peek]
  | cons d s =>
    simp only [peek, Except.ok.injEq, Prod.mk.injEq, List.cons.injEq, exists_and_left,
      exists_eq', and_true]
    constructor <;> (rintro ⟨rfl, rfl⟩; exact ⟨rfl, rfl⟩)

theorem next_ok {c : σ} : next s = .ok (c, r) ↔ s = c :: r := by
  cases s <;> simp [next]

theorem atLeast_ok {n : Nat} {u : Unit} :
    atLeast n s = .ok (u, r) ↔ r = s ∧ n ≤ s.length := by
  unfold atLeast
  split
  · simp only [reduceCtorEq, false_iff, not_and]
    omega
  · simp only [Except.ok.injEq, Prod.mk.injEq, true_and, eq_comm (a := s)]
    exact ⟨fun h => ⟨h, by omega⟩, And.left⟩

theorem skipWhile_ok {pass : σ → Bool} {u : Unit} : skipWhile pass s = .ok (u, r) ↔
    ∃ w, s = w ++ r ∧ (∀ c ∈ w, pass c = true) ∧ ∃ c t, r = c :: t ∧ pass c = false := by
  induction s with
  | nil =>
    simp only [skipWhile, reduceCtorEq, false_iff]
    rintro ⟨w, hw, -, c, t, rfl, -⟩
    simp at hw
  | cons c s ih =>
    unfold skipWhile
    cases hc : pass c with
    | true =>
      rw [if_pos rfl, ih]
      constructor
      · rintro ⟨w, rfl, hw, hr⟩
        exact ⟨c :: w, rfl, List.forall_mem_cons.mpr ⟨hc, hw⟩, hr⟩
      · rintro ⟨w, hw, hpass, d, t, rfl, hd⟩
        cases w with
        | nil =>
          obtain ⟨rfl, -⟩ := List.cons.inj hw
          simp [hc] at hd
        | cons e w =>
          obtain ⟨-, rfl⟩ := List.cons.inj hw
          exact ⟨w, rfl, (List.forall_mem_cons.mp hpass).2, d, t, rfl, hd⟩
    | false =>
      rw [if_neg (by simp)]
      constructor
      · intro h
        cases h
        exact ⟨[], rfl, by simp, c, s, rfl, hc⟩
      · rintro ⟨w, hw, hpass, -⟩
        cases w with
        | nil => rw [hw]; rfl
        | cons e w =>
          obtain ⟨rfl, -⟩ := List.cons.inj hw
          simp [hc] at hpass

theorem spanTo_ok {stop bad : σ → Bool} {w : List σ} : spanTo stop bad s = .ok (w, r) ↔
    s = w ++ r ∧ (∀ c ∈ w, stop c = false ∧ bad c = false) ∧ ∃ c t, r = c :: t ∧ stop c = true := by
  induction s generalizing w with
  | nil =>
    simp only [spanTo, reduceCtorEq, false_iff]
    rintro ⟨hw, -, c, t, rfl, -⟩
    simp at hw
  | cons c s ih =>
    unfold spanTo
    cases hc : stop c with
    | true =>
      rw [if_pos rfl]
      constructor
      · intro h
        cases h
        exact ⟨rfl, by simp, c, s, rfl, hc⟩
      · rintro ⟨hw, hpass, -⟩
        cases w with
        | nil => rw [hw]; rfl
        | cons e w =>
          obtain ⟨rfl, -⟩ := List.cons.inj hw
          simp [hc] at hpass
    | false =>
      rw [if_neg (by simp)]
      cases hb : bad c with
      | true =>
        rw [if_pos rfl]
        simp only [reduceCtorEq, false_iff]
        rintro ⟨hw, hpass, d, t, rfl, hd⟩
        cases w with
        | nil =>
          obtain ⟨rfl, -⟩ := List.cons.inj hw
          simp [hc] at hd
        | cons e w =>
          obtain ⟨rfl, -⟩ := List.cons.inj hw
          simp [hb] at hpass
      | false =>
        rw [if_neg (by simp)]
        constructor
        · intro h
          cases hs : spanTo stop bad s with
          | error e => simp [hs, Except.map] at h
          | ok x =>
            obtain ⟨w', r'⟩ := x
            simp only [hs, Except.map, Except.ok.injEq, Prod.mk.injEq] at h
            obtain ⟨rfl, rfl⟩ := h
            obtain ⟨rfl, hpass, hr⟩ := ih.mp hs
            exact ⟨rfl, List.forall_mem_cons.mpr ⟨⟨hc, hb⟩, hpass⟩, hr⟩
        · rintro ⟨hw, hpass, d, t, rfl, hd⟩
          cases w with
          | nil =>
            obtain ⟨rfl, -⟩ := List.cons.inj hw
            simp [hc] at hd
          | cons e w =>
            obtain ⟨rfl, rfl⟩ := List.cons.inj hw
            rw [ih.mpr ⟨rfl, (List.forall_mem_cons.mp hpass).2, d, t, rfl, hd⟩]
            rfl

theorem spanTo_skip {stop bad : σ → Bool} (n : Nat) {s : List σ}
    (h : ∀ c ∈ s.take n, stop c = false ∧ bad c = false) : spanTo stop bad s =
      (spanTo stop bad (s.drop n)).map fun x => (s.take n ++ x.1, x.2) := by
  induction n generalizing s with
  | zero =>
    show _ = Except.map id (spanTo stop bad s)
    rw [Except.map_id]
    rfl
  | succ n ih =>
    cases s with
    | nil => rfl
    | cons c s =>
      rw [List.take_succ_cons] at h ⊢
      obtain ⟨⟨hc, hb⟩, h⟩ := List.forall_mem_cons.mp h
      rw [List.drop_succ_cons, spanTo, if_neg (by simp [hc]), if_neg (by simp [hb]), ih h]
      cases spanTo stop bad (s.drop n) <;> rfl

-- ---------------------------------------------------------------------------
-- Stability
-- ---------------------------------------------------------------------------

/-- What comes in later changes neither what was taken nor that it was bad. -/
structure Stable (p : Parse σ α) : Prop where
  ok : ∀ {s a r}, p s = .ok (a, r) → ∀ q, p (s ++ q) = .ok (a, r ++ q)
  bad : ∀ {s}, p s = .error .bad → ∀ q, p (s ++ q) = .error .bad

theorem stable_pure (a : α) : Stable (pure a : Parse σ α) where
  ok h q := by
    obtain ⟨rfl, rfl⟩ := pure_ok.mp h
    rfl
  bad h := by cases h

theorem stable_bad : Stable (throw .bad : Parse σ α) where
  ok h := by cases h
  bad _ _ := rfl

theorem Stable.bind {p : Parse σ α} {k : α → Parse σ β} (hp : Stable p) (hk : ∀ a, Stable (k a)) :
    Stable (p >>= k) where
  ok h q := by
    obtain ⟨a, t, h₁, h₂⟩ := bind_ok.mp h
    exact bind_ok.mpr ⟨a, t ++ q, hp.ok h₁ q, (hk a).ok h₂ q⟩
  bad h q := by
    rcases bind_bad.mp h with h | ⟨a, t, h₁, h₂⟩
    · exact bind_bad.mpr (.inl (hp.bad h q))
    · exact bind_bad.mpr (.inr ⟨a, t ++ q, hp.ok h₁ q, (hk a).bad h₂ q⟩)

theorem Stable.map {p : Parse σ α} (hp : Stable p) (f : α → β) : Stable (f <$> p) := by
  rw [map_eq_pure_bind]
  exact hp.bind fun a => stable_pure (f a)

theorem Stable.ite {c : Prop} [Decidable c] {p p' : Parse σ α} (hp : Stable p) (hp' : Stable p') :
    Stable (if c then p else p') := by
  split
  · exact hp
  · exact hp'

theorem stable_peek : Stable (peek : Parse σ σ) where
  ok h q := by
    obtain ⟨rfl, t, rfl⟩ := peek_ok.mp h
    rfl
  bad {s} h := by cases s <;> cases h

theorem stable_next : Stable (next : Parse σ σ) where
  ok h q := by
    obtain rfl := next_ok.mp h
    rfl
  bad {s} h := by cases s <;> cases h

theorem stable_atLeast (n : Nat) : Stable (atLeast n : Parse σ Unit) where
  ok h q := by
    obtain ⟨rfl, hn⟩ := atLeast_ok.mp h
    rw [atLeast_ok, List.length_append]
    exact ⟨rfl, by omega⟩
  bad {s} h := by
    unfold atLeast at h
    split at h <;> cases h

theorem stable_skipWhile (pass : σ → Bool) : Stable (skipWhile pass) where
  ok {s u r} h q := by
    obtain ⟨w, rfl, hw, c, t, rfl, hc⟩ := skipWhile_ok.mp h
    exact skipWhile_ok.mpr ⟨w, List.append_assoc .., hw, c, t ++ q, rfl, hc⟩
  bad {s} h := by
    induction s with
    | nil => cases h
    | cons c s ih =>
      unfold skipWhile at h
      split at h
      · intro q
        rw [List.cons_append, skipWhile, if_pos ‹_›]
        exact ih h q
      · cases h

theorem stable_spanTo (stop bad : σ → Bool) : Stable (spanTo stop bad) where
  ok {s w r} h q := by
    obtain ⟨rfl, hw, c, t, rfl, hc⟩ := spanTo_ok.mp h
    exact spanTo_ok.mpr ⟨List.append_assoc .., hw, c, t ++ q, rfl, hc⟩
  bad {s} h q := by
    induction s with
    | nil => cases h
    | cons c s ih =>
      rw [List.cons_append]
      unfold spanTo at h ⊢
      split at h
      · cases h
      rw [if_neg ‹_›]
      split at h
      · rw [if_pos ‹_›]
      rw [if_neg ‹_›]
      cases hs : spanTo stop bad s with
      | ok x => simp [hs, Except.map] at h
      | error e =>
        cases e with
        | partly => simp [hs, Except.map] at h
        | bad =>
          rw [ih hs]
          rfl

-- ---------------------------------------------------------------------------
-- A quick look first
-- ---------------------------------------------------------------------------

/-- The parser, if a look at the input says that it is worth while. -/
def guarded (look : List σ → Except Stop (List σ)) (p : Parse σ α) : Parse σ α := fun s =>
  match look s with
  | .ok _ => p s
  | .error e => .error e

theorem guarded_ok {look : List σ → Except Stop (List σ)} {p : Parse σ α} :
    guarded look p s = .ok (a, r) ↔ (∃ t, look s = .ok t) ∧ p s = .ok (a, r) := by
  unfold guarded
  cases look s <;> simp

end Growing
