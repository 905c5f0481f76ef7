import Mathlib.Data.List.Basic

/-!
# The middleware chain

`ioxd_next_run` and `run` of `lib/http/router.c`. A middleware is what it does
with the state between its calls of `ioxd_next_run`; a chain has one cursor, in
place, which every one of these calls moves.
-/

namespace Ioxd.Http

variable {σ : Type}

/-- The rest of what a middleware does: return, or call `ioxd_next_run` and go
on with the state that comes back. -/
inductive Act (σ : Type)
  | ret (s : σ)
  | next (s : σ) (k : σ → Act σ)

abbrev Mw (σ : Type) := σ → Act σ

abbrev Handler (σ : Type) := σ → σ

/-- What happens to a chain. The handler's place is behind the middleware. -/
inductive ChainEvent
  | called
  | entered (place : Nat)
  /-- This middleware has returned without calling `ioxd_next_run`. -/
  | refused (place : Nat)
  deriving DecidableEq

/-- `ioxd_next` with the state of the request; `trace` is history. -/
structure Chain (σ : Type) where
  i : Nat
  state : σ
  trace : List ChainEvent

namespace Chain

def note (c : Chain σ) (e : ChainEvent) : Chain σ := { c with trace := c.trace ++ [e] }

/-- A middleware at a place runs to its end; `again` is whether it has called
`ioxd_next_run`. -/
def play (next : Chain σ → Chain σ) (place : Nat) : Bool → Act σ → Chain σ → Chain σ
  | again, .ret s, c =>
    let c := { c with state := s }
    if again then c else c.note (.refused place)
  | _, .next s k, c =>
    let c := next ({ c with state := s }.note .called)
    play next place true (k c.state) c

/-- `ioxd_next_run`. A call that runs something moves the cursor, which never
goes back, so there are at most as many inside one another as places. -/
def nextRun (mws : List (Mw σ)) (handler : Handler σ) : Nat → Chain σ → Chain σ
  | 0, c => c
  | depth + 1, c =>
    if c.i > mws.length then c
    else
      let place := c.i
      let c := { c with i := place + 1 }.note (.entered place)
      match mws[place]? with
      | some mw => play (nextRun mws handler depth) place false (mw c.state) c
      | none => { c with state := handler c.state }

def run (mws : List (Mw σ)) (handler : Handler σ) (s : σ) : Chain σ :=
  if mws.length = 0 then ⟨0, handler s, [.entered 0]⟩
  else nextRun mws handler (mws.length + 1) ⟨0, s, []⟩

-- ---------------------------------------------------------------------------
-- What a run leaves behind
-- ---------------------------------------------------------------------------

/-- The places that ran. -/
def ran (trace : List ChainEvent) : List Nat :=
  trace.filterMap fun
    | .entered place => some place
    | _ => none

/-- Nothing behind a middleware that refused has run. -/
def ShortCircuits (trace : List ChainEvent) : Prop :=
  ∀ place, .refused place ∈ trace → ∀ p ∈ ran trace, p ≤ place

/-- Nobody calls `ioxd_next_run` once a middleware has refused. -/
def Heeded (trace : List ChainEvent) : Prop :=
  ∀ a b place, trace = a ++ .refused place :: b → .called ∉ b

/-- How the events of a chain of `n` middleware follow one another while its
cursor goes from `i` to `i'`. -/
inductive Follows (n : Nat) : Nat → List ChainEvent → Nat → Prop
  | nil {i} : Follows n i [] i
  | enter {i t i'} : i ≤ n → Follows n (i + 1) t i' →
      Follows n i (.called :: .entered i :: t) i'
  | past {i t i'} : n < i → Follows n i t i' → Follows n i (.called :: t) i'
  | refuse {place t i'} : place < n → Follows n (place + 1) t i' →
      Follows n (place + 1) (.refused place :: t) i'

theorem Follows.trans {n i i' i'' : Nat} {t t' : List ChainEvent} (h : Follows n i t i')
    (h' : Follows n i' t' i'') : Follows n i (t ++ t') i'' := by
  induction h with
  | nil => exact h'
  | enter hle _ ih => exact .enter hle (ih h')
  | past hlt _ ih => exact .past hlt (ih h')
  | refuse hlt _ ih => exact .refuse hlt (ih h')

variable {mws : List (Mw σ)} {handler : Handler σ}

/-- What a call leaves behind: a place entered and all that follows from it, or
nothing. -/
inductive CallOutcome (n : Nat) (c c' : Chain σ) : Prop
  | entered {t : List ChainEvent} : c.i ≤ n → c'.trace = c.trace ++ .entered c.i :: t →
      Follows n (c.i + 1) t c'.i → CallOutcome n c c'
  | past : n < c.i → c' = c → CallOutcome n c c'

theorem play_follows {n place : Nat} {next : Chain σ → Chain σ} {i : Nat}
    (hnext : ∀ c, i ≤ c.i → CallOutcome n c (next c)) (hp : place < n) (again : Bool)
    (act : Act σ) (c : Chain σ) (hi : i ≤ c.i) (hc : again = false → c.i = place + 1) :
    ∃ t, (play next place again act c).trace = c.trace ++ t ∧
      Follows n c.i t (play next place again act c).i := by
  induction act generalizing again c with
  | ret s =>
    unfold play
    cases again with
    | true => exact ⟨[], by simp, .nil⟩
    | false =>
      refine ⟨[.refused place], rfl, ?_⟩
      show Follows n c.i _ c.i
      rw [hc rfl]
      exact .refuse hp .nil
  | next s k ih =>
    unfold play
    have ho := hnext ({ c with state := s }.note .called) hi
    dsimp only
    generalize next ({ c with state := s }.note .called) = c₁ at ho
    -- the call, and what the middleware does behind it
    have hrest (hle : i ≤ c₁.i) := ih c₁.state true c₁ hle (by simp)
    cases ho with
    | @entered t hn ht hf =>
      have hle : c.i + 1 ≤ c₁.i := by
        clear hrest ht
        generalize c₁.i = i' at hf
        have : ∀ {a t b}, Follows n a t b → a ≤ b := fun h => by
          induction h <;> omega
        exact this hf
      obtain ⟨t', ht', hf'⟩ := hrest (by omega)
      refine ⟨.called :: .entered c.i :: (t ++ t'), ?_, .enter hn (hf.trans hf')⟩
      rw [ht', ht]
      simp [note]
    | past hn he =>
      subst he
      obtain ⟨t', ht', hf'⟩ := hrest hi
      refine ⟨.called :: t', ?_, .past hn hf'⟩
      rw [ht']
      simp [note]

theorem nextRun_outcome (mws : List (Mw σ)) (handler : Handler σ) (depth : Nat) (c : Chain σ)
    (hd : mws.length + 1 ≤ c.i + depth) :
    CallOutcome mws.length c (nextRun mws handler depth c) := by
  induction depth generalizing c with
  | zero => exact .past (by omega) rfl
  | succ depth ih =>
    unfold nextRun
    by_cases hlt : c.i > mws.length
    · rw [if_pos hlt]
      exact .past hlt rfl
    · rw [if_neg hlt]
      dsimp only
      cases hm : mws[c.i]? with
      | none =>
        refine .entered (by omega) (t := []) rfl .nil
      | some mw =>
        obtain ⟨hp, -⟩ := List.getElem?_eq_some_iff.mp hm
        obtain ⟨t, ht, hf⟩ := play_follows (i := c.i + 1) (fun c' hc' => ih c' (by omega)) hp false
          (mw c.state) ({ c with i := c.i + 1 }.note (.entered c.i)) (Nat.le_refl _) fun _ => rfl
        refine .entered (by omega) ?_ hf
        dsimp only
        rw [show (note { c with i := c.i + 1 } (.entered c.i)).state = c.state from rfl, ht]
        simp [note]

theorem run_follows (mws : List (Mw σ)) (handler : Handler σ) (s : σ) :
    ∃ t i, (run mws handler s).trace = .entered 0 :: t ∧ Follows mws.length 1 t i := by
  unfold run
  split
  · exact ⟨[], 1, rfl, .nil⟩
  · have ho := nextRun_outcome mws handler (mws.length + 1) ⟨0, s, []⟩ (by simp)
    cases ho with
    | entered _ ht hf => exact ⟨_, _, ht, hf⟩
    | past h => exact absurd h (Nat.not_lt_zero _)

-- ---------------------------------------------------------------------------
-- Order, and the short circuit
-- ---------------------------------------------------------------------------

variable {n i i' : Nat} {t : List ChainEvent}

@[simp] theorem ran_entered (place : Nat) (t : List ChainEvent) :
    ran (.entered place :: t) = place :: ran t := rfl

@[simp] theorem ran_called (t : List ChainEvent) : ran (.called :: t) = ran t := rfl

@[simp] theorem ran_refused (place : Nat) (t : List ChainEvent) :
    ran (.refused place :: t) = ran t := rfl

theorem Follows.ordered (h : Follows n i t i') :
    (ran t).Pairwise (· < ·) ∧ ∀ p ∈ ran t, i ≤ p ∧ p ≤ n := by
  induction h with
  | nil => exact ⟨.nil, by simp [ran]⟩
  | @enter i t i' hle _ ih =>
    refine ⟨List.pairwise_cons.mpr ⟨fun p hp => (ih.2 p hp).1, ih.1⟩, fun p hp => ?_⟩
    rcases List.mem_cons.mp hp with rfl | hp
    · exact ⟨Nat.le_refl _, hle⟩
    · have := ih.2 p hp
      omega
  | past _ _ ih => exact ih
  | refuse _ _ ih => exact ih

theorem Follows.refused_le (h : Follows n i t i') {place : Nat} (hp : .refused place ∈ t) :
    i ≤ place + 1 := by
  induction h with
  | nil => cases hp
  | enter _ _ ih =>
    have := ih (by simpa using hp)
    omega
  | past _ _ ih => exact ih (by simpa using hp)
  | refuse _ _ ih =>
    rcases List.mem_cons.mp hp with he | hp
    · cases he
      exact Nat.le_refl _
    · exact ih hp

theorem Follows.called_iff (h : Follows n i t i') (hi : i ≤ n) : .called ∈ t ↔ ran t ≠ [] := by
  induction h with
  | nil => simp [ran]
  | enter => simp
  | past hlt => omega
  | refuse _ _ ih =>
    rw [ran_refused, ← ih hi]
    simp

theorem heeded_cons {e : ChainEvent} (he : ∀ place, e ≠ .refused place) :
    Heeded (e :: t) ↔ Heeded t := by
  constructor
  · rintro h a b place rfl
    exact h (e :: a) b place rfl
  · intro h a b place heq
    cases a with
    | nil => exact absurd (List.cons.inj heq).1 (he place)
    | cons e' a => exact h a b place (List.cons.inj heq).2

theorem heeded_called : Heeded (.called :: t) ↔ Heeded t := heeded_cons fun _ h => nomatch h

theorem heeded_entered {place : Nat} : Heeded (.entered place :: t) ↔ Heeded t :=
  heeded_cons fun _ h => nomatch h

theorem heeded_refused {place : Nat} :
    Heeded (.refused place :: t) ↔ .called ∉ t ∧ Heeded t := by
  constructor
  · refine fun h => ⟨h [] t place rfl, ?_⟩
    rintro a b place' rfl
    exact h (.refused place :: a) b place' rfl
  · rintro ⟨h0, h⟩ a b place' heq
    cases a with
    | nil =>
      obtain ⟨-, rfl⟩ := List.cons.inj heq
      exact h0
    | cons e a => exact h a b place' (List.cons.inj heq).2

theorem Follows.short_iff (h : Follows n i t i') : ShortCircuits t ↔ Heeded t := by
  induction h with
  | nil => exact ⟨fun _ a b place h => by simp at h, fun _ place h => by cases h⟩
  | @enter i t i' hle hf ih =>
    rw [heeded_called, heeded_entered, ← ih]
    constructor
    · exact fun h place hp p hr => h place (by simp [hp]) p (by simp [hr])
    · intro h place hp p hr
      have hp' : .refused place ∈ t := by simpa using hp
      rcases List.mem_cons.mp hr with rfl | hr
      · have := hf.refused_le hp'
        omega
      · exact h place hp' p hr
  | @past i t i' hlt hf ih =>
    rw [heeded_called, ← ih]
    unfold ShortCircuits
    simp
  | @refuse place t i' hlt hf ih =>
    rw [heeded_refused, ← ih, hf.called_iff hlt, not_not]
    constructor
    · refine fun h => ⟨List.eq_nil_iff_forall_not_mem.mpr fun p hp => ?_,
        fun place' hp p hr => h place' (by simp [hp]) p hr⟩
      have h1 := h place (by simp) p hp
      have h2 := (hf.ordered.2 p hp).1
      omega
    · rintro ⟨h0, -⟩ place' - p hr
      rw [ran_refused, h0] at hr
      cases hr

/-- Whatever the middleware do: each place runs at most once and in order; and
nothing runs behind one that refused just when nobody calls `ioxd_next_run`
after that. -/
theorem run_shortCircuits (mws : List (Mw σ)) (handler : Handler σ) (s : σ) :
    ((ran (run mws handler s).trace).Pairwise (· < ·) ∧
      (∀ p ∈ ran (run mws handler s).trace, p ≤ mws.length) ∧
      ShortCircuits (run mws handler s).trace) ↔ Heeded (run mws handler s).trace := by
  obtain ⟨t, i, ht, hf⟩ := run_follows mws handler s
  obtain ⟨ho, hb⟩ := hf.ordered
  rw [ht, heeded_entered, ← hf.short_iff]
  constructor
  · exact fun h place hp p hr => h.2.2 place (by simp [hp]) p (by simp [hr])
  · refine fun h => ⟨List.pairwise_cons.mpr ⟨fun p hp => (hb p hp).1, ho⟩, fun p hp => ?_,
      fun place hp p hr => ?_⟩
    · rcases List.mem_cons.mp hp with rfl | hp
      · exact Nat.zero_le _
      · exact (hb p hp).2
    · rcases List.mem_cons.mp hr with rfl | hr
      · exact Nat.zero_le _
      · exact h place (by simpa using hp) p hr

/-- A middleware that calls twice around one that refuses: the handler runs. -/
theorem run_bypassed :
    (run [fun (s : Nat) => .next s fun s => .next s .ret, .ret] (· + 1) 0).state = 1 ∧
      ¬ ShortCircuits (run [fun (s : Nat) => .next s fun s => .next s .ret, .ret] (· + 1) 0).trace :=
  ⟨rfl, fun h => absurd (h 1 (by decide) 2 (by decide)) (by decide)⟩

end Chain

end Ioxd.Http
