import Mathlib.Tactic.Common

/-!
# Runs of a partial step function

A system is a function that takes a state and an action to the next state, or
refuses. `Reach` are the states of its runs whose every step meets a condition
on the state before it and the action; an invariant is proved once per step.
`perform` is a run given by its actions, for a closed one to be evaluated.
-/

namespace Runs

variable {σ α : Type} (step : σ → α → Option σ) (ok : σ → α → Bool)

inductive Reach (s : σ) : σ → Prop
  | start : Reach s s
  | next {s₁ s₂ : σ} {a : α} : Reach s s₁ → ok s₁ a = true → step s₁ a = some s₂ → Reach s s₂

def perform (s : σ) : List α → Option σ
  | [] => some s
  | a :: as => if ok s a then (step s a).bind fun s' => perform s' as else none

variable {step ok} {s s' t : σ}

/-- What holds at the start and survives every permitted step holds of every
state reached. -/
theorem Reach.invariant {P : σ → Prop} (h : Reach step ok s s') (h₀ : P s)
    (hs : ∀ s₁ a s₂, P s₁ → ok s₁ a = true → step s₁ a = some s₂ → P s₂) : P s' := by
  induction h with
  | start => exact h₀
  | next _ hok hstep ih => exact hs _ _ _ ih hok hstep

theorem Reach.perform {as : List α} (h : Reach step ok s s')
    (ht : Runs.perform step ok s' as = some t) : Reach step ok s t := by
  induction as generalizing s' with
  | nil => exact Option.some.inj ht ▸ h
  | cons a as ih =>
    simp only [Runs.perform, Option.ite_none_right_eq_some] at ht
    obtain ⟨s₂, hs, ht⟩ := Option.bind_eq_some_iff.mp ht.2
    exact ih (h.next ‹_ ∧ _›.1 hs) ht

end Runs
