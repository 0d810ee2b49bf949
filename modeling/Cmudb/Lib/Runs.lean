import Mathlib.Tactic.Common

/-!
# Runs of a partial step function

A system is a function `step : σ → α → Option σ`; an action is enabled where it
is defined. `Steps step ok s t` is a run from `s` to `t` each of whose steps
meets `ok`, a condition on the state it is taken in and on the action.
-/

namespace Lib

universe u v

section
variable {σ : Type u} {α : Type v}

inductive Steps (step : σ → α → Option σ) (ok : σ → α → Prop) (s : σ) : σ → Prop where
  | refl : Steps step ok s s
  | tail {t t' : σ} {a : α} : Steps step ok s t → ok t a → step t a = some t' → Steps step ok s t'

variable {step : σ → α → Option σ} {ok ok' : σ → α → Prop}

theorem Steps.trans {s t u : σ} (h₁ : Steps step ok s t) (h₂ : Steps step ok t u) : Steps step ok s u := by
  induction h₂ with
  | refl => exact h₁
  | tail _ ha hs ih => exact .tail ih ha hs

theorem Steps.mono (h : ∀ s a, ok s a → ok' s a) {s t : σ} (hr : Steps step ok s t) : Steps step ok' s t := by
  induction hr with
  | refl => exact .refl
  | tail _ ha hs ih => exact .tail ih (h _ _ ha) hs

/-- What holds at the start and is kept by every allowed step holds after every run. -/
theorem Steps.invariant {P : σ → Prop} (hstep : ∀ {t t' a}, P t → ok t a → step t a = some t' → P t')
    {s t : σ} (hr : Steps step ok s t) (h₀ : P s) : P t := by
  induction hr with
  | refl => exact h₀
  | tail _ ha hs ih => exact hstep ih ha hs

def runFrom (step : σ → α → Option σ) (ok : σ → α → Bool) : σ → List α → Option σ
  | s, [] => some s
  | s, a :: as => if ok s a then (step s a).bind fun t => runFrom step ok t as else none

theorem runFrom_steps {ok : σ → α → Bool} : ∀ {as : List α} {s t : σ}, runFrom step ok s as = some t →
    Steps step (fun s a => ok s a = true) s t
  | [], s, t, h => by
    simp only [runFrom, Option.some.injEq] at h
    subst h; exact .refl
  | a :: as, s, t, h => by
    simp only [runFrom] at h
    split at h
    · rename_i ha
      obtain ⟨u, hs, hu⟩ := Option.bind_eq_some_iff.mp h
      have hu' : Steps step (fun s a => ok s a = true) s u := .tail .refl ha hs
      exact hu'.trans (runFrom_steps hu)
    · cases h

/-- A property of the state a list of actions leads to is one of a reachable state. -/
theorem exists_steps {ok : σ → α → Bool} {s : σ} (as : List α) {p : σ → Bool}
    (h : (runFrom step ok s as).any p = true) : ∃ t, Steps step (fun s a => ok s a = true) s t ∧ p t = true := by
  cases hr : runFrom step ok s as with
  | none => rw [hr] at h; cases h
  | some t => exact ⟨t, runFrom_steps hr, by rw [hr] at h; exact h⟩

end

end Lib
