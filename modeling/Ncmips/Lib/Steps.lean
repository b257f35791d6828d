/-
Runs of a step function: at each moment an action that is possible, and
meets a condition on the action and the state it is taken in.
-/
import Mathlib.Tactic.Common

namespace Steps

variable {S A : Type}

/-- From the first state to the second by actions that meet `ok`. -/
inductive Run (step : S → A → Option S) (ok : S → A → Prop) : S → S → Prop
  | nil (s : S) : Run step ok s s
  | step {s s' s'' : S} {a : A} (hrun : Run step ok s s') (hok : ok s' a)
      (hstep : step s' a = some s'') : Run step ok s s''

variable {step : S → A → Option S} {ok : S → A → Prop}

/-- What every step keeps, a run keeps. -/
theorem Run.keeps {I : S → Prop}
    (hstep : ∀ s a s', ok s a → step s a = some s' → I s → I s') {s s' : S}
    (h : Run step ok s s') (hs : I s) : I s' := by
  induction h with
  | nil => exact hs
  | step _ hok hlast ih => exact hstep _ _ _ hok hlast ih

theorem Run.trans {s s' s'' : S} (h : Run step ok s s') (h' : Run step ok s' s'') :
    Run step ok s s'' := by
  induction h' with
  | nil => exact h
  | step _ hok hlast ih => exact .step ih hok hlast

/-- Actions that are possible one after another are a run. -/
theorem Run.acts (hok : ∀ s a, ok s a) {as : List A} {s s' : S} (h : as.foldlM step s = some s') :
    Run step ok s s' := by
  induction as generalizing s with
  | nil =>
      cases h
      exact .nil _
  | cons a as ih =>
      rw [List.foldlM_cons] at h
      obtain ⟨t, ht, hrest⟩ := Option.bind_eq_some_iff.mp h
      exact (Run.step (.nil s) (hok s a) ht).trans (ih hrest)

end Steps
