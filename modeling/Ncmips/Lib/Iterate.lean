/-
A deterministic machine: what every step keeps, and how runs compose.
-/
import Mathlib.Logic.Function.Iterate

namespace Iterate

variable {S : Type} (step : S → S)

/-- Some number of steps leads from one state to the other. -/
def Reaches (s s' : S) : Prop := ∃ n, step^[n] s = s'

variable {step}

theorem Reaches.refl (s : S) : Reaches step s s := ⟨0, rfl⟩

theorem Reaches.trans {s s' s'' : S} (h : Reaches step s s') (h' : Reaches step s' s'') :
    Reaches step s s'' := by
  obtain ⟨n, rfl⟩ := h
  obtain ⟨m, rfl⟩ := h'
  exact ⟨m + n, Function.iterate_add_apply step m n s⟩

theorem Reaches.head {s s' s'' : S} (h : step s = s') (h' : Reaches step s' s'') :
    Reaches step s s'' :=
  .trans ⟨1, h⟩ h'

/-- What every step keeps holds at every moment. -/
theorem keeps {I : S → Prop} (hstep : ∀ s, I s → I (step s)) {s : S} (h : I s) (n : Nat) :
    I (step^[n] s) := by
  induction n with
  | zero => exact h
  | succ n ih =>
      rw [Function.iterate_succ_apply']
      exact hstep _ ih

theorem Reaches.keeps {I : S → Prop} (hstep : ∀ s, I s → I (step s)) {s s' : S}
    (h : Reaches step s s') (hs : I s) : I s' := by
  obtain ⟨n, rfl⟩ := h
  exact Iterate.keeps hstep hs n

end Iterate
