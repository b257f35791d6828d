/-
A program against an environment that moves: before each answer it may
have gone on, and the answer is any that it may give.

`Faces` is what holds of the result whatever the environment does; the
device of a run is such an environment, of which the program sees only
its answers.
-/
import Ncmips.Lib.Program

namespace Ncmips.Prog

variable {E R α β σ : Type}

/-- Whatever the environment answers (`next s e r s'`: in state `s` it may
answer `e` by `r` and is then in `s'`), it and the result are a `Q` at the
end. -/
def Faces (next : σ → E → R → σ → Prop) (s : σ) : Prog E R α → (σ → α → Prop) → Prop
  | ret a, Q => Q s a
  | call e k, Q => ∀ r s', next s e r s' → (k r).Faces next s' Q

variable {next : σ → E → R → σ → Prop} {s : σ}

theorem faces_pure {a : α} {Q : σ → α → Prop} (h : Q s a) :
    (pure a : Prog E R α).Faces next s Q := h

theorem faces_ask {e : E} {Q : σ → R → Prop} (h : ∀ r s', next s e r s' → Q s' r) :
    (ask e).Faces next s Q := h

theorem Faces.bind {p : Prog E R α} {f : α → Prog E R β} {P : σ → α → Prop} {Q : σ → β → Prop}
    (h : p.Faces next s P) (hf : ∀ s' a, P s' a → (f a).Faces next s' Q) :
    (p >>= f).Faces next s Q := by
  induction p generalizing s with
  | ret a => exact hf s a h
  | call e k ih => exact fun r s' hr => ih r (h r s' hr)

theorem Faces.mono {p : Prog E R α} {P Q : σ → α → Prop} (h : p.Faces next s P)
    (hQ : ∀ s' a, P s' a → Q s' a) : p.Faces next s Q := by
  induction p generalizing s with
  | ret a => exact hQ s a h
  | call e k ih => exact fun r s' hr => ih r (h r s' hr)

/-- What holds of where the environment is holds from a state with fewer
answers, too. -/
theorem Faces.weaken {p : Prog E R α} {Q : σ → α → Prop} {s' : σ} (h : p.Faces next s Q)
    (hnext : ∀ e r t, next s' e r t → next s e r t) (hQ : ∀ a, Q s a → Q s' a) :
    p.Faces next s' Q := by
  cases p with
  | ret a => exact hQ a h
  | call e k => exact fun r t hr => h r t (hnext e r t hr)

-- ================================================================== one run

/-- A run of the program, and how it leaves the environment. -/
inductive Ends (next : σ → E → R → σ → Prop) : σ → Prog E R α → σ → α → Prop
  | ret (s : σ) (a : α) : Ends next s (ret a) s a
  | call {s s' s'' : σ} {e : E} {r : R} {k : R → Prog E R α} {a : α} (hnext : next s e r s')
      (hrest : Ends next s' (k r) s'' a) : Ends next s (call e k) s'' a

@[simp] theorem ends_pure {a b : α} {s' : σ} :
    Ends next s (pure a : Prog E R α) s' b ↔ s' = s ∧ b = a := by
  constructor
  · intro h
    cases h
    exact ⟨rfl, rfl⟩
  · rintro ⟨rfl, rfl⟩
    exact .ret _ _

@[simp] theorem ends_ask {e : E} {r : R} {s' : σ} :
    Ends next s (ask e) s' r ↔ next s e r s' := by
  constructor
  · intro h
    cases h with
    | call hnext hrest =>
        cases hrest
        exact hnext
  · intro h
    exact .call h (.ret _ _)

theorem ends_bind {p : Prog E R α} {f : α → Prog E R β} {s'' : σ} {b : β} :
    Ends next s (p >>= f) s'' b ↔ ∃ s' a, Ends next s p s' a ∧ Ends next s' (f a) s'' b := by
  induction p generalizing s with
  | ret a =>
      constructor
      · intro h
        exact ⟨s, a, .ret s a, h⟩
      · rintro ⟨s', a', hp, hf⟩
        cases hp
        exact hf
  | call e k ih =>
      constructor
      · intro h
        cases h with
        | call hnext hrest =>
            obtain ⟨s', a, hp, hf⟩ := (ih _).mp hrest
            exact ⟨s', a, .call hnext hp, hf⟩
      · rintro ⟨s', a, hp, hf⟩
        cases hp with
        | call hnext hrest => exact .call hnext ((ih _).mpr ⟨s', a, hrest, hf⟩)

theorem Ends.bind {p : Prog E R α} {f : α → Prog E R β} {s' s'' : σ} {a : α} {b : β}
    (h : Ends next s p s' a) (hf : Ends next s' (f a) s'' b) : Ends next s (p >>= f) s'' b :=
  ends_bind.mpr ⟨s', a, h, hf⟩

/-- What each answer keeps, a run keeps. -/
theorem Ends.keeps {P : E → (R → Prog E R α) → Prop} {I : σ → Prop}
    (hstep : ∀ s s' e k r, P e k → next s e r s' → I s → I s') {p : Prog E R α} (hp : p.Every P)
    {s' : σ} {a : α} (h : Ends next s p s' a) (hs : I s) : I s' := by
  induction h with
  | ret => exact hs
  | call hnext _ ih => exact ih (hp.2 _) (hstep _ _ _ _ _ hp.1 hnext hs)

end Ncmips.Prog
