/-
What a program hands on while it runs.

Some requests give something away. `handed` lists what a program gives,
in order, and `Hands` is the postcondition that speaks of it: of the
result and of the list together. A program that gives nothing is proved
so by its requests alone, with the rules of `Goes`.
-/
import Ncmips.Lib.Meets

namespace Ncmips.Prog

variable {E R S X α β : Type} {answer : E → R} {give : E → List X}

/-- What its requests give. -/
def given (answer : E → R) (give : E → List X) : Prog E R α → List X
  | ret _ => []
  | call e k => give e ++ (k (answer e)).given answer give

@[simp] theorem given_call (e : E) (k : R → Prog E R α) :
    (call e k).given answer give = give e ++ (k (answer e)).given answer give := rfl

theorem given_bind (p : Prog E R α) (f : α → Prog E R β) :
    (p >>= f).given answer give = p.given answer give ++ (f (p.eval answer)).given answer give := by
  induction p with
  | ret a => rfl
  | call e k ih =>
      rw [call_bind, given_call, given_call, ih (answer e), List.append_assoc]
      rfl

theorem given_quiet {p : Prog E R α} {Q : α → Prop}
    (h : p.Meets answer (fun e => give e = []) Q) : p.given answer give = [] := by
  induction p with
  | ret a => rfl
  | call e k ih =>
      rw [given_call, h.1, ih _ h.2, List.append_nil]

-- ============================================================== cut short

def handed (answer : E → R) (give : E → List X) (p : Turns E R S α) : List X :=
  p.run.given answer give

/-- If it comes to its end, the result and what it gave are in `Q`. -/
def Hands (answer : E → R) (give : E → List X) (p : Turns E R S α) (Q : α → List X → Prop) : Prop :=
  ∀ a, outcome answer p = .ok a → Q a (handed answer give p)

theorem handed_bind (p : Turns E R S α) (f : α → Turns E R S β) :
    handed answer give (p >>= f) = handed answer give p ++ match outcome answer p with
      | .error _ => []
      | .ok a => handed answer give (f a) := by
  unfold handed outcome
  rw [ExceptT.run_bind, given_bind]
  cases p.run.eval answer with
  | error s => rfl
  | ok a => rfl

variable {p : Turns E R S α}

theorem hands_pure {a : α} {Q : α → List X → Prop} (h : Q a []) :
    Hands answer give (pure a : Turns E R S α) Q := by
  intro b hb
  cases hb
  exact h

theorem Hands.mono {Q Q' : α → List X → Prop} (h : Hands answer give p Q)
    (hQ : ∀ a l, Q a l → Q' a l) : Hands answer give p Q' := fun a ha => hQ a _ (h a ha)

theorem Hands.bind {f : α → Turns E R S β} {P : α → List X → Prop} {Q : β → List X → Prop}
    (h : Hands answer give p P)
    (hf : ∀ a l, P a l → Hands answer give (f a) fun b l' => Q b (l ++ l')) :
    Hands answer give (p >>= f) Q := by
  intro b hb
  rw [outcome_bind] at hb
  rw [handed_bind]
  cases hp : outcome answer p with
  | error s =>
      rw [hp] at hb
      cases hb
  | ok a =>
      rw [hp] at hb
      exact hf a _ (h a hp) b hb

/-- One request, and what it gives. -/
theorem hands_ask {e : E} {Q : R → List X → Prop} (h : Q (answer e) (give e)) :
    Hands answer give (liftM (ask e) : Turns E R S R) Q := by
  intro a ha
  cases ha
  have hgiven : handed answer give (liftM (ask e) : Turns E R S R) = give e := List.append_nil _
  rw [hgiven]
  exact h

/-- A program whose requests give nothing. -/
theorem Goes.hands {C : S → Prop} {Q : α → Prop}
    (h : Goes answer (fun e => give e = []) p C Q) :
    Hands answer give p fun a l => Q a ∧ l = [] := by
  intro a ha
  have hres := h.outcome
  rw [ha] at hres
  exact ⟨hres, given_quiet h⟩

theorem Goes.hands_bind {f : α → Turns E R S β} {C : S → Prop} {P : α → Prop}
    {Q : β → List X → Prop} (h : Goes answer (fun e => give e = []) p C P)
    (hf : ∀ a, P a → Hands answer give (f a) Q) : Hands answer give (p >>= f) Q :=
  h.hands.bind fun a l ⟨hP, hl⟩ => by
    rw [hl]
    exact hf a hP

end Ncmips.Prog
