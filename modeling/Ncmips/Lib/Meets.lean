/-
What a program does against a device that answers each request always the
same way: which requests it makes, and what it returns.

`Meets` is the pair of both as a postcondition; its rules follow the
program's text, so that a proof about a function reads as the function.
-/
import Ncmips.Lib.Program

namespace Ncmips.Prog

variable {E R α β : Type} {answer : E → R} {ok : E → Prop}

/-- Every request that the program makes is `ok`, and its result is a `Q`. -/
def Meets (answer : E → R) (ok : E → Prop) : Prog E R α → (α → Prop) → Prop
  | ret a, Q => Q a
  | call e k, Q => ok e ∧ (k (answer e)).Meets answer ok Q

theorem meets_ret {a : α} {Q : α → Prop} (h : Q a) : (ret a : Prog E R α).Meets answer ok Q := h

theorem meets_pure {a : α} {Q : α → Prop} (h : Q a) :
    (pure a : Prog E R α).Meets answer ok Q := h

theorem meets_ask {e : E} {Q : R → Prop} (hok : ok e) (h : Q (answer e)) :
    (ask e).Meets answer ok Q := ⟨hok, h⟩

/-- One program after another: the first has to establish what the second
needs. -/
theorem meets_bind {p : Prog E R α} {f : α → Prog E R β} {Q : β → Prop}
    (h : p.Meets answer ok fun a => (f a).Meets answer ok Q) :
    (p >>= f).Meets answer ok Q := by
  induction p with
  | ret a => exact h
  | call e k ih => exact ⟨h.1, ih _ h.2⟩

theorem Meets.mono {p : Prog E R α} {Q Q' : α → Prop} (h : p.Meets answer ok Q)
    (hQ : ∀ a, Q a → Q' a) : p.Meets answer ok Q' := by
  induction p with
  | ret a => exact hQ a h
  | call e k ih => exact ⟨h.1, ih _ h.2⟩

/-- A lemma about the first program, used where another follows. -/
theorem Meets.bind {p : Prog E R α} {f : α → Prog E R β} {P : α → Prop} {Q : β → Prop}
    (h : p.Meets answer ok P) (hf : ∀ a, P a → (f a).Meets answer ok Q) :
    (p >>= f).Meets answer ok Q := meets_bind (h.mono hf)

/-- The result is the one that `eval` gives. -/
theorem Meets.result {p : Prog E R α} {Q : α → Prop} (h : p.Meets answer ok Q) :
    Q (p.eval answer) := by
  induction p with
  | ret a => exact h
  | call e k ih => exact ih _ h.2

/-- More requests may be allowed. -/
theorem Meets.allow {ok' : E → Prop} {p : Prog E R α} {Q : α → Prop} (h : p.Meets answer ok Q)
    (hok : ∀ e, ok e → ok' e) : p.Meets answer ok' Q := by
  induction p with
  | ret a => exact h
  | call e k ih => exact ⟨hok e h.1, ih _ h.2⟩

-- ============================================================== cut short

/-- A program with loops that have a number of turns: if it needs more, it is
cut short, in some state. -/
abbrev Turns (E R S : Type) := ExceptT S (Prog E R)

variable {S : Type}

/-- As `Meets`; and where it is cut short, the state is a `C`. -/
def Goes (answer : E → R) (ok : E → Prop) (p : Turns E R S α) (C : S → Prop) (Q : α → Prop) :
    Prop :=
  p.run.Meets answer ok fun r => match r with
    | .error s => C s
    | .ok a => Q a

variable {C C' : S → Prop}

theorem goes_pure {a : α} {Q : α → Prop} (h : Q a) :
    Goes answer ok (pure a : Turns E R S α) C Q := h

theorem goes_throw {s : S} {Q : α → Prop} (h : C s) :
    Goes answer ok (throw s : Turns E R S α) C Q := h

theorem goes_lift {p : Prog E R α} {Q : α → Prop} (h : p.Meets answer ok Q) :
    Goes answer ok (liftM p : Turns E R S α) C Q :=
  meets_bind (h.mono fun _ hQ => hQ)

theorem Goes.bind {p : Turns E R S α} {f : α → Turns E R S β} {P : α → Prop} {Q : β → Prop}
    (h : Goes answer ok p C P) (hf : ∀ a, P a → Goes answer ok (f a) C Q) :
    Goes answer ok (p >>= f) C Q := by
  refine meets_bind (h.mono fun r hr => ?_)
  cases r with
  | error s => exact hr
  | ok a => exact hf a hr

theorem Goes.mono {p : Turns E R S α} {Q Q' : α → Prop} (h : Goes answer ok p C Q)
    (hC : ∀ s, C s → C' s) (hQ : ∀ a, Q a → Q' a) : Goes answer ok p C' Q' := by
  refine Meets.mono h fun r hr => ?_
  cases r with
  | error s => exact hC s hr
  | ok a => exact hQ a hr

theorem Goes.allow {ok' : E → Prop} {p : Turns E R S α} {Q : α → Prop} (h : Goes answer ok p C Q)
    (hok : ∀ e, ok e → ok' e) : Goes answer ok' p C Q := Meets.allow h hok

/-- What it comes to. -/
def outcome (answer : E → R) (p : Turns E R S α) : Except S α := p.run.eval answer

theorem Goes.outcome {p : Turns E R S α} {Q : α → Prop} (h : Goes answer ok p C Q) :
    match outcome answer p with
    | .error s => C s
    | .ok a => Q a := Meets.result h

theorem outcome_bind (p : Turns E R S α) (f : α → Turns E R S β) :
    outcome answer (p >>= f) = match outcome answer p with
      | .error s => .error s
      | .ok a => outcome answer (f a) := by
  unfold outcome
  rw [ExceptT.run_bind, eval_bind]
  cases p.run.eval answer with
  | error s => rfl
  | ok a => rfl

@[simp] theorem outcome_pure (a : α) : outcome answer (pure a : Turns E R S α) = .ok a := rfl

@[simp] theorem outcome_throw (s : S) : outcome answer (throw s : Turns E R S α) = .error s := rfl

@[simp] theorem outcome_lift (p : Prog E R α) :
    outcome answer (liftM p : Turns E R S α) = .ok (p.eval answer) := by
  unfold outcome
  exact eval_bind answer p _

-- ============================================================= more turns

/-- The second program does what the first does, where that is not cut
short. -/
def Longer (answer : E → R) (p q : Turns E R S α) : Prop :=
  ∀ a, outcome answer p = .ok a → outcome answer q = .ok a

theorem Longer.refl (p : Turns E R S α) : Longer answer p p := fun _ h => h

theorem Longer.trans {p q r : Turns E R S α} (h : Longer answer p q) (h' : Longer answer q r) :
    Longer answer p r := fun a ha => h' a (h a ha)

theorem longer_throw (s : S) (q : Turns E R S α) : Longer answer (throw s) q :=
  fun a h => by rw [outcome_throw] at h; exact nomatch h

theorem Longer.bind {p q : Turns E R S α} {f g : α → Turns E R S β} (h : Longer answer p q)
    (hf : ∀ a, Longer answer (f a) (g a)) : Longer answer (p >>= f) (q >>= g) := by
  intro b hb
  rw [outcome_bind] at hb ⊢
  cases hp : outcome answer p with
  | error s =>
      rw [hp] at hb
      exact nomatch hb
  | ok a =>
      rw [hp] at hb
      rw [h a hp]
      exact hf a b hb

/-- A program that is longer with each turn gives one result. -/
theorem longer_of_le {p : Nat → Turns E R S α} (h : ∀ n, Longer answer (p n) (p (n + 1))) {m n : Nat}
    (hmn : m ≤ n) : Longer answer (p m) (p n) := by
  induction hmn with
  | refl => exact .refl _
  | step _ ih => exact ih.trans (h _)

theorem outcome_unique {p : Nat → Turns E R S α} (h : ∀ n, Longer answer (p n) (p (n + 1)))
    {m n : Nat} {a b : α} (ha : outcome answer (p m) = .ok a) (hb : outcome answer (p n) = .ok b) :
    a = b := by
  have ha' := longer_of_le h (Nat.le_max_left m n) a ha
  have hb' := longer_of_le h (Nat.le_max_right m n) b hb
  rw [ha', Except.ok.injEq] at hb'
  exact hb'

end Ncmips.Prog
