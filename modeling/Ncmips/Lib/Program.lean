/-
A program that talks to a device, one transfer at a time, while the
device goes on with work of its own.

`Prog` is the program: each transfer hands the device a request and
continues with its answer. `Machine` says which calls there are, how the
device answers, and what the device may do by itself between any two
transfers. A run interleaves the calls, one after another, with the
device's own steps in any way; what a call returns is the run's output.
-/
import Mathlib.Tactic.Common

namespace Ncmips

/-- A program over requests `E` answered by `R`. -/
inductive Prog (E R α : Type) where
  | ret (a : α)
  | call (e : E) (k : R → Prog E R α)

namespace Prog

variable {E R α β : Type}

def bind : Prog E R α → (α → Prog E R β) → Prog E R β
  | ret a, f => f a
  | call e k, f => call e fun r => (k r).bind f

instance : Monad (Prog E R) where
  pure := ret
  bind := bind

/-- One transfer, its answer handed on. -/
def ask (e : E) : Prog E R R := call e ret

@[simp] theorem pure_eq (a : α) : (pure a : Prog E R α) = ret a := rfl

@[simp] theorem call_bind (e : E) (k : R → Prog E R α) (f : α → Prog E R β) :
    (call e k >>= f) = call e fun r => k r >>= f := rfl

/-- The result, when a transfer's answer depends on the request only. -/
def eval (answer : E → R) : Prog E R α → α
  | ret a => a
  | call e k => (k (answer e)).eval answer

@[simp] theorem eval_ret (answer : E → R) (a : α) : (ret a : Prog E R α).eval answer = a := rfl

@[simp] theorem eval_ask (answer : E → R) (e : E) : (ask e).eval answer = answer e := rfl

@[simp] theorem eval_bind (answer : E → R) (p : Prog E R α) (f : α → Prog E R β) :
    (p >>= f).eval answer = (f (p.eval answer)).eval answer := by
  induction p with
  | ret a => rfl
  | call e k ih => exact ih (answer e)

/-- The result, and the number of the next transfer, when a transfer's
answer depends on its number, too. -/
def evalAt (answer : Nat → E → R) : Prog E R α → Nat → α × Nat
  | ret a, t => (a, t)
  | call e k, t => (k (answer t e)).evalAt answer (t + 1)

@[simp] theorem evalAt_ret (answer : Nat → E → R) (a : α) (t : Nat) :
    (ret a : Prog E R α).evalAt answer t = (a, t) := rfl

@[simp] theorem evalAt_ask (answer : Nat → E → R) (e : E) (t : Nat) :
    (ask e).evalAt answer t = (answer t e, t + 1) := rfl

theorem evalAt_bind (answer : Nat → E → R) (p : Prog E R α) (f : α → Prog E R β) (t : Nat) :
    (p >>= f).evalAt answer t = (f (p.evalAt answer t).1).evalAt answer (p.evalAt answer t).2 := by
  induction p generalizing t with
  | ret a => rfl
  | call e k ih => exact ih (answer t e) (t + 1)

theorem le_evalAt (answer : Nat → E → R) (p : Prog E R α) (t : Nat) :
    t ≤ (p.evalAt answer t).2 := by
  induction p generalizing t with
  | ret a => exact Nat.le_refl t
  | call e k ih => exact Nat.le_trans (Nat.le_succ t) (ih _ (t + 1))

instance : LawfulMonad (Prog E R) :=
  LawfulMonad.mk' (Prog E R)
    (by
      intro α p
      induction p with
      | ret a => rfl
      | call e k ih => exact congrArg (call e) (funext ih))
    (fun _ _ => rfl)
    (by
      intro α β γ p f g
      induction p with
      | ret a => rfl
      | call e k ih => exact congrArg (call e) (funext ih))

/-- `P` of every transfer the program can come to, with what follows it. -/
def Every (P : E → (R → Prog E R α) → Prop) : Prog E R α → Prop
  | ret _ => True
  | call e k => P e k ∧ ∀ r, (k r).Every P

@[simp] theorem every_ret (P : E → (R → Prog E R α) → Prop) (a : α) :
    (ret a : Prog E R α).Every P := trivial

@[simp] theorem every_call (P : E → (R → Prog E R α) → Prop) (e : E) (k : R → Prog E R α) :
    (call e k).Every P ↔ P e k ∧ ∀ r, (k r).Every P := Iff.rfl

theorem every_ask {P : E → (R → Prog E R R) → Prop} {e : E} (h : P e ret) :
    (ask e).Every P := ⟨h, fun _ => trivial⟩

/-- A program that goes on: its own transfers satisfy `Q`, those of what
follows satisfy `P`. -/
theorem every_bind {P : E → (R → Prog E R β) → Prop} {Q : E → Prop}
    (hQ : ∀ e k, Q e → P e k) {p : Prog E R α} (hp : p.Every fun e _ => Q e)
    {f : α → Prog E R β} (hf : ∀ a, (f a).Every P) : (p >>= f).Every P := by
  induction p with
  | ret a => exact hf a
  | call e k ih => exact ⟨hQ _ _ hp.1, fun r => ih r (hp.2 r)⟩

end Prog

/-- The calls a driver offers and the device they are made on. -/
structure Machine (E R C V D : Type) where
  prog : C → Prog E R V
  answer : D → E → R × D
  own : D → D → Prop

namespace Machine

variable {E R C V D : Type}

/-- The device, and the call under way with what is left of it. -/
structure Sys (E R C V D : Type) where
  dev : D
  busy : Option (C × Prog E R V) := none

/-- A call whose program has come to its end returns at once: nothing is
left between its last transfer and its return. -/
def Sys.go (d : D) (c : C) : Prog E R V → Option (C × V) × Sys E R C V D
  | .ret v => (some (c, v), { dev := d })
  | .call e k => (none, { dev := d, busy := some (c, .call e k) })

variable (M : Machine E R C V D)

inductive Step : Sys E R C V D → Option (C × V) → Sys E R C V D → Prop
  /-- The device does something by itself. -/
  | own {d d' : D} {b : Option (C × Prog E R V)} (h : M.own d d') :
      Step ⟨d, b⟩ none ⟨d', b⟩
  /-- A call is made. -/
  | start {d : D} (c : C) :
      Step ⟨d, none⟩ (Sys.go d c (M.prog c)).1 (Sys.go d c (M.prog c)).2
  /-- The call under way does its next transfer. -/
  | transfer {d : D} {c : C} {e : E} {k : R → Prog E R V} :
      Step ⟨d, some (c, .call e k)⟩
        (Sys.go (M.answer d e).2 c (k (M.answer d e).1)).1
        (Sys.go (M.answer d e).2 c (k (M.answer d e).1)).2

/-- A run and what its calls returned, in order. -/
inductive Run : Sys E R C V D → List (C × V) → Sys E R C V D → Prop
  | nil (s : Sys E R C V D) : Run s [] s
  | step {s s' s'' : Sys E R C V D} {outs : List (C × V)} {o : Option (C × V)}
      (hrun : Run s outs s') (hstep : M.Step s' o s'') : Run s (outs ++ o.toList) s''

variable {M}

/-- What every step keeps, a run keeps. -/
theorem Run.keeps {I : Sys E R C V D → Prop} (hstep : ∀ s o s', M.Step s o s' → I s → I s')
    {s s' : Sys E R C V D} {outs : List (C × V)} (h : M.Run s outs s') (hs : I s) : I s' := by
  induction h with
  | nil => exact hs
  | step _ hlast ih => exact hstep _ _ _ hlast ih

/-- Whatever is left of a call under way, each of its transfers is `P`. -/
def Sys.Every (P : C → E → (R → Prog E R V) → Prop) (s : Sys E R C V D) : Prop :=
  ∀ c p, s.busy = some (c, p) → p.Every (P c)

theorem Sys.go_every {P : C → E → (R → Prog E R V) → Prop} {d : D} {c : C} {p : Prog E R V}
    (h : p.Every (P c)) : (Sys.go d c p).2.Every P := by
  intro c' p' hbusy
  cases p with
  | ret v => simp [Sys.go] at hbusy
  | call e k =>
      simp only [Sys.go, Option.some.injEq, Prod.mk.injEq] at hbusy
      obtain ⟨rfl, rfl⟩ := hbusy
      exact h

theorem Step.every {P : C → E → (R → Prog E R V) → Prop} (hprog : ∀ c, (M.prog c).Every (P c))
    {s s' : Sys E R C V D} {o : Option (C × V)} (h : M.Step s o s') (hs : s.Every P) :
    s'.Every P := by
  cases h with
  | own => exact hs
  | start c => exact Sys.go_every (hprog c)
  | transfer => exact Sys.go_every ((hs _ _ rfl).2 _)

/-- What the device's own steps keep, and every transfer keeps or hands
to its caller as the call returns, is after a run still there or among
what was returned. -/
theorem Run.kept_or_returned {P : C → E → (R → Prog E R V) → Prop} {K : D → Prop}
    {Q : C → V → Prop} (hprog : ∀ c, (M.prog c).Every (P c))
    (hown : ∀ d d', M.own d d' → K d → K d')
    (htransfer : ∀ d c e k, P c e k → K d →
      K (M.answer d e).2 ∨ ∃ v, k (M.answer d e).1 = .ret v ∧ Q c v)
    {s s' : Sys E R C V D} {outs : List (C × V)} (h : M.Run s outs s') (hs : s.Every P)
    (hk : K s.dev) : K s'.dev ∨ ∃ c v, (c, v) ∈ outs ∧ Q c v := by
  have go_dev : ∀ (d : D) (c : C) (p : Prog E R V), (Sys.go d c p).2.dev = d := by
    intro d c p
    cases p <;> rfl
  induction h with
  | nil => exact .inl hk
  | @step s₁ s₂ outs o hrun hlast ih =>
      rcases ih with hk₁ | ⟨c, v, hmem, hq⟩
      · have hevery := hrun.keeps (fun _ _ _ hst => hst.every hprog) hs
        cases hlast with
        | own h => exact .inl (hown _ _ h hk₁)
        | start c => exact .inl (by rw [go_dev]; exact hk₁)
        | @transfer d c e k =>
            rcases htransfer d c e k (hevery _ _ rfl).1 hk₁ with hk₂ | ⟨v, hret, hq⟩
            · exact .inl (by rw [go_dev]; exact hk₂)
            · exact .inr ⟨c, v, by simp [hret, Sys.go], hq⟩
      · exact .inr ⟨c, v, List.mem_append_left _ hmem, hq⟩

end Machine

end Ncmips
