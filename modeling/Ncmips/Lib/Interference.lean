/-
What holds of a machine's calls while its device goes on by itself.

An assertion that the device keeps (`Stable`) is still there at the next
transfer. `Sure` follows a program from transfer to transfer so, with what
is true at each of them; what every call keeps, a run keeps.
-/
import Mathlib.Logic.Relation
import Ncmips.Lib.Program

namespace Ncmips.Machine

open Relation

variable {E R C V D α β : Type} (M : Machine E R C V D)

/-- The device keeps `J`. -/
def Stable (J : D → Prop) : Prop := ∀ d d', M.own d d' → J d → J d'

variable {M}

theorem Stable.many {J : D → Prop} (h : M.Stable J) {d d' : D} (hown : ReflTransGen M.own d d')
    (hd : J d) : J d' := by
  induction hown with
  | refl => exact hd
  | tail _ hlast ih => exact h _ _ hlast ih

variable (M)

/-- Whatever the device does between the transfers, `G` holds at each of
them and `Q` of what is returned. -/
def Sure (G : D → Prop) : Prog E R α → (α → D → Prop) → D → Prop
  | .ret a, Q, d => Q a d
  | .call e k, Q, d => ∀ d', ReflTransGen M.own d d' →
      G d' ∧ Sure G (k (M.answer d' e).1) Q (M.answer d' e).2

variable {M} {G : D → Prop}

/-- A transfer, made in a state that the device keeps. -/
theorem Sure.call {J : D → Prop} (hJ : M.Stable J) (hG : ∀ d, J d → G d) {e : E}
    {k : R → Prog E R α} {Q : α → D → Prop}
    (hnext : ∀ d, J d → M.Sure G (k (M.answer d e).1) Q (M.answer d e).2) {d : D} (hd : J d) :
    M.Sure G (.call e k) Q d := by
  intro d' hown
  have hd' := hJ.many hown hd
  exact ⟨hG d' hd', hnext d' hd'⟩

theorem Sure.weaken {p : Prog E R α} {Q Q' : α → D → Prop} {d : D} (h : M.Sure G p Q d)
    (hQ : ∀ a d, Q a d → Q' a d) : M.Sure G p Q' d := by
  induction p generalizing d with
  | ret a => exact hQ a d h
  | call e k ih => exact fun d' hown => ⟨(h d' hown).1, ih _ (h d' hown).2⟩

theorem Sure.bind {p : Prog E R α} {f : α → Prog E R β} {Q : β → D → Prop} {d : D}
    (h : M.Sure G p (fun a d => M.Sure G (f a) Q d) d) : M.Sure G (p >>= f) Q d := by
  induction p generalizing d with
  | ret a => exact h
  | call e k ih => exact fun d' hown => ⟨(h d' hown).1, ih _ (h d' hown).2⟩

/-- What is left of a call, between two transfers. -/
theorem Sure.own {e : E} {k : R → Prog E R α} {Q : α → D → Prop} {d d' : D}
    (h : M.Sure G (.call e k) Q d) (hown : M.own d d') : M.Sure G (.call e k) Q d' :=
  fun d'' hmore => h d'' (.head hown hmore)

theorem Sure.now {e : E} {k : R → Prog E R α} {Q : α → D → Prop} {d : D}
    (h : M.Sure G (.call e k) Q d) : G d :=
  (h d .refl).1

-- ===================================================================== runs

/-- Between the calls `I`, and within them what leads to `Q`. -/
def Between (G I Q : D → Prop) (s : Sys E R C V D) : Prop :=
  match s.busy with
  | none => I s.dev
  | some (_, p) => (∃ e k, p = .call e k) ∧ M.Sure G p (fun _ => Q) s.dev

theorem Between.own {I Q : D → Prop} (hI : M.Stable I) {d d' : D} {b : Option (C × Prog E R V)}
    (hown : M.own d d') (h : Between (M := M) G I Q ⟨d, b⟩) : Between (M := M) G I Q ⟨d', b⟩ := by
  rcases b with _ | ⟨c, p⟩
  · exact hI d d' hown h
  · obtain ⟨⟨e, k, rfl⟩, hsure⟩ := h
    exact ⟨⟨e, k, rfl⟩, hsure.own hown⟩

/-- The call goes on, or it has returned. -/
theorem Between.go {I Q : D → Prop} {p : Prog E R V} {d : D} (c : C)
    (h : M.Sure G p (fun _ => Q) d) :
    ((Sys.go d c p).1 = none ∧ Between (M := M) G I Q (Sys.go d c p).2)
      ∨ ((Sys.go d c p).1 ≠ none ∧ (Sys.go d c p).2.busy = none ∧ Q (Sys.go d c p).2.dev) := by
  cases p with
  | ret v => exact .inr ⟨Option.some_ne_none _, rfl, h⟩
  | call e k => exact .inl ⟨rfl, ⟨e, k, rfl⟩, h⟩

theorem Between.step {I Q : D → Prop} (hI : M.Stable I)
    (hcall : ∀ c d, I d → M.Sure G (M.prog c) (fun _ => Q) d) {s s' : Sys E R C V D}
    {o : Option (C × V)} (h : M.Step s o s') (hs : Between (M := M) G I Q s) :
    (o = none ∧ Between (M := M) G I Q s') ∨ (o ≠ none ∧ s'.busy = none ∧ Q s'.dev) := by
  cases h with
  | own hown => exact .inl ⟨rfl, hs.own hI hown⟩
  | start c => exact Between.go c (hcall c _ hs)
  | @transfer d c e k => exact Between.go c (hs.2 d .refl).2

theorem Sys.go_dev (d : D) (c : C) (p : Prog E R V) : (Sys.go d c p).2.dev = d := by
  cases p <;> rfl

/-- What a call comes to, and every step keeps, holds once a call has
returned. -/
theorem Run.returned {J Q : D → Prop} (hJ : M.Stable J) (hQ : M.Stable Q)
    (hanswer : ∀ d e, Q d → Q (M.answer d e).2)
    (hcall : ∀ c d, J d → M.Sure G (M.prog c) (fun _ => Q) d) {d : D} {s : Sys E R C V D}
    {outs : List (C × V)} (h : M.Run ⟨d, none⟩ outs s) (hd : J d) (houts : outs ≠ []) :
    Q s.dev := by
  have hkept : ∀ s o s', M.Step s o s' → Q s.dev → Q s'.dev := by
    intro s o s' hstep hs
    cases hstep with
    | own hown => exact hQ _ _ hown hs
    | start c => exact (Sys.go_dev _ _ _).symm ▸ hs
    | transfer => exact (Sys.go_dev _ _ _).symm ▸ hanswer _ _ hs
  have hall : (outs ≠ [] ∧ Q s.dev) ∨ (outs = [] ∧ Between (M := M) G J Q s) := by
    clear houts
    induction h with
    | nil => exact .inr ⟨rfl, hd⟩
    | @step _ _ outs o hrun hlast ih =>
        rcases ih with ⟨hsome, hq⟩ | ⟨rfl, hs⟩
        · exact .inl ⟨fun hnil => hsome (List.append_eq_nil_iff.mp hnil).1, hkept _ _ _ hlast hq⟩
        · rcases Between.step hJ hcall hlast hs with ⟨rfl, hs'⟩ | ⟨hsome, -, hq⟩
          · exact .inr ⟨rfl, hs'⟩
          · refine .inl ⟨?_, hq⟩
            cases o with
            | none => exact absurd rfl hsome
            | some v => exact List.cons_ne_nil _ _
  rcases hall with ⟨-, hq⟩ | ⟨hnil, -⟩
  · exact hq
  · exact absurd hnil houts

-- ==================================================================== alone

/-- What a program does while the device stands still. -/
def exec (answer : D → E → R × D) : Prog E R α → D → α × D
  | .ret a, d => (a, d)
  | .call e k, d => exec answer (k (answer d e).1) (answer d e).2

@[simp] theorem exec_ret (answer : D → E → R × D) (a : α) (d : D) :
    exec answer (.ret a) d = (a, d) := rfl

theorem exec_bind (answer : D → E → R × D) (p : Prog E R α) (f : α → Prog E R β) (d : D) :
    exec answer (p >>= f) d
      = exec answer (f (exec answer p d).1) (exec answer p d).2 := by
  induction p generalizing d with
  | ret a => rfl
  | call e k ih => exact ih _ _

end Ncmips.Machine
