/-
Steps that can be taken back, and tables that are filled entry by entry.
-/
import Mathlib.Logic.Function.Basic
import Mathlib.Tactic.Common

namespace Ncmips

-- ================================================================== undo

/-- Steps undone one by one, the last one first. -/
theorem foldl_undo {σ ι : Type} {f g : σ → ι → σ} (h : ∀ s x, g (f s x) x = s) (xs : List ι)
    (s : σ) : xs.reverse.foldl g (xs.foldl f s) = s := by
  induction xs generalizing s with
  | nil => rfl
  | cons x xs ih =>
      rw [List.reverse_cons, List.foldl_append]
      show g (xs.reverse.foldl g (xs.foldl f (f s x))) x = s
      rw [ih, h]

/-- The same the other way round. -/
theorem foldl_redo {σ ι : Type} {f g : σ → ι → σ} (h : ∀ s x, f (g s x) x = s) (xs : List ι)
    (s : σ) : xs.foldl f (xs.reverse.foldl g s) = s := by
  have hback := foldl_undo (f := g) (g := f) h xs.reverse s
  rwa [List.reverse_reverse] at hback

-- ================================================================= tables

/-- An entry that no later one overwrites. -/
theorem foldl_update {ι κ α : Type} [DecidableEq κ] {p : ι → κ} {v : ι → α} (xs : List ι)
    {t : κ → α} {x : ι} (hx : x ∈ xs) (hp : ∀ y ∈ xs, p y = p x → v y = v x) :
    xs.foldl (fun t y => Function.update t (p y) (v y)) t (p x) = v x := by
  suffices hgen : ∀ (xs : List ι) (t : κ → α), (∀ y ∈ xs, p y = p x → v y = v x) →
      (t (p x) = v x ∨ x ∈ xs) →
        xs.foldl (fun t y => Function.update t (p y) (v y)) t (p x) = v x from
    hgen xs t hp (Or.inr hx)
  intro xs
  induction xs with
  | nil =>
      intro t _ ht
      simpa using ht
  | cons y ys ih =>
      intro t hp ht
      refine ih _ (fun z hz => hp z (List.mem_cons_of_mem _ hz)) ?_
      by_cases hy : p y = p x
      · left
        show Function.update t (p y) (v y) (p x) = v x
        rw [hy, Function.update_self]
        exact hp y List.mem_cons_self hy
      · show Function.update t (p y) (v y) (p x) = v x ∨ x ∈ ys
        rw [Function.update_of_ne (Ne.symm hy)]
        rcases ht with ht | ht
        · exact Or.inl ht
        · rcases List.mem_cons.1 ht with rfl | ht
          · exact absurd rfl hy
          · exact Or.inr ht

end Ncmips
