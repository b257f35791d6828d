/-
Input taken in a symbol at a time, used a block at a time.

A buffer of `B` symbols is written round and round; each time it is full
its block is folded into an accumulator. Whatever the pieces the input
comes in, what has been folded is the input's whole blocks, and the
buffer holds the rest (`Absorbed`).
-/
import Mathlib.Tactic.Common
import Mathlib.Data.List.GetD
import Mathlib.Algebra.Order.Group.Nat

namespace Ncmips

variable {σ α : Type} [Inhabited α] {B : Nat}

/-- Block `i` of the input. -/
def blockAt (B : Nat) (l : List α) (i : Nat) : Vector α B :=
  .ofFn fun j => l.getD (B * i + j) default

/-- The whole blocks of the input. -/
def blocksOf (B : Nat) (l : List α) : List (Vector α B) :=
  (List.range (l.length / B)).map (blockAt B l)

theorem blockAt_append {l m : List α} {i : Nat} (h : B * i + B ≤ l.length) :
    blockAt B (l ++ m) i = blockAt B l i := by
  unfold blockAt
  congr 1
  funext j
  rw [List.getD_append _ _ _ _ (by omega)]

/-- Another symbol completes a block or it does not. -/
theorem blocksOf_snoc (l : List α) (x : α) :
    blocksOf B (l ++ [x])
      = blocksOf B l
        ++ if (l.length + 1) % B = 0 then [blockAt B (l ++ [x]) (l.length / B)] else [] := by
  have hold : ∀ i ∈ List.range (l.length / B), blockAt B (l ++ [x]) i = blockAt B l i := by
    intro i hi
    apply blockAt_append
    have hi' : i + 1 ≤ l.length / B := List.mem_range.1 hi
    calc B * i + B = B * (i + 1) := (Nat.mul_succ B i).symm
      _ ≤ B * (l.length / B) := Nat.mul_le_mul_left B hi'
      _ ≤ l.length := Nat.mul_div_le _ _
  unfold blocksOf
  rw [List.length_append, List.length_singleton]
  split
  · next hfull =>
    have hdiv : (l.length + 1) / B = l.length / B + 1 := by
      rw [Nat.succ_div, if_pos (Nat.dvd_of_mod_eq_zero hfull)]
    rw [hdiv, List.range_succ, List.map_append, List.map_congr_left hold]
    rfl
  · next hrest =>
    have hdiv : (l.length + 1) / B = l.length / B := by
      rw [Nat.succ_div, if_neg fun h => hrest (Nat.mod_eq_zero_of_dvd h), Nat.add_zero]
    rw [hdiv, List.map_congr_left hold, List.append_nil]

variable {f : σ → Vector α B → σ} {init acc : σ} {l : List α} {buf : Vector α B}

/-- What has become of the input `l`. -/
structure Absorbed (f : σ → Vector α B → σ) (init : σ) (l : List α) (acc : σ)
    (buf : Vector α B) : Prop where
  acc_eq : acc = (blocksOf B l).foldl f init
  rest : ∀ j : Fin B, j.val < l.length % B → buf.get j = l.getD (B * (l.length / B) + j) default

theorem Absorbed.nil (f : σ → Vector α B → σ) (init : σ) (buf : Vector α B) :
    Absorbed f init [] init buf where
  acc_eq := by simp [blocksOf]
  rest j hj := by simp at hj

/-- One more symbol, into its place; a full buffer is folded in. -/
theorem Absorbed.put (h : Absorbed f init l acc buf) (x : α) (hB : l.length % B < B) :
    Absorbed f init (l ++ [x])
      (if (l.length + 1) % B = 0 then f acc (buf.set (l.length % B) x) else acc)
      (buf.set (l.length % B) x) := by
  have hget : ∀ j : Fin B, j.val ≤ l.length % B →
      (buf.set (l.length % B) x).get j = (l ++ [x]).getD (B * (l.length / B) + j) default := by
    intro j hj
    have hdiv := Nat.div_add_mod l.length B
    show (buf.set (l.length % B) x)[j.val] = _
    rw [Vector.getElem_set]
    split
    · next hx =>
      rw [List.getD_append_right _ _ _ _ (by omega),
        show B * (l.length / B) + j.val - l.length = 0 by omega]
      rfl
    · next hx =>
      rw [List.getD_append _ _ _ _ (by omega)]
      exact h.rest j (by omega)
  refine ⟨?_, ?_⟩
  · rw [blocksOf_snoc, List.foldl_append, ← h.acc_eq]
    split
    · next hfull =>
      have hlast : buf.set (l.length % B) x = blockAt B (l ++ [x]) (l.length / B) := by
        apply Vector.ext
        intro j hj
        have hend : l.length % B = B - 1 := by
          have hmod := Nat.mod_add_mod l.length B 1
          by_contra hne
          rw [Nat.mod_eq_of_lt (by omega)] at hmod
          omega
        have hj' := hget ⟨j, hj⟩ (by show j ≤ _; omega)
        rw [blockAt, Vector.getElem_ofFn]
        exact hj'
      rw [hlast]
      rfl
    · rfl
  · intro j hj
    rw [List.length_append, List.length_singleton] at hj ⊢
    rcases Nat.eq_zero_or_pos ((l.length + 1) % B) with hfull | hrest
    · omega
    · have hsucc : (l.length + 1) % B = l.length % B + 1 := by
        have hmod := Nat.mod_add_mod l.length B 1
        rcases Nat.lt_or_ge (l.length % B + 1) B with hlt | hge
        · rw [Nat.mod_eq_of_lt hlt] at hmod
          omega
        · rw [show l.length % B + 1 = B by omega, Nat.mod_self] at hmod
          omega
      have hdiv : (l.length + 1) / B = l.length / B := by
        rw [Nat.succ_div, if_neg fun h => by rw [Nat.mod_eq_zero_of_dvd h] at hrest; omega,
          Nat.add_zero]
      rw [hdiv]
      exact hget j (by omega)

end Ncmips
