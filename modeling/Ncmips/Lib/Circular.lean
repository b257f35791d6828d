/-
A circular buffer with a running write position: cell `i % n` gets the
`i`-th word. It holds the last `n` words of its tape, whatever the tape.
-/
import Mathlib.Data.List.Basic
import Mathlib.Tactic.Common

namespace Circular

variable {α : Type}

/-- The cells hold the last `n` words of `tape`. -/
def Holds (cells : Nat → α) (n : Nat) (tape : List α) : Prop :=
  ∀ i (h : i < tape.length), tape.length ≤ i + n → cells (i % n) = tape[i]

theorem holds_nil (cells : Nat → α) (n : Nat) : Holds cells n [] :=
  fun _ h => absurd h (Nat.not_lt_zero _)

/-- Less than `n` apart, two positions have cells of their own. -/
theorem mod_ne {n i j : Nat} (hij : i < j) (hn : j < i + n) : i % n ≠ j % n := by
  intro h
  have hdvd : n ∣ j - i := Nat.dvd_of_mod_eq_zero (Nat.sub_mod_eq_zero_of_mod_eq h.symm)
  have hle := Nat.le_of_dvd (by omega) hdvd
  omega

theorem Holds.put {cells : Nat → α} {n : Nat} {tape : List α} (h : Holds cells n tape) (w : α) :
    Holds (Function.update cells (tape.length % n) w) n (tape ++ [w]) := by
  intro i hi hle
  simp only [List.length_append, List.length_singleton] at hi hle
  by_cases hlast : i = tape.length
  · subst hlast
    simp
  · have hlt : i < tape.length := by omega
    have hne : i % n ≠ tape.length % n := mod_ne hlt (by omega)
    rw [Function.update_of_ne hne, h i hlt (by omega), List.getElem_append_left hlt]

/-- Reading `k` words from position `lo`, all of them still there. -/
theorem Holds.read {cells : Nat → α} {n : Nat} {tape : List α} (h : Holds cells n tape)
    {lo k : Nat} (hk : lo + k ≤ tape.length) (hlo : tape.length ≤ lo + n) :
    (List.range k).map (fun i => cells ((lo + i) % n)) = (tape.drop lo).take k := by
  apply List.ext_getElem
  · simp
    omega
  · intro i hi _
    simp only [List.length_map, List.length_range] at hi
    simp only [List.getElem_map, List.getElem_range, List.getElem_take, List.getElem_drop]
    exact h (lo + i) (by omega) (by omega)

end Circular
