/-
Text by lines: the pieces between separators, and a piece's key and value.
-/
import Mathlib.Data.List.TakeWhile
import Mathlib.Tactic.Common

namespace Ncmips.Lines

variable {α : Type} [DecidableEq α] (sep : α)

/-- The pieces that separators end; the last one may be without. -/
def pieces : List α → List (List α)
  | [] => []
  | c :: cs =>
      (c :: cs).takeWhile (· ≠ sep) :: pieces (((c :: cs).dropWhile (· ≠ sep)).drop 1)
termination_by l => l.length
decreasing_by
  have hle := (List.dropWhile_sublist (· ≠ sep) (l := c :: cs)).length_le
  have hdrop : (((c :: cs).dropWhile (· ≠ sep)).drop 1).length
      = ((c :: cs).dropWhile (· ≠ sep)).length - 1 := List.length_drop
  have hpos : 0 < (c :: cs).length := Nat.succ_pos _
  omega

/-- What comes before the first separator, and what after it. -/
def keyValue (l : List α) : Option (List α × List α) :=
  match l.dropWhile (· ≠ sep) with
  | [] => none
  | _ :: v => some (l.takeWhile (· ≠ sep), v)

variable {sep}

theorem takeWhile_sep {l : List α} (h : sep ∉ l) (rest : List α) :
    (l ++ sep :: rest).takeWhile (· ≠ sep) = l := by
  rw [List.takeWhile_append_of_pos fun c hc => by
    rw [decide_eq_true_eq]
    rintro rfl
    exact h hc]
  rw [List.takeWhile_cons_of_neg (by simp), List.append_nil]

theorem dropWhile_sep {l : List α} (h : sep ∉ l) (rest : List α) :
    (l ++ sep :: rest).dropWhile (· ≠ sep) = sep :: rest := by
  rw [List.dropWhile_append_of_pos fun c hc => by
    rw [decide_eq_true_eq]
    rintro rfl
    exact h hc]
  exact List.dropWhile_cons_of_neg (by simp)

@[simp] theorem pieces_nil : pieces sep [] = [] := by
  rw [pieces]

theorem pieces_line {l : List α} (h : sep ∉ l) (rest : List α) :
    pieces sep (l ++ sep :: rest) = l :: pieces sep rest := by
  cases hl : l ++ sep :: rest with
  | nil => simp at hl
  | cons c cs => rw [pieces, ← hl, takeWhile_sep h, dropWhile_sep h, List.drop_succ_cons, List.drop_zero]

/-- Lines written one after the other are read back. -/
theorem pieces_lines {ls : List (List α)} (h : ∀ l ∈ ls, sep ∉ l) (rest : List α) :
    pieces sep (ls.flatMap (fun l => l ++ [sep]) ++ rest) = ls ++ pieces sep rest := by
  induction ls with
  | nil => rfl
  | cons l ls ih =>
      rw [List.flatMap_cons, List.append_assoc, List.append_assoc, List.singleton_append,
        pieces_line (h l List.mem_cons_self), ih fun k hk => h k (List.mem_cons_of_mem l hk),
        List.cons_append]

/-- No separator is in a piece. -/
theorem not_mem_pieces {t l : List α} (h : l ∈ pieces sep t) : sep ∉ l := by
  fun_induction pieces sep t with
  | case1 => exact nomatch h
  | case2 c cs ih =>
      rcases List.mem_cons.mp h with rfl | h
      · intro hmem
        have := List.mem_takeWhile_imp hmem
        simp at this
      · exact ih h

theorem keyValue_eq {k : List α} (h : sep ∉ k) (v : List α) :
    keyValue sep (k ++ sep :: v) = some (k, v) := by
  rw [keyValue, dropWhile_sep h, takeWhile_sep h]

/-- A value is part of its piece. -/
theorem keyValue_sublist {l k v : List α} (h : keyValue sep l = some (k, v)) : v.Sublist l := by
  unfold keyValue at h
  split at h
  · exact nomatch h
  · next c v' hdrop =>
    cases h
    have hsub := List.dropWhile_sublist (· ≠ sep) (l := l)
    rw [hdrop] at hsub
    exact (List.sublist_cons_self c v).trans hsub

end Ncmips.Lines
