/-
Patches: lists of writes into an array, and what is left of their
order.

A write outside the array is dropped, so a patch never changes a size.
All that matters of a patch is the last value it has for an index
(`value`): two patches that never write the same index commute, a patch
that writes every index another one writes hides it, and outside its
domain a patch does nothing.
-/
import Mathlib

namespace Patch

variable {α : Type}

/-- The writes, oldest first. -/
abbrev Writes (α : Type) := List (Nat × α)

def apply (ws : Writes α) (a : Array α) : Array α :=
  ws.foldl (fun a w => a.setIfInBounds w.1 w.2) a

/-- The value an index is left with, if it is written. -/
def value : Writes α → Nat → Option α
  | [], _ => none
  | w :: ws, i => (value ws i).or (if w.1 = i then some w.2 else none)

/-- The indices a patch writes. -/
def dom (ws : Writes α) : Set Nat := {i | ∃ v, (i, v) ∈ ws}

@[simp] theorem apply_nil (a : Array α) : apply [] a = a := rfl

theorem apply_append (vs ws : Writes α) (a : Array α) :
    apply (vs ++ ws) a = apply ws (apply vs a) :=
  List.foldl_append

@[simp] theorem size_apply (ws : Writes α) (a : Array α) : (apply ws a).size = a.size := by
  induction ws generalizing a with
  | nil => rfl
  | cons w ws ih => exact (ih _).trans Array.size_setIfInBounds

-- ================================================================ domains

theorem dom_nil : dom ([] : Writes α) = ∅ := by
  ext i
  simp [dom]

theorem dom_append (vs ws : Writes α) : dom (vs ++ ws) = dom vs ∪ dom ws := by
  ext i
  simp [dom, exists_or]

theorem value_eq_none (ws : Writes α) (i : Nat) : value ws i = none ↔ i ∉ dom ws := by
  induction ws with
  | nil => simp [value, dom]
  | cons w ws ih =>
      obtain ⟨j, v⟩ := w
      have hcons : i ∈ dom ((j, v) :: ws) ↔ i = j ∨ i ∈ dom ws := by
        simp [dom, exists_or]
      rw [value, Option.or_eq_none_iff, ih, hcons]
      by_cases hj : j = i
      · simp [hj]
      · simp [hj, Ne.symm hj]

-- ================================================================= values

/-- What an index holds after a patch. -/
theorem getElem?_apply (ws : Writes α) (a : Array α) (i : Nat) :
    (apply ws a)[i]? = a[i]?.map fun v => (value ws i).getD v := by
  induction ws generalizing a with
  | nil => simp [value]
  | cons w ws ih =>
      rw [apply, List.foldl_cons, ← apply, ih, Array.getElem?_setIfInBounds]
      by_cases hw : w.1 = i
      · subst hw
        cases hv : value ws w.1 <;> by_cases hlt : w.1 < a.size <;> simp [value, hv, hlt]
      · cases hv : value ws i <;> simp [value, hv, hw]

theorem apply_eq_of_notMem {ws : Writes α} {i : Nat} (a : Array α) (hi : i ∉ dom ws) :
    (apply ws a)[i]? = a[i]? := by
  rw [getElem?_apply, (value_eq_none ws i).2 hi]
  simp

/-- Inside its domain a patch does not look at what was there. -/
theorem apply_eq_of_mem {ws : Writes α} {i : Nat} {a b : Array α} (hi : i ∈ dom ws)
    (hsize : a.size = b.size) : (apply ws a)[i]? = (apply ws b)[i]? := by
  obtain ⟨v, hv⟩ := Option.ne_none_iff_exists'.1 fun h => (value_eq_none ws i).1 h hi
  rw [getElem?_apply, getElem?_apply, hv]
  by_cases hlt : i < a.size
  · rw [Array.getElem?_eq_getElem hlt, Array.getElem?_eq_getElem (hsize ▸ hlt)]
    rfl
  · rw [Array.getElem?_eq_none (by omega), Array.getElem?_eq_none (by omega)]

theorem apply_comm {vs ws : Writes α} (h : Disjoint (dom vs) (dom ws)) (a : Array α) :
    apply ws (apply vs a) = apply vs (apply ws a) := by
  apply Array.ext_getElem?
  intro i
  by_cases hv : i ∈ dom vs
  · have hw : i ∉ dom ws := Set.disjoint_left.1 h hv
    rw [apply_eq_of_notMem _ hw]
    exact apply_eq_of_mem hv (size_apply ws a).symm
  · rw [apply_eq_of_notMem (apply ws a) hv, getElem?_apply, apply_eq_of_notMem a hv,
      ← getElem?_apply]

/-- A later patch over the same indices hides an earlier one. -/
theorem apply_hide {vs ws : Writes α} (h : dom vs ⊆ dom ws) (a : Array α) :
    apply ws (apply vs a) = apply ws a := by
  apply Array.ext_getElem?
  intro i
  by_cases hw : i ∈ dom ws
  · exact apply_eq_of_mem hw (size_apply vs a)
  · rw [apply_eq_of_notMem _ hw, apply_eq_of_notMem _ hw,
      apply_eq_of_notMem _ fun hv => hw (h hv)]

theorem apply_idem (ws : Writes α) (a : Array α) : apply ws (apply ws a) = apply ws a :=
  apply_hide (Set.Subset.refl _) a

/-- Nothing changes where a patch writes what is there already. -/
theorem apply_eq_self {ws : Writes α} {a : Array α}
    (h : ∀ i ∈ dom ws, (apply ws a)[i]? = a[i]?) : apply ws a = a := by
  apply Array.ext_getElem?
  intro i
  by_cases hi : i ∈ dom ws
  · exact h i hi
  · exact apply_eq_of_notMem a hi

end Patch
