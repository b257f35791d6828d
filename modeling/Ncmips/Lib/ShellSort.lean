/-
Shell sort with halving gaps: insertion sort over the places a gap apart,
for gaps down to 1.

A pass with any gap permutes; the last one, with gap 1, is insertion sort,
which leaves a sorted sequence whatever the passes before it did.
-/
import Mathlib.Data.List.Perm.Basic
import Mathlib.Data.List.Nodup
import Mathlib.Logic.Equiv.Basic
import Mathlib.Tactic.Common

namespace Ncmips.ShellSort

variable {α : Type} (gt : α → α → Prop) [DecidableRel gt]

/-- Values greater than `t` move up by the gap, into the hole at `j`. -/
def shift (gap : Nat) (t : α) (j : Nat) (v : Nat → α) : Nat × (Nat → α) :=
  if 0 < gap ∧ gap ≤ j ∧ gt (v (j - gap)) t then
    shift gap t (j - gap) (Function.update v j (v (j - gap)))
  else (j, v)
termination_by j

/-- The value at `i` goes to its place among those below. -/
def insert (gap : Nat) (v : Nat → α) (i : Nat) : Nat → α :=
  let r := shift gt gap (v i) i v
  Function.update r.2 r.1 (v i)

def pass (gap n : Nat) (v : Nat → α) : Nat → α :=
  (List.range' gap (n - gap)).foldl (insert gt gap) v

def passes (n gap : Nat) (v : Nat → α) : Nat → α :=
  if gap = 0 then v else passes n (gap / 2) (pass gt gap n v)
termination_by gap

def shellSort (n : Nat) (v : Nat → α) : Nat → α := passes gt n (n / 2) v

/-- The first `n` values. -/
def values (n : Nat) (v : Nat → α) : List α := (List.range n).map v

/-- `gt` is the strict part of a total preorder on these values. -/
structure Ordered (xs : List α) : Prop where
  total : ∀ x ∈ xs, ∀ y ∈ xs, ¬ gt x y ∨ ¬ gt y x
  trans : ∀ x ∈ xs, ∀ y ∈ xs, ∀ z ∈ xs, ¬ gt x y → ¬ gt y z → ¬ gt x z

/-- No value below `n` is greater than a later one. -/
def Sorted (n : Nat) (v : Nat → α) : Prop := ∀ j < n, ∀ i < j, ¬ gt (v i) (v j)

variable {gt} {gap n i j : Nat} {v : Nat → α} {t : α}

-- ============================================================ permutation

theorem values_swap (hi : i < n) (hj : j < n) :
    (values n (v ∘ Equiv.swap i j)).Perm (values n v) := by
  unfold values
  rw [← List.map_map]
  refine List.Perm.map v ((List.perm_ext_iff_of_nodup ?_ List.nodup_range).mpr fun k => ?_)
  · exact List.nodup_range.map (Equiv.swap i j).injective
  · have hin (k : Nat) (hk : k < n) : Equiv.swap i j k < n := by
      rw [Equiv.swap_apply_def]
      split
      · exact hj
      · split
        · exact hi
        · exact hk
    simp only [List.mem_map, List.mem_range]
    constructor
    · rintro ⟨k, hk, rfl⟩
      exact hin k hk
    · intro hk
      exact ⟨Equiv.swap i j k, hin k hk, Equiv.swap_apply_self i j k⟩

/-- The hole moves, and what is missing with it. -/
theorem hole_swap (hne : i ≠ j) : Function.update (Function.update v j (v i)) i t
    = Function.update v j t ∘ Equiv.swap i j := by
  funext k
  rw [Function.comp_apply]
  by_cases hki : k = i
  · subst hki
    rw [Function.update_self, Equiv.swap_apply_left, Function.update_self]
  · rw [Function.update_of_ne hki]
    by_cases hkj : k = j
    · subst hkj
      rw [Function.update_self, Equiv.swap_apply_right, Function.update_of_ne hne]
    · rw [Function.update_of_ne hkj, Equiv.swap_apply_of_ne_of_ne hki hkj, Function.update_of_ne hkj]

theorem shift_perm (hj : j < n) :
    (shift gt gap t j v).1 < n ∧
      (values n (Function.update (shift gt gap t j v).2 (shift gt gap t j v).1 t)).Perm
        (values n (Function.update v j t)) := by
  fun_induction shift gt gap t j v with
  | case1 j v h ih =>
      obtain ⟨hgap, hle, -⟩ := h
      obtain ⟨hlt, hperm⟩ := ih (by omega)
      refine ⟨hlt, hperm.trans ?_⟩
      rw [hole_swap (by omega)]
      exact values_swap (by omega) hj
  | case2 j v h => exact ⟨hj, .refl _⟩

theorem insert_perm (hi : i < n) : (values n (insert gt gap v i)).Perm (values n v) := by
  have hperm := (@shift_perm α gt _ gap n i v (v i) hi).2
  rw [Function.update_eq_self] at hperm
  exact hperm

theorem pass_perm (gap n : Nat) (v : Nat → α) : (values n (pass gt gap n v)).Perm (values n v) := by
  unfold pass
  have hall : ∀ i ∈ List.range' gap (n - gap), i < n := by
    intro i hi
    rw [List.mem_range'_1] at hi
    omega
  generalize List.range' gap (n - gap) = is at hall
  induction is generalizing v with
  | nil => exact .refl _
  | cons i is ih =>
      exact (ih (insert gt gap v i) fun k hk => hall k (List.mem_cons_of_mem _ hk)).trans
        (insert_perm (hall i List.mem_cons_self))

theorem passes_perm (n gap : Nat) (v : Nat → α) :
    (values n (passes gt n gap v)).Perm (values n v) := by
  fun_induction passes gt n gap v with
  | case1 v => exact .refl _
  | case2 gap v h ih => exact ih.trans (pass_perm gap n v)

-- ========================================================= insertion sort

/-- What `shift` does with gap 1. -/
theorem shift_one (j : Nat) (v : Nat → α) :
    let r := shift gt 1 t j v
    r.1 ≤ j ∧ (∀ k, k < r.1 ∨ j < k → r.2 k = v k) ∧ (∀ k, r.1 < k → k ≤ j → r.2 k = v (k - 1))
      ∧ (∀ k, r.1 ≤ k → k < j → gt (v k) t) ∧ (0 < r.1 → ¬ gt (v (r.1 - 1)) t) := by
  intro r
  induction j generalizing v with
  | zero =>
      have hr : r = (0, v) := by
        dsimp only [r]
        rw [shift, if_neg (by omega)]
      rw [hr]
      exact ⟨Nat.le_refl _, fun k _ => rfl, fun k h h' => by omega, fun k h h' => by omega,
        fun h => absurd h (Nat.lt_irrefl 0)⟩
  | succ j ih =>
      by_cases hgt : gt (v j) t
      · have hr : r = shift gt 1 t j (Function.update v (j + 1) (v j)) := by
          dsimp only [r]
          rw [shift, if_pos ⟨by decide, by omega, hgt⟩]
          rfl
        obtain ⟨hle, hkeep, hmove, hgreater, hstop⟩ := ih (Function.update v (j + 1) (v j))
        rw [← hr] at hle hkeep hmove hgreater hstop
        refine ⟨by omega, fun k hk => ?_, fun k hk hk' => ?_, fun k hk hk' => ?_, fun h0 => ?_⟩
        · rw [hkeep k (by omega), Function.update_of_ne (by omega)]
        · by_cases htop : k = j + 1
          · subst htop
            rw [hkeep _ (.inr (Nat.lt_succ_self j)), Function.update_self]
            rfl
          · rw [hmove k hk (by omega), Function.update_of_ne (by omega)]
        · by_cases htop : k = j
          · subst htop
            exact hgt
          · have h := hgreater k hk (by omega)
            rw [Function.update_of_ne (by omega)] at h
            exact h
        · have h := hstop h0
          rw [Function.update_of_ne (by omega)] at h
          exact h
      · have hr : r = (j + 1, v) := by
          dsimp only [r]
          rw [shift, if_neg fun h => hgt h.2.2]
        rw [hr]
        exact ⟨Nat.le_refl _, fun k _ => rfl, fun k h h' => by dsimp only at h; omega,
          fun k h h' => by dsimp only at h; omega, fun _ => hgt⟩

theorem mem_values (hi : i < n) : v i ∈ values n v := List.mem_map_of_mem (List.mem_range.mpr hi)

/-- Insertion into a sorted beginning. -/
theorem insert_sorted (hord : Ordered gt (values n v)) (hi : i < n) (hs : Sorted gt i v) :
    Sorted gt (i + 1) (insert gt 1 v i) := by
  obtain ⟨hle, hkeep, hmove, hgreater, hstop⟩ := @shift_one α gt _ (v i) i v
  unfold insert
  dsimp only
  generalize shift gt 1 (v i) i v = r at *
  obtain ⟨p, w⟩ := r
  dsimp only at *
  have hnot {x y : Nat} (hx : x < n) (hy : y < n) (h : gt (v x) (v y)) : ¬ gt (v y) (v x) :=
    (hord.total _ (mem_values hx) _ (mem_values hy)).resolve_left (not_not.mpr h)
  -- nothing before the place is greater
  have hbelow : ∀ k < p, ¬ gt (v k) (v i) := by
    intro k hk
    by_cases htop : k = p - 1
    · rw [htop]
      exact hstop (by omega)
    · exact hord.trans _ (mem_values (by omega : k < n)) _ (mem_values (by omega : p - 1 < n)) _
        (mem_values hi) (hs (p - 1) (by omega) k (by omega)) (hstop (by omega))
  intro y hy x hx
  by_cases hyp : y = p
  · subst hyp
    rw [Function.update_of_ne (by omega), Function.update_self, hkeep x (.inl hx)]
    exact hbelow x hx
  · rw [Function.update_of_ne hyp]
    by_cases hxp : x = p
    · subst hxp
      rw [Function.update_self, hmove y hx (by omega)]
      exact hnot (by omega) hi (hgreater (y - 1) (by omega) (by omega))
    · rw [Function.update_of_ne hxp]
      rcases Nat.lt_or_gt_of_ne hyp with hlow | hhigh
      · rw [hkeep y (.inl hlow), hkeep x (.inl (by omega))]
        exact hs y (by omega) x hx
      · rw [hmove y hhigh (by omega)]
        rcases Nat.lt_or_gt_of_ne hxp with hxlow | hxhigh
        · rw [hkeep x (.inl hxlow)]
          exact hs (y - 1) (by omega) x (by omega)
        · rw [hmove x hxhigh (by omega)]
          exact hs (y - 1) (by omega) (x - 1) (by omega)

omit [DecidableRel gt] in
theorem Ordered.perm {xs ys : List α} (h : Ordered gt xs) (hp : ys.Perm xs) : Ordered gt ys where
  total x hx y hy := h.total x (hp.mem_iff.mp hx) y (hp.mem_iff.mp hy)
  trans x hx y hy z hz := h.trans x (hp.mem_iff.mp hx) y (hp.mem_iff.mp hy) z (hp.mem_iff.mp hz)

theorem pass_one_sorted (hord : Ordered gt (values n v)) : Sorted gt n (pass gt 1 n v) := by
  unfold pass
  have hmain : ∀ m, m + 1 ≤ n → ∀ v, Ordered gt (values n v) →
      Sorted gt (n - m) v → Sorted gt n ((List.range' (n - m) m).foldl (insert gt 1) v) := by
    intro m
    induction m with
    | zero => exact fun _ v _ hs => hs
    | succ m ih =>
        intro hm v hord hs
        have hnext : n - (m + 1) + 1 = n - m := by omega
        rw [List.range'_succ, List.foldl_cons, hnext]
        refine ih (by omega) _ (hord.perm (insert_perm (by omega))) ?_
        rw [← hnext]
        exact insert_sorted hord (by omega) hs
  cases n with
  | zero => exact fun j hj => absurd hj (Nat.not_lt_zero j)
  | succ n =>
      have hsorted := hmain n (by omega) v hord (fun j hj i hij => by omega)
      rw [show n + 1 - n = 1 by omega] at hsorted
      exact hsorted

theorem passes_sorted (hgap : gap ≠ 0) (hord : Ordered gt (values n v)) :
    Sorted gt n (passes gt n gap v) := by
  fun_induction passes gt n gap v with
  | case1 v => exact absurd rfl hgap
  | case2 gap v h ih =>
      by_cases hlast : gap / 2 = 0
      · obtain rfl : gap = 1 := by omega
        rw [hlast, passes, if_pos rfl]
        exact pass_one_sorted hord
      · exact ih hlast (hord.perm (pass_perm gap n v))

theorem shellSort_perm (n : Nat) (v : Nat → α) : (values n (shellSort gt n v)).Perm (values n v) :=
  passes_perm n _ v

theorem shellSort_sorted (hord : Ordered gt (values n v)) : Sorted gt n (shellSort gt n v) := by
  by_cases hn : n / 2 = 0
  · intro j hj i hij
    omega
  · exact passes_sorted hn hord

end Ncmips.ShellSort
