/-
`qsort` sorts.

Read as elements, the array goes through the steps of `ShellSort`
(`View`); the bytes around the array and the temporary stay.
-/
import Ncmips.Lib.ShellSort
import Ncmips.Libc.Proofs.Allocations
import Ncmips.Libc.Qsort

namespace Ncmips.Libc

open Words Memory ShellSort

/-- The array and the temporary: in the address space, and apart. -/
structure Laid (tmp base size n : Nat) : Prop where
  small : 1 ≤ size ∧ size ≤ 64
  array : base + n * size ≤ 2 ^ 32
  apart : tmp + 64 ≤ base ∨ base + n * size ≤ tmp

/-- The array's elements are `v`. -/
def View (m : Mem) (base size n : Nat) (v : Nat → List UInt8) : Prop :=
  ∀ i < n, element m (base + i * size) size = v i

/-- The comparison finds the first element greater. -/
def Greater (cmp : List UInt8 → List UInt8 → Int) (x y : List UInt8) : Prop := 0 < cmp x y

instance (cmp : List UInt8 → List UInt8 → Int) : DecidableRel (Greater cmp) :=
  fun x y => inferInstanceAs (Decidable (0 < cmp x y))

variable {cmp : List UInt8 → List UInt8 → Int} {tmp base size n : Nat} {m m' : Mem}
  {v : Nat → List UInt8} {t : List UInt8}

theorem element_congr {p q : Nat} (h : ∀ k < size, m' (p + k) = m (q + k)) :
    element m' p size = element m q size :=
  List.map_congr_left fun k hk => h k (List.mem_range.mp hk)

theorem elementAt_eq (hl : Laid tmp base size n) {i : Nat} (hi : i < n) :
    elementAt base size i = base + i * size ∧ i * size + size ≤ n * size := by
  have hle : i * size + size ≤ n * size := by
    rw [← Nat.succ_mul]
    exact Nat.mul_le_mul_right size hi
  obtain ⟨hpos, -⟩ := hl.small
  have htop := hl.array
  unfold elementAt
  rw [u32_of_lt (by omega : i * size < 2 ^ 32), u32_of_lt (by omega)]
  exact ⟨rfl, hle⟩

/-- Elements do not overlap. -/
theorem element_apart {i j : Nat} (hne : i ≠ j) :
    i * size + size ≤ j * size ∨ j * size + size ≤ i * size := by
  have hstep {i j : Nat} (h : i < j) : i * size + size ≤ j * size := by
    rw [← Nat.succ_mul]
    exact Nat.mul_le_mul_right size h
  exact (Nat.lt_or_gt_of_ne hne).imp hstep hstep

/-- An element is overwritten. -/
theorem View.put (hv : View m base size n v) {i q : Nat} (hi : i < n)
    (hout : ∀ x, x < base + i * size ∨ base + i * size + size ≤ x → m' x = m x)
    (hin : ∀ k < size, m' (base + i * size + k) = m (q + k)) (ht : element m q size = t) :
    View m' base size n (Function.update v i t) := by
  intro j hj
  by_cases hji : j = i
  · subst hji
    rw [Function.update_self, ← ht]
    exact element_congr hin
  · rw [Function.update_of_ne hji, ← hv j hj]
    refine element_congr fun k hk => hout _ ?_
    have happart := @element_apart size j i hji
    omega

/-- What is outside the array and the temporary stays. -/
def Elsewhere (tmp base size n x : Nat) : Prop :=
  (x < base ∨ base + n * size ≤ x) ∧ (x < tmp ∨ tmp + size ≤ x)

theorem shiftFrom_view (hl : Laid tmp base size n) {gap j : Nat} (hj : j < n)
    (hv : View m base size n v) (ht : element m tmp size = t) :
    (shiftFrom cmp tmp base size gap j m).1 = (shift (Greater cmp) gap t j v).1
      ∧ View (shiftFrom cmp tmp base size gap j m).2 base size n (shift (Greater cmp) gap t j v).2
      ∧ element (shiftFrom cmp tmp base size gap j m).2 tmp size = t
      ∧ ∀ x, Elsewhere tmp base size n x → (shiftFrom cmp tmp base size gap j m).2 x = m x := by
  fun_induction shiftFrom cmp tmp base size gap j m generalizing v with
  | case1 j m h ih =>
      obtain ⟨hgap, hle, hgt⟩ := h
      obtain ⟨hat, hend⟩ := elementAt_eq hl hj
      obtain ⟨hat', hend'⟩ := elementAt_eq hl (by omega : j - gap < n)
      have happart := @element_apart size j (j - gap) (by omega)
      have hapart := hl.apart
      have hsize := hl.small
      rw [hat', hv _ (by omega), ht] at hgt
      have hshift : shift (Greater cmp) gap t j v
          = shift (Greater cmp) gap t (j - gap) (Function.update v j (v (j - gap))) := by
        rw [shift, if_pos ⟨hgap, hle, hgt⟩]
      rw [hat, hat'] at ih ⊢
      have hput := hv.put hj (fun x hx => copyBytes_out hx)
        (fun k hk => copyBytes_at (by omega) hk) (hv (j - gap) (by omega))
      have htmp : element (copyBytes m (base + j * size) (base + (j - gap) * size) size) tmp size = t := by
        rw [← ht]
        exact element_congr fun k hk => copyBytes_out (by omega)
      obtain ⟨heq, hview, ht', hout⟩ := ih (by omega) hput htmp
      rw [hshift]
      refine ⟨heq, hview, ht', fun x hx => (hout x hx).trans (copyBytes_out ?_)⟩
      unfold Elsewhere at hx
      omega
  | case2 j m h =>
      have hshift : shift (Greater cmp) gap t j v = (j, v) := by
        rw [shift, if_neg fun hgo => h ⟨hgo.1, hgo.2.1, ?_⟩]
        have hlt : j - gap < n := Nat.lt_of_le_of_lt (Nat.sub_le _ _) hj
        rw [(elementAt_eq hl hlt).1, hv _ hlt, ht]
        exact hgo.2.2
      rw [hshift]
      exact ⟨rfl, hv, ht, fun x _ => rfl⟩

theorem insertAt_view (hl : Laid tmp base size n) {gap i : Nat} (hi : i < n)
    (hv : View m base size n v) :
    View (insertAt cmp tmp base size gap m i) base size n (ShellSort.insert (Greater cmp) gap v i)
      ∧ ∀ x, Elsewhere tmp base size n x → insertAt cmp tmp base size gap m i x = m x := by
  obtain ⟨hat, hend⟩ := elementAt_eq hl hi
  have hapart := hl.apart
  have hsize := hl.small
  have hv₁ : View (memcpy m tmp (elementAt base size i) size) base size n v := by
    intro j hj
    obtain ⟨-, hend'⟩ := elementAt_eq hl hj
    rw [← hv j hj]
    exact element_congr fun k hk => memcpy_out (by omega)
  have ht₁ : element (memcpy m tmp (elementAt base size i) size) tmp size = v i := by
    rw [← hv i hi, hat]
    exact element_congr fun k hk => memcpy_at (by omega) hk
  obtain ⟨heq, hv₂, ht₂, hout₂⟩ := @shiftFrom_view cmp tmp base size n _ v (v i) hl gap i hi hv₁ ht₁
  have hlt : (shift (Greater cmp) gap (v i) i v).1 < n := (shift_perm hi).1
  unfold insertAt ShellSort.insert
  dsimp only
  generalize shiftFrom cmp tmp base size gap i (memcpy m tmp (elementAt base size i) size) = r at *
  generalize shift (Greater cmp) gap (v i) i v = s at *
  obtain ⟨j, m₂⟩ := r
  obtain ⟨p, w⟩ := s
  dsimp only at *
  subst heq
  obtain ⟨hat', hend'⟩ := elementAt_eq hl hlt
  rw [hat']
  refine ⟨hv₂.put hlt (fun x hx => memcpy_out hx) (fun k hk => memcpy_at (by omega) hk) ht₂,
    fun x hx => ?_⟩
  have hx' := hx
  unfold Elsewhere at hx'
  rw [memcpy_out (by omega), hout₂ x hx, memcpy_out (by omega)]

theorem pass_view (hl : Laid tmp base size n) {gap : Nat} (hv : View m base size n v) :
    View ((List.range' gap (n - gap)).foldl (insertAt cmp tmp base size gap) m) base size n
        (ShellSort.pass (Greater cmp) gap n v)
      ∧ ∀ x, Elsewhere tmp base size n x →
        (List.range' gap (n - gap)).foldl (insertAt cmp tmp base size gap) m x = m x := by
  unfold ShellSort.pass
  have hall : ∀ i ∈ List.range' gap (n - gap), i < n := by
    intro i hi
    rw [List.mem_range'_1] at hi
    omega
  generalize List.range' gap (n - gap) = is at hall
  induction is generalizing m v with
  | nil => exact ⟨hv, fun x _ => rfl⟩
  | cons i is ih =>
      obtain ⟨hv₁, hout₁⟩ := @insertAt_view cmp tmp base size n m v hl gap i
        (hall i List.mem_cons_self) hv
      obtain ⟨hv₂, hout₂⟩ := ih hv₁ fun k hk => hall k (List.mem_cons_of_mem _ hk)
      exact ⟨hv₂, fun x hx => (hout₂ x hx).trans (hout₁ x hx)⟩

theorem sortGaps_view (hl : Laid tmp base size n) {gap : Nat} (hv : View m base size n v) :
    View (sortGaps cmp tmp base size n gap m) base size n (passes (Greater cmp) n gap v)
      ∧ ∀ x, Elsewhere tmp base size n x → sortGaps cmp tmp base size n gap m x = m x := by
  fun_induction passes (Greater cmp) n gap v generalizing m with
  | case1 v =>
      rw [sortGaps, if_pos rfl]
      exact ⟨hv, fun x _ => rfl⟩
  | case2 gap v hgap ih =>
      obtain ⟨hv₁, hout₁⟩ := @pass_view cmp tmp base size n m v hl gap hv
      obtain ⟨hv₂, hout₂⟩ := ih hv₁
      rw [sortGaps, if_neg hgap]
      exact ⟨hv₂, fun x hx => (hout₂ x hx).trans (hout₁ x hx)⟩

/-- The elements of the array, in order. -/
def elements (m : Mem) (base size n : Nat) : List (List UInt8) :=
  (List.range n).map fun i => element m (base + i * size) size

/-- The comparison is a total preorder on these elements. -/
structure Preorders (cmp : List UInt8 → List UInt8 → Int) (xs : List (List UInt8)) : Prop where
  total : ∀ x ∈ xs, ∀ y ∈ xs, cmp x y ≤ 0 ∨ cmp y x ≤ 0
  trans : ∀ x ∈ xs, ∀ y ∈ xs, ∀ z ∈ xs, cmp x y ≤ 0 → cmp y z ≤ 0 → cmp x z ≤ 0

theorem View.elements (hv : View m base size n v) : elements m base size n = values n v :=
  List.map_congr_left fun i hi => hv i (List.mem_range.mp hi)

/-- The array is left a permutation of its elements in which none compares
greater than a later one; other bytes stay. -/
theorem qsort_sorts (hl : Laid tmp base size n) (hcmp : Preorders cmp (elements m base size n)) :
    (elements (qsort cmp tmp base size n m) base size n).Perm (elements m base size n)
      ∧ (elements (qsort cmp tmp base size n m) base size n).Pairwise (fun x y => ¬ 0 < cmp x y)
      ∧ ∀ x, Elsewhere tmp base size n x → qsort cmp tmp base size n m x = m x := by
  have hv : View m base size n fun i => element m (base + i * size) size := fun i _ => rfl
  have hord : Ordered (Greater cmp) (values n fun i => element m (base + i * size) size) :=
    ⟨fun x hx y hy => (hcmp.total x hx y hy).imp Int.not_lt.mpr Int.not_lt.mpr,
      fun x hx y hy z hz h h' => Int.not_lt.mpr
        (hcmp.trans x hx y hy z hz (Int.not_lt.mp h) (Int.not_lt.mp h'))⟩
  unfold qsort
  rw [if_neg (Nat.not_lt.mpr hl.small.2)]
  obtain ⟨hview, hout⟩ := @sortGaps_view cmp tmp base size n m _ hl (n / 2) hv
  rw [hview.elements]
  refine ⟨shellSort_perm n _, ?_, hout⟩
  have hsorted := shellSort_sorted hord
  refine List.pairwise_map.mpr (List.pairwise_iff_getElem.mpr fun i j hi hj hij => ?_)
  rw [List.length_range] at hj
  rw [List.getElem_range, List.getElem_range]
  exact hsorted j hj i hij

/-- A comparison of single bytes. -/
def byteCmp (x y : List UInt8) : Int := (x.headD 0).toNat - (y.headD 0).toNat

/-- Three bytes in descending order at 64, the temporary below them. -/
theorem qsort_sorts_bytes :
    let m : Mem := fun a => .ofNat (100 - a)
    (elements (qsort byteCmp 0 64 1 3 m) 64 1 3).Perm [[36], [35], [34]]
      ∧ (elements (qsort byteCmp 0 64 1 3 m) 64 1 3).Pairwise (fun x y => ¬ 0 < byteCmp x y) := by
  intro m
  have hpre : Preorders byteCmp (elements m 64 1 3) := by
    unfold byteCmp
    exact ⟨fun x _ y _ => by omega, fun x _ y _ z _ h h' => by omega⟩
  obtain ⟨hperm, hsorted, -⟩ :=
    @qsort_sorts byteCmp 0 64 1 3 m ⟨by decide, by decide, .inl (by decide)⟩ hpre
  exact ⟨hperm, hsorted⟩

end Ncmips.Libc
