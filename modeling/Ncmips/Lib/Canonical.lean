/-
The arithmetic of canonical prefix codes, from the histogram alone:
`n l` codes of length `l`, numbered upwards within a length, each
length starting at twice the first number the shorter one left free.

Two facts carry every decoder of such codes. Codes of one length are an
interval (`first`, `first + n`), and a longer code, cut to a shorter
length, lies past that length's interval (`past_of_longer`): lengths
can be tried in order, with one comparison each.
-/
import Mathlib

namespace Ncmips.Canonical

variable (n : Nat → Nat)

/-- The first code of length `l`. -/
def first : Nat → Nat
  | 0 => 0
  | l + 1 => 2 * (first l + n l)

/-- The number of codes shorter than `l`. -/
def index : Nat → Nat
  | 0 => 0
  | l + 1 => index l + n l

/-- The histogram fits: no length runs out of codes. -/
def Fits (len : Nat) : Prop := ∀ l ≤ len, first n l + n l ≤ 2 ^ l

instance (len : Nat) : Decidable (Fits n len) :=
  inferInstanceAs (Decidable (∀ l ≤ len, _))

variable {n}

/-- The codes of length `l` leave room below every longer length's
first code. -/
theorem first_le {l L : Nat} (h : l < L) :
    (first n l + n l) * 2 ^ (L - l) ≤ first n L := by
  obtain ⟨d, rfl⟩ : ∃ d, L = l + 1 + d := ⟨L - (l + 1), by omega⟩
  induction d with
  | zero =>
      rw [show l + 1 + 0 - l = 1 by omega]
      simp only [first, pow_one]
      omega
  | succ d ih =>
      have hprev := ih (by omega)
      rw [show l + 1 + (d + 1) - l = l + 1 + d - l + 1 by omega, Nat.pow_succ]
      rw [show l + 1 + (d + 1) = l + 1 + d + 1 by omega, first]
      calc (first n l + n l) * (2 ^ (l + 1 + d - l) * 2)
          = (first n l + n l) * 2 ^ (l + 1 + d - l) * 2 := by ring
        _ ≤ first n (l + 1 + d) * 2 := Nat.mul_le_mul_right 2 hprev
        _ ≤ 2 * (first n (l + 1 + d) + n (l + 1 + d)) := by omega

/-- A code of length `L` or anything after it, cut to a shorter length,
lies past that length's codes. -/
theorem past_of_longer {l L c : Nat} (h : l < L) (hc : first n L ≤ c) :
    first n l + n l ≤ c / 2 ^ (L - l) := by
  rw [Nat.le_div_iff_mul_le (by positivity)]
  exact (first_le h).trans hc

/-- Anything that no code up to a length matches lies past all of them:
`w l` is the number its first `l` bits spell. -/
theorem past_of_none {w : Nat → Nat} (h0 : n 0 = 0) (hw : ∀ l, 2 * w l ≤ w (l + 1)) {L : Nat}
    (hnone : ∀ l ≤ L, ∀ j < n l, w l ≠ first n l + j) :
    ∀ l ≤ L, first n l + n l ≤ w l := by
  intro l
  induction l with
  | zero =>
      intro _
      rw [h0]
      exact Nat.zero_le _
  | succ l ih =>
      intro hl
      have hshort := ih (by omega)
      have hdouble := hw l
      have hfirst : first n (l + 1) = 2 * (first n l + n l) := rfl
      by_contra hlt
      exact hnone (l + 1) hl (w (l + 1) - first n (l + 1)) (by omega) (by omega)

-- ================================================================= Kraft

/-- The first number a length leaves free is the room the codes up to it
take. -/
theorem first_kraft (L : Nat) :
    first n L + n L = ((List.range (L + 1)).map fun l => n l * 2 ^ (L - l)).sum := by
  induction L with
  | zero => simp [first]
  | succ L ih =>
      rw [List.range_succ, List.map_append, List.sum_append, first, ih, ← List.sum_map_mul_left]
      have hterm : ∀ l ∈ List.range (L + 1), 2 * (n l * 2 ^ (L - l)) = n l * 2 ^ (L + 1 - l) := by
        intro l hl
        have hle := List.mem_range.1 hl
        rw [show L + 1 - l = L - l + 1 by omega, Nat.pow_succ]
        ring
      rw [List.map_congr_left hterm]
      simp

/-- Codes that leave room at the last length leave room at all. -/
theorem fits_of_kraft {L : Nat}
    (h : ((List.range (L + 1)).map fun l => n l * 2 ^ (L - l)).sum ≤ 2 ^ L) : Fits n L := by
  rw [← first_kraft] at h
  intro l hl
  rcases Nat.eq_or_lt_of_le hl with rfl | hlt
  · exact h
  · have hroom : (first n l + n l) * 2 ^ (L - l) ≤ 2 ^ l * 2 ^ (L - l) := by
      rw [← Nat.pow_add, Nat.add_sub_cancel' hl]
      exact (first_le hlt).trans (by omega)
    exact Nat.le_of_mul_le_mul_right hroom (by positivity)

/-- Cut to a length, a window is in at most one code's interval. -/
theorem cut_unique {w l l' j j' t : Nat} (hj : j < n l) (hj' : j' < n l')
    (hl : l ≤ t) (hl' : l' ≤ t)
    (h : w / 2 ^ (t - l) = first n l + j) (h' : w / 2 ^ (t - l') = first n l' + j') :
    l = l' ∧ j = j' := by
  have key : ∀ {a b i k : Nat}, i < n a → b ≤ t → a < b →
      w / 2 ^ (t - a) = first n a + i → w / 2 ^ (t - b) = first n b + k → False := by
    intro a b i k hi hb hab ha hb'
    have hpast := past_of_longer (n := n) hab (hb' ▸ Nat.le_add_right (first n b) k)
    rw [Nat.div_div_eq_div_mul, ← Nat.pow_add,
      show t - b + (b - a) = t - a by omega, ha] at hpast
    omega
  rcases Nat.lt_trichotomy l l' with hlt | heq | hgt
  · exact (key hj hl' hlt h h').elim
  · subst heq
    exact ⟨rfl, by omega⟩
  · exact (key hj' hl hgt h' h).elim

theorem index_mono {l L : Nat} (h : l ≤ L) : index n l ≤ index n L := by
  induction h with
  | refl => exact le_rfl
  | step _ ih => exact ih.trans (Nat.le_add_right ..)

/-- Codes number their symbols consecutively: an index names one length
and one place. -/
theorem index_unique {l l' j j' : Nat} (hj : j < n l) (hj' : j' < n l')
    (h : index n l + j = index n l' + j') : l = l' ∧ j = j' := by
  have key : ∀ {a b i k : Nat}, i < n a → a < b → index n a + i = index n b + k → False := by
    intro a b i k hi hab heq
    have hmono := index_mono (n := n) (Nat.succ_le_of_lt hab)
    simp only [index] at hmono
    omega
  rcases Nat.lt_trichotomy l l' with hlt | heq | hgt
  · exact (key hj hlt h).elim
  · subst heq
    exact ⟨rfl, by omega⟩
  · exact (key hj' hgt h.symm).elim

end Ncmips.Canonical
