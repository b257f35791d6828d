/-
The inverse DCT and overflow.

The first pass never overflows. Of what the second pass comes to in a row,
only four sums and products of its odd part and the eight results can: so
the transform is that of the integers exactly where these fit.
-/
import Ncmips.Tjc.Exact
import Mathlib.Tactic.IntervalCases

namespace Ncmips.Tjc

open Exact (AcZero column row)

-- ============================================================ in words

/-- What the rounding adds. -/
theorem descale_half : ∀ n < 32, 0 < n →
    (1 : Int32) <<< (Int32.ofNat n - 1) = Int32.ofInt (2 ^ (n - 1)) := by decide

theorem descale_ofInt {v : Int} {n : Nat} (hn : 0 < n) (hlt : n < 32)
    (h : Fits (v + 2 ^ (n - 1))) :
    descale (Int32.ofInt v) (Int32.ofNat n) = Int32.ofInt (Exact.descale v n) := by
  unfold descale Exact.descale
  rw [descale_half n hlt hn, ← Int32.ofInt_add, ofInt_shiftRight h hlt]

theorem idctButterfly_ofInt (c : Nat → Int) (i : Nat) :
    idctButterfly (fun k => Int32.ofInt (c k)) i = Int32.ofInt (Exact.idctButterfly c i) := by
  unfold idctButterfly Exact.idctButterfly
  dsimp only
  split
  all_goals simp only [Int32.ofInt_add, Int32.ofInt_sub, Int32.ofInt_mul]
  all_goals rfl

/-- The butterfly reads eight numbers. -/
theorem idctButterfly_congr {c c' : Nat → Int32} (h : ∀ k < 8, c k = c' k) (i : Nat) :
    idctButterfly c i = idctButterfly c' i := by
  unfold idctButterfly
  rw [h 0 (by decide), h 1 (by decide), h 2 (by decide), h 3 (by decide), h 4 (by decide),
    h 5 (by decide), h 6 (by decide), h 7 (by decide)]

/-- The short cut's test in words. -/
theorem acZero_ofInt {c : Nat → Int} (h : ∀ k < 8, Fits (c k)) :
    Int32.ofInt (c 1) ||| Int32.ofInt (c 2) ||| Int32.ofInt (c 3) ||| Int32.ofInt (c 4)
      ||| Int32.ofInt (c 5) ||| Int32.ofInt (c 6) ||| Int32.ofInt (c 7) = 0 ↔ AcZero c := by
  have hzero : ∀ k < 8, (Int32.ofInt (c k) = 0 ↔ c k = 0) := by
    intro k hk
    rw [← Int32.toInt_inj, toInt_ofInt (h k hk)]
    rfl
  simp only [Int32.or_eq_zero_iff, AcZero, and_assoc, hzero 1 (by decide), hzero 2 (by decide),
    hzero 3 (by decide), hzero 4 (by decide), hzero 5 (by decide), hzero 6 (by decide),
    hzero 7 (by decide)]

theorem toUInt8_ofInt : ∀ k < 256, (Int32.ofInt (k : Nat)).toUInt32.toUInt8.toNat = k := by
  decide +kernel

theorem clampU8_ofInt {v : Int} (h : Fits v) :
    ((clampU8 (Int32.ofInt v)).toNat : Int) = Exact.clampU8 v := by
  unfold clampU8 Exact.clampU8
  simp only [Int32.lt_iff_toInt_lt, toInt_ofInt h, show (0 : Int32).toInt = 0 from rfl,
    show (255 : Int32).toInt = 255 from rfl]
  by_cases hneg : v < 0
  · rw [if_pos hneg]
    show (0 : Int) = _
    omega
  · rw [if_neg hneg]
    by_cases hbig : 255 < v
    · rw [if_pos hbig]
      show (255 : Int) = _
      omega
    · rw [if_neg hbig]
      obtain ⟨k, rfl⟩ := Int.eq_ofNat_of_zero_le (Int.not_lt.mp hneg)
      rw [toUInt8_ofInt k (by omega)]
      omega

-- ============================================================ linear forms

/-- The butterfly as a matrix, row `i` for result `i`. -/
def idctForm (c : Nat → Int) (i : Nat) : Int :=
  match i with
  | 0 => 8192 * c 0 + 11363 * c 1 + 10703 * c 2 + 9633 * c 3 + 8192 * c 4 + 6437 * c 5
      + 4433 * c 6 + 2260 * c 7
  | 1 => 8192 * c 0 + 9633 * c 1 + 4433 * c 2 - 2259 * c 3 - 8192 * c 4 - 11362 * c 5
      - 10704 * c 6 - 6436 * c 7
  | 2 => 8192 * c 0 + 6437 * c 1 - 4433 * c 2 - 11362 * c 3 - 8192 * c 4 + 2261 * c 5
      + 10704 * c 6 + 9633 * c 7
  | 3 => 8192 * c 0 + 2260 * c 1 - 10703 * c 2 - 6436 * c 3 + 8192 * c 4 + 9633 * c 5
      - 4433 * c 6 - 11363 * c 7
  | 4 => 8192 * c 0 - 2260 * c 1 - 10703 * c 2 + 6436 * c 3 + 8192 * c 4 - 9633 * c 5
      - 4433 * c 6 + 11363 * c 7
  | 5 => 8192 * c 0 - 6437 * c 1 - 4433 * c 2 + 11362 * c 3 - 8192 * c 4 - 2261 * c 5
      + 10704 * c 6 - 9633 * c 7
  | 6 => 8192 * c 0 - 9633 * c 1 + 4433 * c 2 + 2259 * c 3 - 8192 * c 4 + 11362 * c 5
      - 10704 * c 6 + 6436 * c 7
  | _ => 8192 * c 0 - 11363 * c 1 + 10703 * c 2 - 9633 * c 3 + 8192 * c 4 - 6437 * c 5
      + 4433 * c 6 - 2260 * c 7

theorem idctButterfly_form (c : Nat → Int) {i : Nat} (hi : i < 8) :
    Exact.idctButterfly c i = idctForm c i := by
  interval_cases i
  all_goals
    simp only [Exact.idctButterfly, idctForm]
    ring

/-- What a column of coefficients comes to, before it is rounded and as the
first pass leaves it. -/
def columnForm (inp : Block Int) (x y : Nat) : Int := (idctForm (column inp x) y + 2 ^ 10) / 2 ^ 11

theorem idctCol_form (inp : Block Int) (x : Nat) {y : Nat} (hy : y < 8) :
    Exact.idctCol inp x y = columnForm inp x y := by
  unfold Exact.idctCol columnForm Exact.descale
  split
  next hz =>
    obtain ⟨h1, h2, h3, h4, h5, h6, h7⟩ := hz
    interval_cases y
    all_goals
      simp only [idctForm, h1, h2, h3, h4, h5, h6, h7]
      omega
  next => rw [idctButterfly_form _ hy]

/-- Row `y` of the first pass, of a block. -/
theorem row_idctCols (inp : Block Int) {y k : Nat} (hy : y < 8) (hk : k < 8) :
    row (Exact.idctCols inp) y k = columnForm inp k y := by
  unfold row Exact.idctCols
  rw [show (y * 8 + k) % 8 = k by omega, show (y * 8 + k) / 8 = y by omega, idctCol_form inp k hy]

-- ================================================================ bounds

/-- The numbers a butterfly is given, up to `b`. -/
def Within (b : Int) (c : Nat → Int) : Prop := ∀ k < 8, -b ≤ c k ∧ c k ≤ b

theorem Within.eight {b : Int} {c : Nat → Int} (h : Within b c) :
    (-b ≤ c 0 ∧ c 0 ≤ b) ∧ (-b ≤ c 1 ∧ c 1 ≤ b) ∧ (-b ≤ c 2 ∧ c 2 ≤ b) ∧ (-b ≤ c 3 ∧ c 3 ≤ b)
      ∧ (-b ≤ c 4 ∧ c 4 ≤ b) ∧ (-b ≤ c 5 ∧ c 5 ≤ b) ∧ (-b ≤ c 6 ∧ c 6 ≤ b)
      ∧ (-b ≤ c 7 ∧ c 7 ≤ b) :=
  ⟨h 0 (by decide), h 1 (by decide), h 2 (by decide), h 3 (by decide), h 4 (by decide),
    h 5 (by decide), h 6 (by decide), h 7 (by decide)⟩

theorem columnForm_within {inp : Block Int} {x : Nat} (h : Within 2048 (column inp x)) {y : Nat}
    (hy : y < 8) : -61214 ≤ columnForm inp x y ∧ columnForm inp x y ≤ 61214 := by
  obtain ⟨h0, h1, h2, h3, h4, h5, h6, h7⟩ := h.eight
  unfold columnForm
  interval_cases y
  all_goals
    simp only [idctForm]
    omega

-- ================================================================ the passes

/-- All a butterfly comes to fits, if what can be too big does. -/
theorem idctSteps_fit {c : Nat → Int} (h : Within 61214 c)
    (hz5 : Fits ((c 7 + c 3 + (c 5 + c 1)) * 9633)) (hz2 : Fits ((c 5 + c 3) * -20995))
    (hodd1 : Fits (6437 * c 1 - 11362 * c 3 - 14558 * c 5 + 9633 * c 7))
    (hodd2 : Fits (9633 * c 1 - 27431 * c 3 - 11362 * c 5 - 6436 * c 7))
    (hout : ∀ i < 8, Fits (Exact.idctButterfly c i)) : ∀ v ∈ Exact.idctSteps c, Fits v := by
  intro v hv
  obtain ⟨h0, h1, h2, h3, h4, h5, h6, h7⟩ := h.eight
  unfold Exact.idctSteps at hv
  rcases List.mem_append.mp hv with hv | hv
  · simp only [fits_iff] at hz5 hz2 hodd1 hodd2 ⊢
    simp only [List.mem_cons, List.not_mem_nil, or_false] at hv
    rcases hv with rfl | rfl | rfl | rfl | rfl | rfl | rfl | rfl | rfl | rfl | rfl | rfl | rfl
      | rfl | rfl | rfl | rfl | rfl | rfl | rfl | rfl | rfl | rfl | rfl | rfl | rfl | rfl | rfl
      | rfl | rfl | rfl | rfl | rfl | rfl | rfl | rfl | rfl | rfl
    all_goals omega
  · obtain ⟨i, hi, rfl⟩ := List.mem_map.mp hv
    exact hout i (List.mem_range.mp hi)

/-- The numbers of a column as they may be decoded, of a whole block. -/
def Coefs (inp : Block Int) : Prop := ∀ n < 64, -2048 ≤ inp n ∧ inp n ≤ 2047

variable {inp : Block Int}

theorem Coefs.column (h : Coefs inp) {x : Nat} (hx : x < 8) : Within 2048 (column inp x) := by
  intro k hk
  have := h (8 * k + x) (by omega)
  exact ⟨this.1, by unfold Exact.column; omega⟩

theorem Coefs.row (h : Coefs inp) {y : Nat} (hy : y < 8) :
    Within 61214 (row (Exact.idctCols inp) y) := by
  intro k hk
  rw [row_idctCols inp hy hk]
  exact columnForm_within (h.column hk) hy

/-- Before the rounding, a column. -/
theorem column_bound {c : Nat → Int} (h : Within 2048 c) {i : Nat} (hi : i < 8) :
    -130000000 ≤ Exact.idctButterfly c i ∧ Exact.idctButterfly c i ≤ 130000000 := by
  obtain ⟨h0, h1, h2, h3, h4, h5, h6, h7⟩ := h.eight
  rw [idctButterfly_form c hi]
  interval_cases i
  all_goals
    simp only [idctForm]
    omega

/-- The first pass never overflows. -/
theorem idctColSteps_fit {x : Nat} (h : Within 2048 (column inp x)) :
    ∀ v ∈ Exact.idctColSteps inp x, Fits v := by
  have hwide : Within 61214 (column inp x) := fun k hk => by
    have := h k hk
    omega
  obtain ⟨h0, h1, h2, h3, h4, h5, h6, h7⟩ := h.eight
  unfold Exact.idctColSteps
  split
  · intro v hv
    rw [List.mem_singleton.mp hv, fits_iff]
    omega
  · intro v hv
    rcases List.mem_append.mp hv with hv | hv
    · refine idctSteps_fit hwide ?_ ?_ ?_ ?_ (fun i hi => ?_) v hv
      all_goals rw [fits_iff]
      · omega
      · omega
      · omega
      · omega
      · have := column_bound h hi
        omega
    · obtain ⟨i, hi, rfl⟩ := List.mem_map.mp hv
      have := column_bound h (List.mem_range.mp hi)
      rw [fits_iff]
      omega

-- ============================================================ the condition

/-- What of a row can be too big. -/
structure CalmRow (s : Nat → Int) : Prop where
  oddSum : Fits ((s 7 + s 3 + (s 5 + s 1)) * 9633)
  innerSum : Fits ((s 5 + s 3) * -20995)
  odd1 : Fits (6437 * s 1 - 11362 * s 3 - 14558 * s 5 + 9633 * s 7)
  odd2 : Fits (9633 * s 1 - 27431 * s 3 - 11362 * s 5 - 6436 * s 7)
  /-- The results, as they are and with the rounding. -/
  out : ∀ i < 8, Fits (idctForm s i) ∧ Fits (idctForm s i + 2 ^ 17)

/-- A block none of whose rows is too loud, given what its columns come to. -/
def Calm (inp : Block Int) : Prop := ∀ y < 8, CalmRow fun k => columnForm inp k y

theorem CalmRow.congr {s s' : Nat → Int} (h : ∀ k < 8, s k = s' k) (hs : CalmRow s) :
    CalmRow s' := by
  have hform : ∀ i, idctForm s i = idctForm s' i := by
    intro i
    unfold idctForm
    rw [h 0 (by decide), h 1 (by decide), h 2 (by decide), h 3 (by decide), h 4 (by decide),
      h 5 (by decide), h 6 (by decide), h 7 (by decide)]
  obtain ⟨h1, h2, h3, h4, h5⟩ := hs
  rw [h 1 (by decide), h 3 (by decide), h 5 (by decide), h 7 (by decide)] at h1 h3 h4
  rw [h 3 (by decide), h 5 (by decide)] at h2
  exact ⟨h1, h2, h3, h4, fun i hi => hform i ▸ h5 i hi⟩

theorem calm_iff : Calm inp ↔ ∀ y < 8, CalmRow (row (Exact.idctCols inp) y) := by
  refine forall₂_congr fun y hy => ⟨?_, ?_⟩
  · exact .congr fun k hk => (row_idctCols inp hy hk).symm
  · exact .congr fun k hk => row_idctCols inp hy hk

/-- A row of one number is not. -/
theorem CalmRow.of_acZero {s : Nat → Int} (h : Within 61214 s) (hz : AcZero s) : CalmRow s := by
  obtain ⟨h1, h2, h3, h4, h5, h6, h7⟩ := hz
  have h0 := h 0 (by decide)
  constructor
  case out =>
    intro i hi
    interval_cases i
    all_goals
      simp only [idctForm, h1, h2, h3, h4, h5, h6, h7, fits_iff]
      omega
  all_goals
    simp only [h1, h3, h5, h7, fits_iff]
    omega

theorem calmRow_of_steps {s : Nat → Int} (h : ∀ v ∈ Exact.idctSteps s, Fits v)
    (hround : ∀ i < 8, Fits (Exact.idctButterfly s i + 2 ^ 17)) : CalmRow s where
  oddSum := h _ (by simp [Exact.idctSteps])
  innerSum := h _ (by simp [Exact.idctSteps])
  odd1 := by
    have hstep := h ((s 5 + s 3) * -20995
      + ((s 5 + s 1) * -3196 + (s 7 + s 3 + (s 5 + s 1)) * 9633)) (by simp [Exact.idctSteps])
    ring_nf at hstep ⊢
    exact hstep
  odd2 := by
    have hstep := h ((s 5 + s 3) * -20995
      + ((s 7 + s 3) * -16069 + (s 7 + s 3 + (s 5 + s 1)) * 9633)) (by simp [Exact.idctSteps])
    ring_nf at hstep ⊢
    exact hstep
  out i hi := by
    rw [← idctButterfly_form s hi]
    refine ⟨h _ ?_, hround i hi⟩
    exact List.mem_append_right _ (List.mem_map.mpr ⟨i, List.mem_range.mpr hi, rfl⟩)

/-- A row overflows nowhere exactly if it is calm. -/
theorem idctRowSteps_fit {ws : Block Int} {y : Nat} (h : Within 61214 (row ws y)) :
    (∀ v ∈ Exact.idctRowSteps ws y, Fits v) ↔ CalmRow (row ws y) := by
  have h0 := h 0 (by decide)
  unfold Exact.idctRowSteps
  split
  next hz =>
    refine iff_of_true (fun v hv => ?_) (.of_acZero h hz)
    simp only [List.mem_cons, List.not_mem_nil, or_false] at hv
    rw [fits_iff]
    unfold Exact.descale at hv
    omega
  next hz =>
    constructor
    · intro hall
      have hsteps : ∀ v ∈ Exact.idctSteps (row ws y), Fits v := fun v hv =>
        hall v (List.mem_append_left _ (List.mem_append_left _ hv))
      refine calmRow_of_steps hsteps fun i hi => hall _ ?_
      exact List.mem_append_left _ (List.mem_append_right _
        (List.mem_map.mpr ⟨i, List.mem_range.mpr hi, rfl⟩))
    · intro hcalm v hv
      rcases List.mem_append.mp hv with hv | hv
      · rcases List.mem_append.mp hv with hv | hv
        · refine idctSteps_fit h hcalm.oddSum hcalm.innerSum hcalm.odd1 hcalm.odd2 ?_ v hv
          intro i hi
          rw [idctButterfly_form _ hi]
          exact (hcalm.out i hi).1
        · obtain ⟨i, hi, rfl⟩ := List.mem_map.mp hv
          rw [idctButterfly_form _ (List.mem_range.mp hi)]
          exact (hcalm.out i (List.mem_range.mp hi)).2
      · obtain ⟨i, hi, rfl⟩ := List.mem_map.mp hv
        have hout := (hcalm.out i (List.mem_range.mp hi)).2
        rw [idctButterfly_form _ (List.mem_range.mp hi)]
        unfold Exact.descale
        rw [fits_iff] at hout ⊢
        omega

/-- The condition is exact. -/
theorem idctFits_iff (h : Coefs inp) : Exact.IdctFits inp ↔ Calm inp := by
  rw [calm_iff]
  constructor
  · intro hfit y hy
    exact (idctRowSteps_fit (h.row hy)).1 (hfit.2 y hy)
  · intro hcalm
    refine ⟨fun x hx => idctColSteps_fit (h.column hx), fun y hy => ?_⟩
    exact (idctRowSteps_fit (h.row hy)).2 (hcalm y hy)

-- =============================================================== the result

theorem idctCol_ofInt {x i : Nat} (h : Within 2048 (column inp x)) (hi : i < 8) :
    idctCol (fun n => Int32.ofInt (inp n)) x i = Int32.ofInt (Exact.idctCol inp x i) := by
  have hfits : ∀ k < 8, Fits (column inp x k) := fun k hk => by
    have := h k hk
    rw [fits_iff]
    omega
  have hzero := acZero_ofInt hfits
  unfold Exact.idctCol
  split
  next hac =>
    refine (if_pos (hzero.2 hac)).trans ?_
    rw [Int32.ofInt_mul]
    rfl
  next hac =>
    refine (if_neg fun h => hac (hzero.1 h)).trans ?_
    have hbound := column_bound h hi
    have hround : Fits (Exact.idctButterfly (column inp x) i + 2 ^ (11 - 1)) := by
      rw [fits_iff]
      omega
    rw [← descale_ofInt (by decide) (by decide) hround, ← idctButterfly_ofInt]
    rfl

theorem idctRow_ofInt {w : Block Int32} {ws : Block Int} {y i : Nat}
    (hw : ∀ k < 8, w (y * 8 + k) = Int32.ofInt (row ws y k)) (h : Within 61214 (row ws y))
    (hcalm : CalmRow (row ws y)) (hi : i < 8) :
    ((idctRow w y i).toNat : Int) = Exact.clampU8 (Exact.idctRow ws y i) := by
  have hfits : ∀ k < 8, Fits (row ws y k) := fun k hk => by
    have := h k hk
    rw [fits_iff]
    omega
  have h0 := h 0 (by decide)
  have hzero := acZero_ofInt hfits
  rw [← hw 1 (by decide), ← hw 2 (by decide), ← hw 3 (by decide), ← hw 4 (by decide),
    ← hw 5 (by decide), ← hw 6 (by decide), ← hw 7 (by decide)] at hzero
  unfold idctRow Exact.idctRow
  dsimp only
  split
  next hac =>
    rw [if_pos (hzero.1 hac), hw 0 (by decide)]
    have hround : Fits (row ws y 0 * 8192 + 2 ^ (18 - 1)) := by
      rw [fits_iff]
      omega
    have hres : Fits (Exact.descale (row ws y 0 * 8192) 18 + 128) := by
      unfold Exact.descale
      rw [fits_iff]
      omega
    rw [← clampU8_ofInt hres, Int32.ofInt_add, ← descale_ofInt (by decide) (by decide) hround,
      Int32.ofInt_mul]
    rfl
  next hac =>
    rw [if_neg fun h => hac (hzero.2 h)]
    have hout := (hcalm.out i hi).2
    rw [← idctButterfly_form _ hi] at hout
    have hres : Fits (Exact.descale (Exact.idctButterfly (row ws y) i) 18 + 128) := by
      unfold Exact.descale
      rw [fits_iff] at hout ⊢
      omega
    rw [← clampU8_ofInt hres, Int32.ofInt_add, ← descale_ofInt (by decide) (by decide) hout,
      ← idctButterfly_ofInt, idctButterfly_congr hw]
    rfl

/-- The transform in words gives what the one over the integers does. -/
theorem idct8x8_exact (h : Coefs inp) (hcalm : Calm inp) {n : Nat} (hn : n < 64) :
    ((idct8x8 (fun n => Int32.ofInt (inp n)) n).toNat : Int) = Exact.idct8x8 inp n := by
  have hy : n / 8 < 8 := by omega
  have hx : n % 8 < 8 := by omega
  have hrow := @idctRow_ofInt
    (fun m => idctCol (fun n => Int32.ofInt (inp n)) (m % 8) (m / 8)) (Exact.idctCols inp) _ _
    (fun k hk => ?_) (h.row hy) (calm_iff.1 hcalm _ hy) hx
  · exact hrow
  rw [show (n / 8 * 8 + k) % 8 = k by omega, show (n / 8 * 8 + k) / 8 = n / 8 by omega,
    idctCol_ofInt (h.column hk) hy, row_idctCols inp hy hk, idctCol_form inp k hy]

/-- Of all blocks that are decoded, the calm ones are those on which nothing
overflows and the result is that of the formulas over the integers. -/
theorem idct_exact_iff (h : ∀ n < 64, -2048 ≤ inp n ∧ inp n ≤ 2047) :
    (Exact.IdctFits inp ∧ ∀ n < 64,
      ((idct8x8 (fun n => Int32.ofInt (inp n)) n).toNat : Int) = Exact.idct8x8 inp n) ↔ Calm inp := by
  rw [idctFits_iff h]
  exact ⟨fun hboth => hboth.1, fun hcalm => ⟨hcalm, fun n hn => idct8x8_exact h hcalm hn⟩⟩

/-- A block with one coefficient is calm. -/
theorem idct_exact_dc :
    let inp : Block Int := fun n => if n = 0 then 2047 else 0
    Exact.IdctFits inp ∧ ∀ n < 64,
      ((idct8x8 (fun n => Int32.ofInt (inp n)) n).toNat : Int) = Exact.idct8x8 inp n := by
  intro inp
  refine (@idct_exact_iff inp fun n _ => ?_).2 fun y hy => ?_
  · unfold inp
    split <;> decide
  · interval_cases y
    all_goals exact ⟨by decide +kernel, by decide +kernel, by decide +kernel, by decide +kernel,
      by decide +kernel⟩

/-- The loudest block: all coefficients are 2047. The second pass overflows,
and the first sample is black where it should be white. -/
theorem idct_overflows :
    ¬∀ inp : Block Int, (∀ n < 64, -2048 ≤ inp n ∧ inp n ≤ 2047) →
      Exact.IdctFits inp ∧ ∀ n < 64,
        ((idct8x8 (fun n => Int32.ofInt (inp n)) n).toNat : Int) = Exact.idct8x8 inp n := by
  intro hall
  obtain ⟨-, hres⟩ := hall (fun _ => 2047) fun n _ => ⟨by decide, by decide⟩
  exact absurd (hres 0 (by decide)) (by decide +kernel)

end Ncmips.Tjc
