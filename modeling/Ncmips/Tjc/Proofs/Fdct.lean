/-
The forward DCT and the reciprocal quantiser are exact.

Every sum and product of the transform is a linear form of eight numbers
that are small enough; the reciprocal is too large by less than what would
carry a quotient over the next whole number.
-/
import Ncmips.Tjc.Proofs.Idct

namespace Ncmips.Tjc

-- ============================================================ in words

theorem fdctButterfly_ofInt (t : Nat → Int) (i : Nat) :
    fdctButterfly (fun k => Int32.ofInt (t k)) i = Int32.ofInt (Exact.fdctButterfly t i) := by
  unfold fdctButterfly Exact.fdctButterfly
  dsimp only
  split
  all_goals simp only [Int32.ofInt_add, Int32.ofInt_sub, Int32.ofInt_mul]
  all_goals rfl

theorem fdctInputs_ofInt (s : Nat → Int) (bias : Int) (i : Nat) :
    fdctInputs (fun k => Int32.ofInt (s k)) (Int32.ofInt bias) i
      = Int32.ofInt (Exact.fdctInputs s bias i) := by
  unfold fdctInputs Exact.fdctInputs
  split
  all_goals simp only [Int32.ofInt_add, Int32.ofInt_sub]

/-- The eight numbers are all that is read. -/
theorem fdctInputs_congr {s s' : Nat → Int32} (h : ∀ k < 8, s k = s' k) (bias : Int32) (i : Nat) :
    fdctInputs s bias i = fdctInputs s' bias i := by
  unfold fdctInputs
  rw [h 0 (by decide), h 1 (by decide), h 2 (by decide), h 3 (by decide), h 4 (by decide),
    h 5 (by decide), h 6 (by decide), h 7 (by decide)]

theorem sample_ofInt (b : UInt8) : b.toUInt32.toInt32 = Int32.ofInt (b.toNat : Int) := by
  rw [Int32.ofInt_eq_ofNat]
  apply Int32.toBitVec_inj.1
  apply BitVec.eq_of_toNat_eq
  simp

-- ================================================================ bounds

/-- The eight inputs, one by one. -/
theorem fdctInputs_eight (s : Nat → Int) (bias : Int) :
    Exact.fdctInputs s bias 0 = s 0 + s 7 - bias ∧ Exact.fdctInputs s bias 1 = s 1 + s 6 - bias
      ∧ Exact.fdctInputs s bias 2 = s 2 + s 5 - bias ∧ Exact.fdctInputs s bias 3 = s 3 + s 4 - bias
      ∧ Exact.fdctInputs s bias 4 = s 3 - s 4 ∧ Exact.fdctInputs s bias 5 = s 2 - s 5
      ∧ Exact.fdctInputs s bias 6 = s 1 - s 6 ∧ Exact.fdctInputs s bias 7 = s 0 - s 7 :=
  ⟨rfl, rfl, rfl, rfl, rfl, rfl, rfl, rfl⟩

/-- All that one pass comes to before it scales. -/
theorem fdctSteps_bound {s : Nat → Int} {bias : Int} (h : Within 4096 s)
    (hbias : 0 ≤ bias ∧ bias ≤ 256) :
    ∀ v ∈ Exact.fdctInputSteps s bias ++ Exact.fdctSteps (Exact.fdctInputs s bias),
      -1000000000 ≤ v ∧ v ≤ 1000000000 := by
  intro v hv
  obtain ⟨h0, h1, h2, h3, h4, h5, h6, h7⟩ := h.eight
  obtain ⟨e0, e1, e2, e3, e4, e5, e6, e7⟩ := fdctInputs_eight s bias
  simp only [Exact.fdctInputSteps, Exact.fdctSteps, List.mem_append, List.mem_cons,
    List.not_mem_nil, or_false, List.mem_map, List.mem_range] at hv
  rcases hv with ((rfl | rfl | rfl | rfl) | ⟨i, hi, rfl⟩) | hv
  · omega
  · omega
  · omega
  · omega
  · interval_cases i
    all_goals omega
  · rcases hv with rfl | rfl | rfl | rfl | rfl | rfl | rfl | rfl | rfl | rfl | rfl | rfl | rfl
      | rfl | rfl | rfl | rfl | rfl | rfl | rfl | rfl | rfl | rfl | rfl | rfl | rfl | rfl | rfl
      | rfl | rfl | rfl | rfl | rfl | rfl | rfl | rfl
    all_goals omega

theorem fdctButterfly_mem (t : Nat → Int) {i : Nat} (hi : i < 8) :
    Exact.fdctButterfly t i ∈ Exact.fdctSteps t := by
  interval_cases i
  all_goals simp [Exact.fdctButterfly, Exact.fdctSteps]

theorem fdctButterfly_bound {s : Nat → Int} {bias : Int} (h : Within 4096 s)
    (hbias : 0 ≤ bias ∧ bias ≤ 256) {i : Nat} (hi : i < 8) :
    -1000000000 ≤ Exact.fdctButterfly (Exact.fdctInputs s bias) i
      ∧ Exact.fdctButterfly (Exact.fdctInputs s bias) i ≤ 1000000000 :=
  fdctSteps_bound h hbias _ (List.mem_append_right _ (fdctButterfly_mem _ hi))

def rowSamples (src : Block UInt8) (y x : Nat) : Int := (src (y * 8 + x)).toNat

theorem rowSamples_range (src : Block UInt8) (y x : Nat) :
    0 ≤ rowSamples src y x ∧ rowSamples src y x ≤ 255 := by
  have := (src (y * 8 + x)).toNat_lt
  unfold rowSamples
  omega

/-- What the first pass leaves of samples. -/
theorem samples_bound {s : Nat → Int} (h : ∀ k, 0 ≤ s k ∧ s k ≤ 255) {i : Nat} (hi : i < 8) :
    (i = 0 ∨ i = 4 → -1024 ≤ Exact.fdctButterfly (Exact.fdctInputs s 256) i
        ∧ Exact.fdctButterfly (Exact.fdctInputs s 256) i ≤ 1024)
      ∧ -8387000 ≤ Exact.fdctButterfly (Exact.fdctInputs s 256) i
      ∧ Exact.fdctButterfly (Exact.fdctInputs s 256) i ≤ 8387000 := by
  have h0 := h 0
  have h1 := h 1
  have h2 := h 2
  have h3 := h 3
  have h4 := h 4
  have h5 := h 5
  have h6 := h 6
  have h7 := h 7
  obtain ⟨e0, e1, e2, e3, e4, e5, e6, e7⟩ := fdctInputs_eight s 256
  interval_cases i
  all_goals
    simp only [Exact.fdctButterfly, e0, e1, e2, e3, e4, e5, e6, e7]
    omega

theorem fdctRow_within (src : Block UInt8) (y : Nat) {i : Nat} (hi : i < 8) :
    -4096 ≤ Exact.fdctRow src y i ∧ Exact.fdctRow src y i ≤ 4096 := by
  obtain ⟨hdc, hac⟩ := samples_bound (rowSamples_range src y) hi
  show -4096 ≤ (if i = 0 ∨ i = 4 then Exact.fdctButterfly (Exact.fdctInputs (rowSamples src y) 256) i * 4
      else Exact.descale (Exact.fdctButterfly (Exact.fdctInputs (rowSamples src y) 256) i) 11)
    ∧ (if i = 0 ∨ i = 4 then Exact.fdctButterfly (Exact.fdctInputs (rowSamples src y) 256) i * 4
      else Exact.descale (Exact.fdctButterfly (Exact.fdctInputs (rowSamples src y) 256) i) 11) ≤ 4096
  unfold Exact.descale
  split_ifs with h
  · have := hdc h
    omega
  · omega

-- ================================================================ the passes

theorem fits_of_bound {v : Int} (h : -1000000000 ≤ v ∧ v ≤ 1000000000) : Fits v := by
  rw [fits_iff]
  omega

theorem fdctRows_within (src : Block UInt8) (x : Nat) :
    Within 4096 fun y => Exact.fdctRows src (y * 8 + x) := by
  intro y _
  show -4096 ≤ Exact.fdctRow src ((y * 8 + x) / 8) ((y * 8 + x) % 8)
    ∧ Exact.fdctRow src ((y * 8 + x) / 8) ((y * 8 + x) % 8) ≤ 4096
  exact fdctRow_within src _ (by omega)

/-- Nothing overflows in either pass. -/
theorem fdct_fits (src : Block UInt8) : Exact.FdctFits src := by
  refine ⟨fun y _ v hv => ?_, fun x _ v hv => ?_⟩
  · have hwide : Within 4096 (rowSamples src y) := fun k _ => by
      have := rowSamples_range src y k
      omega
    rcases List.mem_append.mp hv with hv | hv
    · exact fits_of_bound (fdctSteps_bound hwide (by decide) v hv)
    · obtain ⟨i, hi, rfl⟩ := List.mem_map.mp hv
      obtain ⟨hdc, hac⟩ := samples_bound (rowSamples_range src y) (List.mem_range.mp hi)
      rw [fits_iff]
      dsimp only
      split_ifs with h
      · have hdc : -1024 ≤ Exact.fdctButterfly (Exact.fdctInputs
            (fun x => ((src (y * 8 + x)).toNat : Int)) 256) i
          ∧ Exact.fdctButterfly (Exact.fdctInputs
            (fun x => ((src (y * 8 + x)).toNat : Int)) 256) i ≤ 1024 := hdc h
        omega
      · have hac : -8387000 ≤ Exact.fdctButterfly (Exact.fdctInputs
            (fun x => ((src (y * 8 + x)).toNat : Int)) 256) i
          ∧ Exact.fdctButterfly (Exact.fdctInputs
            (fun x => ((src (y * 8 + x)).toNat : Int)) 256) i ≤ 8387000 := hac
        omega
  · have hwide := fdctRows_within src x
    rcases List.mem_append.mp hv with hv | hv
    · exact fits_of_bound (fdctSteps_bound hwide (by decide) v hv)
    · obtain ⟨i, hi, rfl⟩ := List.mem_map.mp hv
      have hbound := @fdctButterfly_bound _ 0 hwide (by decide) i (List.mem_range.mp hi)
      rw [fits_iff]
      dsimp only
      split_ifs with h
      · omega
      · omega

theorem fdctRow_ofInt (src : Block UInt8) (y : Nat) {i : Nat} (hi : i < 8) :
    fdctRow src y i = Int32.ofInt (Exact.fdctRow src y i) := by
  obtain ⟨hdc, hac⟩ := samples_bound (rowSamples_range src y) hi
  have hsamples : (fun x => (src (y * 8 + x)).toUInt32.toInt32)
      = fun x => Int32.ofInt (rowSamples src y x) := funext fun x => sample_ofInt _
  have hinputs : fdctInputs (fun x => Int32.ofInt (rowSamples src y x)) 256
      = fun i => Int32.ofInt (Exact.fdctInputs (rowSamples src y) 256 i) :=
    funext (fdctInputs_ofInt _ 256)
  have hbutterfly : fdctButterfly (fdctInputs (fun x => (src (y * 8 + x)).toUInt32.toInt32) 256) i
      = Int32.ofInt (Exact.fdctButterfly (Exact.fdctInputs (rowSamples src y) 256) i) := by
    rw [hsamples, hinputs, fdctButterfly_ofInt]
  unfold fdctRow Exact.fdctRow
  dsimp only
  rw [hbutterfly]
  split_ifs with h
  · rw [Int32.ofInt_mul]
    rfl
  · have hround : Fits (Exact.fdctButterfly (Exact.fdctInputs (rowSamples src y) 256) i
        + 2 ^ (11 - 1)) := by
      rw [fits_iff]
      omega
    exact descale_ofInt (n := 11) (by decide) (by decide) hround

theorem fdctCol_ofInt {w : Block Int32} {ws : Block Int} {x i : Nat}
    (hw : ∀ y < 8, w (y * 8 + x) = Int32.ofInt (ws (y * 8 + x)))
    (h : Within 4096 fun y => ws (y * 8 + x)) (hi : i < 8) :
    fdctCol w x i = Int32.ofInt (Exact.fdctCol ws x i) := by
  have hinputs : fdctInputs (fun y => w (y * 8 + x)) 0
      = fun i => Int32.ofInt (Exact.fdctInputs (fun y => ws (y * 8 + x)) 0 i) := by
    funext i
    rw [← fdctInputs_ofInt _ 0 i]
    exact fdctInputs_congr hw 0 i
  have hbutterfly : fdctButterfly (fdctInputs (fun y => w (y * 8 + x)) 0) i
      = Int32.ofInt (Exact.fdctButterfly (Exact.fdctInputs (fun y => ws (y * 8 + x)) 0) i) := by
    rw [hinputs, fdctButterfly_ofInt]
  have hbound := @fdctButterfly_bound _ 0 h (by decide) i hi
  unfold fdctCol Exact.fdctCol
  dsimp only
  rw [hbutterfly]
  split_ifs with hdc
  · refine descale_ofInt (n := 2) (by decide) (by decide) ?_
    rw [fits_iff]
    omega
  · refine descale_ofInt (n := 15) (by decide) (by decide) ?_
    rw [fits_iff]
    omega

/-- The coefficients are those of the formulas over the integers. -/
theorem fdct8x8_ofInt (src : Block UInt8) {n : Nat} (hn : n < 64) :
    fdct8x8 src n = Int32.ofInt (Exact.fdct8x8 src n) := by
  have hcol := @fdctCol_ofInt (fun m => fdctRow src (m / 8) (m % 8)) (Exact.fdctRows src) (n % 8)
    (n / 8) (fun y _ => fdctRow_ofInt src _ (by omega)) (fdctRows_within src _) (by omega)
  exact hcol

/-- They are small. -/
theorem fdctCol_bound {ws : Block Int} {x i : Nat} (h : Within 4096 fun y => ws (y * 8 + x))
    (hi : i < 8) : -32768 ≤ Exact.fdctCol ws x i ∧ Exact.fdctCol ws x i ≤ 32768 := by
  have hbound := @fdctButterfly_bound _ 0 h (by decide) i hi
  obtain ⟨h0, h1, h2, h3, h4, h5, h6, h7⟩ := h.eight
  obtain ⟨e0, e1, e2, e3, e4, e5, e6, e7⟩ := fdctInputs_eight (fun y => ws (y * 8 + x)) 0
  unfold Exact.fdctCol Exact.descale
  dsimp only
  split_ifs with hdc
  · -- the mean and the middle frequency are sums of the inputs
    rcases hdc with rfl | rfl
    · simp only [Exact.fdctButterfly, e0, e1, e2, e3]
      omega
    · simp only [Exact.fdctButterfly, e0, e1, e2, e3]
      omega
  · omega

-- ============================================================ the quantiser

/-- The reciprocal, rounded up, never carries a quotient over. -/
theorem recip_div {a d : Nat} (hd : 0 < d) (hd' : d ≤ 4095) (ha : a < 2 ^ 20) :
    a * (2 ^ 40 / d + 1) / 2 ^ 40 = a / d := by
  have hmod := Nat.mod_lt (2 ^ 40) hd
  have hr := Nat.mod_lt a hd
  have hq := Nat.div_add_mod a d
  have hrecip : d * (2 ^ 40 / d + 1) = 2 ^ 40 + (d - 2 ^ 40 % d) := by
    have := Nat.div_add_mod (2 ^ 40) d
    rw [Nat.mul_add, Nat.mul_one]
    omega
  have hprod : d * (a * (2 ^ 40 / d + 1)) = a * 2 ^ 40 + a * (d - 2 ^ 40 % d) := by
    rw [Nat.mul_left_comm, hrecip, Nat.mul_add]
  have hsmall : a * (d - 2 ^ 40 % d) < 2 ^ 40 :=
    calc a * (d - 2 ^ 40 % d) ≤ 2 ^ 20 * 4095 :=
          Nat.mul_le_mul (Nat.le_of_lt ha) (Nat.le_trans (Nat.sub_le _ _) hd')
      _ < 2 ^ 40 := by decide
  refine Nat.div_eq_of_lt_le ?_ ?_
  · refine Nat.le_of_mul_le_mul_left ?_ hd
    rw [hprod]
    calc d * (a / d * 2 ^ 40) = d * (a / d) * 2 ^ 40 := (Nat.mul_assoc _ _ _).symm
      _ ≤ a * 2 ^ 40 := Nat.mul_le_mul_right _ (Nat.mul_div_le a d)
      _ ≤ _ := Nat.le_add_right _ _
  · refine Nat.lt_of_mul_lt_mul_left (a := d) ?_
    rw [hprod]
    calc a * 2 ^ 40 + a * (d - 2 ^ 40 % d) < a * 2 ^ 40 + 2 ^ 40 := by omega
      _ = (a + 1) * 2 ^ 40 := by ring
      _ ≤ d * (a / d + 1) * 2 ^ 40 := Nat.mul_le_mul_right _ (by rw [Nat.mul_add]; omega)
      _ = d * ((a / d + 1) * 2 ^ 40) := Nat.mul_assoc _ _ _

theorem quantRecip_toNat (d : UInt32) :
    (quantRecip d).toNat = 2 ^ 40 / d.toNat + 1 := by
  have hle : 2 ^ 40 / d.toNat ≤ 2 ^ 40 := Nat.div_le_self _ _
  unfold quantRecip
  rw [UInt64.toNat_add, UInt64.toNat_div, UInt32.toNat_toUInt64,
    show ((1 : UInt64) <<< 40).toNat = 2 ^ 40 from rfl, show (1 : UInt64).toNat = 1 from rfl]
  exact Nat.mod_eq_of_lt (by omega)

/-- The magnitude's quotient. -/
theorem quantDiv_nat {a d : UInt32} (hd : 0 < d.toNat) (hd' : d.toNat ≤ 4095)
    (ha : a.toNat < 2 ^ 20) :
    ((a.toUInt64 * quantRecip d) >>> 40).toUInt32.toInt32
      = Int32.ofInt ((a.toNat / d.toNat : Nat) : Int) := by
  have hle : 2 ^ 40 / d.toNat ≤ 2 ^ 40 := Nat.div_le_self _ _
  have hprod : a.toNat * (2 ^ 40 / d.toNat + 1) < 2 ^ 64 :=
    calc a.toNat * (2 ^ 40 / d.toNat + 1) ≤ 2 ^ 20 * (2 ^ 40 + 1) :=
          Nat.mul_le_mul (Nat.le_of_lt ha) (by omega)
      _ < 2 ^ 64 := by decide
  have hquot : ((a.toUInt64 * quantRecip d) >>> 40).toNat = a.toNat / d.toNat := by
    rw [UInt64.toNat_shiftRight, UInt64.toNat_mul, UInt32.toNat_toUInt64, quantRecip_toNat d,
      Nat.mod_eq_of_lt hprod, show (40 : UInt64).toNat % 64 = 40 from rfl, Nat.shiftRight_eq_div_pow,
      recip_div hd hd' ha]
  rw [Int32.ofInt_eq_ofNat, ← hquot]
  apply Int32.toBitVec_inj.1
  apply BitVec.eq_of_toNat_eq
  simp

/-- Half a divisor, added before. -/
theorem round_nat (n d : Nat) : (2 * n + d) / (2 * d) = (n + d / 2) / d := by
  rw [← Nat.div_div_eq_div_mul, show (2 * n + d) / 2 = n + d / 2 by omega]

theorem roundAway_of_nonneg {v : Int} (hv : 0 ≤ v) {d : Nat} (hd : 0 < d) :
    Exact.roundAway v d = ((v.natAbs + d / 2) / d : Nat) := by
  unfold Exact.roundAway
  rw [round_nat]
  rcases Int.lt_or_eq_of_le hv with hpos | rfl
  · rw [Int.sign_eq_one_of_pos hpos, Int.one_mul]
  · rw [Int.sign_zero, Int.zero_mul, Int.natAbs_zero, Nat.zero_add,
      Nat.div_eq_of_lt (Nat.div_lt_self hd (by decide))]
    rfl

theorem roundAway_of_neg {v : Int} (hv : v < 0) (d : Nat) :
    Exact.roundAway v d = -((v.natAbs + d / 2) / d : Nat) := by
  unfold Exact.roundAway
  rw [round_nat, Int.sign_eq_neg_one_of_neg hv, Int.neg_one_mul]

/-- The branch-free change of sign. -/
theorem flip_neg (x : Int32) : (x ^^^ -1) - -1 = -x := by
  rw [Int32.xor_neg_one, Int32.not_eq_neg_sub]
  grind

theorem flip_zero (x : Int32) : (x ^^^ 0) - 0 = x := by
  rw [Int32.xor_zero, Int32.sub_zero]

/-- The magnitude with half the divisor. -/
theorem magnitude_toNat {w : Int} (hw : 0 ≤ w) {d : UInt32} (h : w.natAbs + d.toNat / 2 < 2 ^ 20) :
    ((Int32.ofInt w).toUInt32 + (d >>> 1)).toNat = w.natAbs + d.toNat / 2 := by
  obtain ⟨n, rfl⟩ := Int.eq_ofNat_of_zero_le hw
  have hn : (Int32.ofInt (n : Int)).toUInt32.toNat = n := by
    rw [Int32.ofInt_eq_ofNat]
    exact Nat.mod_eq_of_lt (by omega)
  rw [UInt32.toNat_add, hn, UInt32.toNat_shiftRight, show (1 : UInt32).toNat % 32 = 1 from rfl,
    Nat.shiftRight_eq_div_pow, Nat.pow_one]
  exact Nat.mod_eq_of_lt (by omega)

/-- The quantiser rounds to the nearest, half away from zero. -/
theorem quantDiv_exact {v : Int} {d : UInt32} (hd : 0 < d.toNat) (hd' : d.toNat ≤ 4095)
    (hv : v.natAbs + d.toNat / 2 < 2 ^ 20) :
    (quantDiv (Int32.ofInt v) d (quantRecip d)).toInt = Exact.roundAway v d.toNat := by
  have hfits : Fits v := by
    rw [fits_iff]
    omega
  have hle : (v.natAbs + d.toNat / 2) / d.toNat ≤ v.natAbs + d.toNat / 2 := Nat.div_le_self _ _
  have hsign : Int32.ofInt v >>> 31 = Int32.ofInt (v / 2 ^ 31) := ofInt_shiftRight hfits (by decide)
  unfold quantDiv
  dsimp only
  rw [hsign]
  rcases Int.lt_or_le v 0 with hneg | hpos
  · have hquot : Int32.ofInt (v / 2 ^ 31) = -1 := by
      rw [show v / 2 ^ 31 = -1 by omega]
      rfl
    have hmag := @magnitude_toNat (-v) (by omega) d (by omega)
    rw [hquot, flip_neg, flip_neg, ← Int32.ofInt_neg, quantDiv_nat hd hd' (by omega), hmag,
      Int.natAbs_neg, roundAway_of_neg hneg, ← Int32.ofInt_neg]
    generalize (v.natAbs + d.toNat / 2) / d.toNat = q at hle
    refine toInt_ofInt ?_
    rw [fits_iff]
    omega
  · have hquot : Int32.ofInt (v / 2 ^ 31) = 0 := by
      rw [show v / 2 ^ 31 = 0 by omega]
      rfl
    have hmag := magnitude_toNat hpos hv
    rw [hquot, flip_zero, flip_zero, quantDiv_nat hd hd' (by omega), hmag,
      roundAway_of_nonneg hpos hd]
    generalize (v.natAbs + d.toNat / 2) / d.toNat = q at hle
    refine toInt_ofInt ?_
    rw [fits_iff]
    omega

-- =============================================================== results

/-- A table entry times 8. -/
theorem divisor_toNat (quality : Nat) (table : Bool) (n : Nat) :
    (UInt32.ofNat (buildQuantTables quality table n * 8)).toNat
        = 8 * buildQuantTables quality table n
      ∧ 0 < buildQuantTables quality table n ∧ buildQuantTables quality table n ≤ 255 := by
  have hrange : 0 < buildQuantTables quality table n ∧ buildQuantTables quality table n ≤ 255 := by
    unfold buildQuantTables
    dsimp only
    omega
  refine ⟨?_, hrange⟩
  rw [Nat.mul_comm 8]
  exact Nat.mod_eq_of_lt (by omega)

/-- For every block and quality: nothing overflows in the forward transform,
its coefficients are those of the formulas over the integers, and each is
quantised to the nearest multiple, half away from zero. -/
theorem fdct_quant_exact (src : Block UInt8) (quality : Nat) (table : Bool) :
    Exact.FdctFits src ∧ ∀ n < 64,
      let q := buildQuantTables quality table n
      let d : UInt32 := .ofNat (q * 8)
      (fdct8x8 src n).toInt = Exact.fdct8x8 src n
        ∧ (quantDiv (fdct8x8 src n) d (quantRecip d)).toInt
          = Exact.roundAway (Exact.fdct8x8 src n) (8 * q) := by
  refine ⟨fdct_fits src, fun n hn => ?_⟩
  intro q d
  obtain ⟨hd, hpos, hle⟩ : d.toNat = 8 * q ∧ 0 < q ∧ q ≤ 255 := divisor_toNat quality table n
  have hbound : -32768 ≤ Exact.fdct8x8 src n ∧ Exact.fdct8x8 src n ≤ 32768 :=
    fdctCol_bound (fdctRows_within src _) (by omega)
  have hfits : Fits (Exact.fdct8x8 src n) := by
    rw [fits_iff]
    omega
  rw [fdct8x8_ofInt src hn, toInt_ofInt hfits, ← hd]
  exact ⟨rfl, quantDiv_exact (by omega) (by omega) (by omega)⟩

end Ncmips.Tjc
