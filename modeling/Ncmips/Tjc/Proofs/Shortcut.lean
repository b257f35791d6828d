/-
The inverse DCT's short cuts.

With zeros at the frequencies 1 to 7 all eight sums of the butterfly are
the first input, shifted. A column's descale then takes back a part of the
shift, and nothing is rounded away; a row's short cut rounds as the full
path does.
-/
import Ncmips.Tjc.Proofs.Idct

namespace Ncmips.Tjc

-- ============================================================== full path

/-- Pass 1 without the short cut. -/
def idctColFull (inp : Block Int32) (x i : Nat) : Int32 :=
  descale (idctButterfly (fun k => inp (8 * k + x)) i) (kConstBits - kPass1Bits)

/-- Pass 2 without the short cut. -/
def idctRowFull (ws : Block Int32) (y i : Nat) : UInt8 :=
  clampU8 (descale (idctButterfly (fun k => ws (y * 8 + k)) i) (kConstBits + kPass1Bits + 3) + 128)

def idct8x8Full (inp : Block Int32) : Block UInt8 :=
  let ws : Block Int32 := fun n => idctColFull inp (n % 8) (n / 8)
  fun n => idctRowFull ws (n / 8) (n % 8)

-- ============================================================= short cuts

/-- The short cut's test. -/
theorem acZero_iff (c : Nat → Int32) :
    c 1 ||| c 2 ||| c 3 ||| c 4 ||| c 5 ||| c 6 ||| c 7 = 0 ↔ ∀ k < 8, 0 < k → c k = 0 := by
  simp only [Int32.or_eq_zero_iff, and_assoc]
  constructor
  · rintro ⟨h1, h2, h3, h4, h5, h6, h7⟩ k hk hpos
    interval_cases k <;> assumption
  · intro h
    exact ⟨h 1 (by decide) (by decide), h 2 (by decide) (by decide), h 3 (by decide) (by decide),
      h 4 (by decide) (by decide), h 5 (by decide) (by decide), h 6 (by decide) (by decide),
      h 7 (by decide) (by decide)⟩

theorem idctButterfly_dc {c : Nat → Int32} (h : ∀ k < 8, 0 < k → c k = 0) (i : Nat) :
    idctButterfly c i = c 0 * (1 <<< kConstBits) := by
  unfold idctButterfly
  rw [h 1 (by decide) (by decide), h 2 (by decide) (by decide), h 3 (by decide) (by decide),
    h 4 (by decide) (by decide), h 5 (by decide) (by decide), h 6 (by decide) (by decide),
    h 7 (by decide) (by decide)]
  simp only [Int32.zero_mul, Int32.add_zero, Int32.sub_zero]
  split <;> rfl

/-- What a column's short cut skips rounds nothing away. -/
theorem descale_dc {v : Int32} (h : -2048 ≤ v.toInt ∧ v.toInt ≤ 2047) :
    descale (v * (1 <<< kConstBits)) (kConstBits - kPass1Bits) = v * (1 <<< kPass1Bits) := by
  have hround : Fits (v.toInt * 8192 + 2 ^ (11 - 1)) := by
    rw [fits_iff]
    omega
  have hexact : Exact.descale (v.toInt * 8192) 11 = v.toInt * 4 := by
    unfold Exact.descale
    omega
  have hdescale := descale_ofInt (n := 11) (by decide) (by decide) hround
  rw [hexact, Int32.ofInt_mul, Int32.ofInt_mul, Int32.ofInt_toInt] at hdescale
  exact hdescale

/-- A column, whatever its inputs are called. -/
theorem column_full {c : Nat → Int32} (h : -2048 ≤ (c 0).toInt ∧ (c 0).toInt ≤ 2047) (i : Nat) :
    (if c 1 ||| c 2 ||| c 3 ||| c 4 ||| c 5 ||| c 6 ||| c 7 = 0 then c 0 * (1 <<< kPass1Bits)
      else descale (idctButterfly c i) (kConstBits - kPass1Bits))
      = descale (idctButterfly c i) (kConstBits - kPass1Bits) := by
  by_cases hac : c 1 ||| c 2 ||| c 3 ||| c 4 ||| c 5 ||| c 6 ||| c 7 = 0
  · rw [if_pos hac, idctButterfly_dc ((acZero_iff c).1 hac), descale_dc h]
  · rw [if_neg hac]

/-- And a row. -/
theorem row_full (r : Nat → Int32) (i : Nat) (sh : Int32) :
    (if r 1 ||| r 2 ||| r 3 ||| r 4 ||| r 5 ||| r 6 ||| r 7 = 0 then
        clampU8 (descale (r 0 * (1 <<< kConstBits)) sh + 128)
      else clampU8 (descale (idctButterfly r i) sh + 128))
      = clampU8 (descale (idctButterfly r i) sh + 128) := by
  by_cases hac : r 1 ||| r 2 ||| r 3 ||| r 4 ||| r 5 ||| r 6 ||| r 7 = 0
  · rw [if_pos hac, idctButterfly_dc ((acZero_iff r).1 hac)]
  · rw [if_neg hac]

theorem idctCol_full {inp : Block Int32} {x : Nat}
    (h : -2048 ≤ (inp (8 * 0 + x)).toInt ∧ (inp (8 * 0 + x)).toInt ≤ 2047) (i : Nat) :
    idctCol inp x i = idctColFull inp x i :=
  column_full (c := fun k => inp (8 * k + x)) h i

theorem idctRow_full (ws : Block Int32) (y i : Nat) : idctRow ws y i = idctRowFull ws y i :=
  row_full (fun k => ws (y * 8 + k)) i _

theorem idctRow_congr {ws ws' : Block Int32} {y : Nat}
    (h : ∀ k < 8, ws (y * 8 + k) = ws' (y * 8 + k)) (i : Nat) :
    idctRowFull ws y i = idctRowFull ws' y i := by
  unfold idctRowFull
  rw [idctButterfly_congr h]

theorem idctCol_dc {inp : Block Int32} {x : Nat} (h : ∀ k < 8, 0 < k → inp (8 * k + x) = 0)
    (j : Nat) : idctCol inp x j = inp (8 * 0 + x) * (1 <<< kPass1Bits) := by
  unfold idctCol
  exact if_pos ((acZero_iff fun k => inp (8 * k + x)).2 h)

theorem idctRow_dc {ws : Block Int32} {y : Nat} (h : ∀ k < 8, 0 < k → ws (y * 8 + k) = 0)
    (j : Nat) : idctRow ws y j
      = clampU8 (descale (ws (y * 8 + 0) * (1 <<< kConstBits)) (kConstBits + kPass1Bits + 3)
        + 128) := by
  unfold idctRow
  exact if_pos ((acZero_iff fun k => ws (y * 8 + k)).2 h)

/-- A block without AC coefficients. -/
theorem idct8x8_dc {inp : Block Int32} (h : ∀ k < 64, 0 < k → inp k = 0) (n : Nat) :
    idct8x8Dc (inp 0) n = idct8x8 inp n := by
  have hcol : ∀ x < 8, ∀ j, idctCol inp x j = inp x * (1 <<< kPass1Bits) := by
    intro x hx j
    rw [idctCol_dc (fun k hk hpos => h _ (by omega) (by omega)), Nat.mul_zero, Nat.zero_add]
  have hrow : ∀ k < 8, idctCol inp ((n / 8 * 8 + k) % 8) ((n / 8 * 8 + k) / 8)
      = inp k * (1 <<< kPass1Bits) := by
    intro k hk
    rw [hcol _ (by omega), show (n / 8 * 8 + k) % 8 = k by omega]
  have hzero : ∀ k < 8, 0 < k → idctCol inp ((n / 8 * 8 + k) % 8) ((n / 8 * 8 + k) / 8) = 0 := by
    intro k hk hpos
    rw [hrow k hk, h k (by omega) hpos, Int32.zero_mul]
  have hres := @idctRow_dc (fun n => idctCol inp (n % 8) (n / 8)) (n / 8) hzero (n % 8)
  rw [hrow 0 (by decide)] at hres
  exact hres.symm

/-- The short cuts give what the two passes without them do, and so does
`idct8x8_dc` for a block without AC coefficients. -/
theorem shortcuts_exact (inp : Block Int32)
    (h : ∀ n < 64, -2048 ≤ (inp n).toInt ∧ (inp n).toInt ≤ 2047) (n : Nat) :
    idct8x8 inp n = idct8x8Full inp n
      ∧ ((∀ k < 64, 0 < k → inp k = 0) → idct8x8Dc (inp 0) n = idct8x8 inp n) := by
  have hcols : ∀ k < 8, idctCol inp ((n / 8 * 8 + k) % 8) ((n / 8 * 8 + k) / 8)
      = idctColFull inp ((n / 8 * 8 + k) % 8) ((n / 8 * 8 + k) / 8) :=
    fun k _ => idctCol_full (h (8 * 0 + (n / 8 * 8 + k) % 8) (by omega)) _
  refine ⟨?_, fun hac => idct8x8_dc hac n⟩
  show idctRow (fun n => idctCol inp (n % 8) (n / 8)) (n / 8) (n % 8)
    = idctRowFull (fun n => idctColFull inp (n % 8) (n / 8)) (n / 8) (n % 8)
  rw [idctRow_full]
  exact idctRow_congr hcols (n % 8)

/-- A block with one column: short cuts in seven columns and no row. -/
theorem shortcuts_exact_column :
    let inp : Block Int32 := fun n => if n = 8 then 2047 else 0
    idct8x8 inp 3 = idct8x8Full inp 3 :=
  (shortcuts_exact (fun n => if n = 8 then 2047 else 0)
    (fun n _ => by split <;> decide) 3).1

end Ncmips.Tjc
