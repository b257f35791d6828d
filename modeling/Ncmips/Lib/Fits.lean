/-
Signed 32-bit words as integers.

`Int32.ofInt` is a homomorphism, whatever wraps; so a sum of products in
words is that of the integers as soon as the last value fits.
-/
import Mathlib.Tactic.Ring
import Mathlib.Tactic.NormNum
import Mathlib.Tactic.Linarith
import Mathlib.Tactic.Positivity

namespace Ncmips

/-- The value of a signed 32-bit word. -/
def Fits (v : Int) : Prop := -2 ^ 31 ≤ v ∧ v < 2 ^ 31

instance (v : Int) : Decidable (Fits v) := inferInstanceAs (Decidable (_ ∧ _))

theorem fits_iff {v : Int} : Fits v ↔ -2147483648 ≤ v ∧ v ≤ 2147483647 := by
  unfold Fits
  omega

theorem toInt_ofInt {v : Int} (h : Fits v) : (Int32.ofInt v).toInt = v :=
  Int32.toInt_ofInt_of_le h.1 h.2

theorem fits_toInt (x : Int32) : Fits x.toInt := ⟨x.le_toInt, x.toInt_lt⟩

/-- The shift count is taken as it is. -/
theorem shift_count : ∀ n < 32, ((Int32.ofNat n).toBitVec.smod 32).toNat = n := by decide

/-- An arithmetic shift is a division. -/
theorem ofInt_shiftRight {v : Int} (h : Fits v) {n : Nat} (hn : n < 32) :
    Int32.ofInt v >>> Int32.ofNat n = Int32.ofInt (v / 2 ^ n) := by
  have hdiv : Fits (v / 2 ^ n) := by
    have hpos : (0 : Int) < 2 ^ n := by positivity
    have hone : (1 : Int) ≤ 2 ^ n := hpos
    refine ⟨?_, ?_⟩
    · rw [Int.le_ediv_iff_mul_le hpos]
      nlinarith [h.1]
    · rw [Int.ediv_lt_iff_lt_mul hpos]
      nlinarith [h.2]
  apply Int32.toInt_inj.1
  rw [toInt_ofInt hdiv, ← Int32.toInt_toBitVec, Int32.toBitVec_shiftRight, BitVec.sshiftRight_eq',
    shift_count n hn, BitVec.toInt_sshiftRight, Int32.toInt_toBitVec, toInt_ofInt h,
    Int.shiftRight_eq_div_pow]
  norm_cast

end Ncmips
