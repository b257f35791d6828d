/-
Linear interpolation in 32-bit words.

A position between samples has 16 bits of fraction. Between two 16-bit
samples the exact value is a sample again, but the product it is
computed from may need 33 bits: `lerp`, which keeps 32 of them, is right
where the product fits, and only there.
-/
import Ncmips.Lib.Fits
import Ncmips.Lib.Words
import Mathlib.Data.Rat.Floor

namespace Ncmips.Words

/-- A position between samples. -/
structure Cursor where
  pos : Nat
  frac : Nat
  frac_lt : frac < 2 ^ 16

/-- One output further, `step` of them 16.16 samples. -/
def Cursor.advance (c : Cursor) (step : Nat) : Cursor where
  pos := u32 (c.pos + u32 (c.frac + step) / 2 ^ 16)
  frac := u32 (c.frac + step) % 2 ^ 16
  frac_lt := Nat.mod_lt _ (by decide)

/-- `a + (((b - a) * f) >> 16)` -/
def lerp (a b f : Int) : Int := a + (s32 ((b - a) * f) >>> (16 : Nat))

/-- The value on the line from `a` to `b`, rounded down. -/
def online (a b f : Int) : Int := ⌊(a + (b - a) * f / 65536 : ℚ)⌋

theorem online_eq (a b f : Int) : online a b f = a + (b - a) * f / 65536 := by
  unfold online
  rw [Int.floor_intCast_add]
  congr 1
  have hdiv := Rat.floor_intCast_div_natCast ((b - a) * f) 65536
  push_cast at hdiv
  exact hdiv

/-- What an interpolated value should be. -/
structure Interpolates (a b f v : Int) : Prop where
  exact : v = online a b f
  ge_min : min a b ≤ v
  le_max : v ≤ max a b

/-- The exact value lies between its samples. -/
theorem interpolates_online (a b : Int) {f : Int} (h0 : 0 ≤ f) (hf : f < 2 ^ 16) :
    Interpolates a b f (online a b f) := by
  have hscale : 65536 * ((b - a) * f / 65536) ≤ (b - a) * f
      ∧ (b - a) * f < 65536 * ((b - a) * f / 65536) + 65536 := by omega
  obtain ⟨hlow, hhigh⟩ := hscale
  refine ⟨rfl, ?_, ?_⟩
  · rw [online_eq]
    rcases le_total a b with hab | hab
    · have hpos : 0 ≤ (b - a) * f := mul_nonneg (by omega) h0
      omega
    · have hdown : (a - b) * f ≤ (a - b) * 65536 := mul_le_mul_of_nonneg_left (by omega) (by omega)
      have hneg : (b - a) * f = -((a - b) * f) := by ring
      omega
  · rw [online_eq]
    rcases le_total a b with hab | hab
    · have hup : (b - a) * f ≤ (b - a) * 65536 := mul_le_mul_of_nonneg_left (by omega) (by omega)
      omega
    · have hneg : (a - b) * f = -((b - a) * f) := by ring
      have hpos : 0 ≤ (a - b) * f := mul_nonneg (by omega) h0
      omega

/-- What wraps is lost above the shift: the result is off by whole
turns of 16 bits. -/
theorem lerp_eq (a b f : Int) :
    ∃ k : Int, lerp a b f = online a b f + k * 2 ^ 16
      ∧ s32 ((b - a) * f) = (b - a) * f + k * 2 ^ 32 := by
  obtain ⟨k, hk⟩ : ∃ k : Int, s32 ((b - a) * f) = (b - a) * f + k * 2 ^ 32 := by
    obtain ⟨k, hk⟩ : ((2 ^ 32 : Nat) : Int) ∣ (b - a) * f - s32 ((b - a) * f) :=
      Int.dvd_self_sub_bmod
    exact ⟨-k, by omega⟩
  refine ⟨k, ?_, hk⟩
  rw [online_eq, lerp, hk, Int.shiftRight_eq_div_pow]
  omega

theorem lerp_exact_iff (a b f : Int) : lerp a b f = online a b f ↔ Fits ((b - a) * f) := by
  obtain ⟨k, hlerp, hs⟩ := lerp_eq a b f
  have hrange := s32_range ((b - a) * f)
  constructor
  · intro h
    have hk : k = 0 := by omega
    subst hk
    exact ⟨by omega, by omega⟩
  · intro h
    obtain ⟨hlow, hhigh⟩ := h
    have hk : k = 0 := by omega
    subst hk
    omega

/-- Right where the product fits in a word, and only there. -/
theorem interpolates_lerp_iff (a b : Int) {f : Int} (h0 : 0 ≤ f) (hf : f < 2 ^ 16) :
    Interpolates a b f (lerp a b f) ↔ Fits ((b - a) * f) := by
  rw [← lerp_exact_iff]
  constructor
  · intro h
    exact h.exact
  · intro h
    rw [h]
    exact interpolates_online a b h0 hf

end Ncmips.Words
