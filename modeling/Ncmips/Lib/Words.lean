/-
C's integers of fixed width over `Nat` and `Int`: what is left of a number
in a word.
-/
import Mathlib.Tactic.Common
import Mathlib.Algebra.Group.Int.Defs
import Mathlib.Algebra.Group.Nat.Defs
import Mathlib.Data.Int.Basic

namespace Ncmips.Words

def u32 (n : Nat) : Nat := n % 2 ^ 32

def u64 (n : Nat) : Nat := n % 2 ^ 64

/-- A difference of unsigned words. -/
def sub32 (a b : Nat) : Nat := u32 (a + (2 ^ 32 - b))

def sub64 (a b : Nat) : Nat := u64 (a + (2 ^ 64 - b))

/-- A signed word. -/
def s32 (n : Int) : Int := Int.bmod n (2 ^ 32)

/-- A signed number as an unsigned word. -/
def ofInt32 (n : Int) : Nat := (n % 2 ^ 32).toNat

theorem u32_of_lt {n : Nat} (h : n < 2 ^ 32) : u32 n = n := Nat.mod_eq_of_lt h

theorem u32_lt (n : Nat) : u32 n < 2 ^ 32 := Nat.mod_lt _ (by decide)

theorem sub32_of_le {a b : Nat} (h : b ≤ a) (ha : a < 2 ^ 32) : sub32 a b = a - b := by
  unfold sub32 u32
  omega

theorem u64_of_lt {n : Nat} (h : n < 2 ^ 64) : u64 n = n := Nat.mod_eq_of_lt h

theorem u64_lt (n : Nat) : u64 n < 2 ^ 64 := Nat.mod_lt _ (by decide)

theorem s32_of_range {n : Int} (hlo : -2 ^ 31 ≤ n) (hhi : n < 2 ^ 31) : s32 n = n := by
  unfold s32
  rw [Int.bmod_eq_of_le_mul_two]
  · omega
  · omega

theorem s32_range (n : Int) : -2 ^ 31 ≤ s32 n ∧ s32 n < 2 ^ 31 := by
  unfold s32
  have hlo := @Int.le_bmod n (2 ^ 32) (by decide)
  have hhi := @Int.bmod_lt n (2 ^ 32) (by decide)
  constructor
  · omega
  · omega

/-- From half of the words on, a number is read as negative. -/
theorem s32_of_high {n : Int} (hlo : 2 ^ 31 ≤ n) (hhi : n < 2 ^ 32) : s32 n = n - 2 ^ 32 := by
  unfold s32
  rw [Int.bmod_def]
  split_ifs with hsmall
  · omega
  · omega

theorem ofInt32_of_range {n : Int} (hlo : 0 ≤ n) (hhi : n < 2 ^ 32) : ofInt32 n = n.toNat := by
  unfold ofInt32
  rw [Int.emod_eq_of_lt hlo hhi]

end Ncmips.Words
