/-
MSB-first bit strings, and the two word-at-a-time machines that carry
them: a 32-bit accumulator that a writer drains byte by byte, and a
32-bit window that a reader refills byte by byte.

Bit streams are total functions `Nat → Bool`: a reader that is past its
input sees zeros, so nothing here needs an end. What a coder wrote is a
list of bits, and `Starts s p bs` says that the stream holds that list
at position `p`; codes are compared through `window`, the number the
next `n` bits spell.
-/
import Mathlib

namespace Ncmips.Bits

-- ============================================================ bit lists

/-- The `n` low bits of `v`, most significant first. -/
def ofNat : Nat → Nat → List Bool
  | 0, _ => []
  | n + 1, v => v.testBit n :: ofNat n v

@[simp] theorem ofNat_length (n v : Nat) : (ofNat n v).length = n := by
  induction n with
  | zero => rfl
  | succ n ih => simp [ofNat, ih]

theorem ofNat_getElem (n v i : Nat) (h : i < (ofNat n v).length) :
    (ofNat n v)[i] = v.testBit (n - 1 - i) := by
  induction n generalizing i with
  | zero => simp at h
  | succ n ih =>
      cases i with
      | zero => simp [ofNat]
      | succ i =>
          have hi : i < (ofNat n v).length := by simpa [ofNat] using h
          rw [show (ofNat (n + 1) v)[i + 1] = (ofNat n v)[i] from rfl, ih i hi]
          congr 1
          omega

/-- Only the low bits count. -/
theorem ofNat_congr {n v w : Nat} (h : ∀ i < n, v.testBit i = w.testBit i) :
    ofNat n v = ofNat n w := by
  induction n with
  | zero => rfl
  | succ n ih =>
      simp only [ofNat]
      rw [h n (Nat.lt_succ_self n), ih fun i hi => h i (Nat.lt_succ_of_lt hi)]

/-- A bit list splits at any place: the high part is the shifted
number. -/
theorem ofNat_add (m n v : Nat) :
    ofNat (m + n) v = ofNat m (v >>> n) ++ ofNat n v := by
  induction m with
  | zero => simp [ofNat]
  | succ m ih =>
      rw [Nat.succ_add]
      simp only [ofNat, List.cons_append, ih, Nat.testBit_shiftRight]
      rw [Nat.add_comm n m]

-- =============================================================== streams

/-- The stream `s` holds the bits `bs` at position `p`. -/
def Starts (s : Nat → Bool) (p : Nat) (bs : List Bool) : Prop :=
  ∀ i (h : i < bs.length), s (p + i) = bs[i]

instance (s : Nat → Bool) (p : Nat) (bs : List Bool) : Decidable (Starts s p bs) :=
  inferInstanceAs (Decidable (∀ i (h : i < bs.length), s (p + i) = bs[i]))

theorem starts_append {s : Nat → Bool} {p : Nat} {as bs : List Bool} :
    Starts s p (as ++ bs) ↔ Starts s p as ∧ Starts s (p + as.length) bs := by
  constructor
  · intro h
    refine ⟨fun i hi => ?_, fun i hi => ?_⟩
    · rw [h i (by simp; omega), List.getElem_append_left hi]
    · rw [Nat.add_assoc, h (as.length + i) (by simp; omega),
        List.getElem_append_right (by omega)]
      simp
  · rintro ⟨ha, hb⟩ i hi
    rcases Nat.lt_or_ge i as.length with hlt | hge
    · rw [List.getElem_append_left hlt, ha i hlt]
    · have hi' : i - as.length < bs.length := by simp at hi; omega
      rw [List.getElem_append_right hge, ← hb _ hi']
      congr 1
      omega

/-- The number that the `n` bits from position `p` on spell. -/
def window (s : Nat → Bool) (p : Nat) : Nat → Nat
  | 0 => 0
  | n + 1 => 2 * window s p n + (s (p + n)).toNat

theorem window_lt (s : Nat → Bool) (p n : Nat) : window s p n < 2 ^ n := by
  induction n with
  | zero => simp [window]
  | succ n ih =>
      have := Bool.toNat_lt (s (p + n))
      simp only [window, Nat.pow_succ]
      omega

theorem testBit_window (s : Nat → Bool) (p n i : Nat) :
    (window s p n).testBit i = (decide (i < n) && s (p + (n - 1 - i))) := by
  induction n generalizing i with
  | zero => simp [window]
  | succ n ih =>
      cases i with
      | zero =>
          simp only [window, Nat.testBit_zero]
          cases h : s (p + n) <;> simp [h]
      | succ i =>
          have hdiv : (2 * window s p n + (s (p + n)).toNat) / 2 = window s p n := by
            have := Bool.toNat_lt (s (p + n))
            omega
          rw [window, Nat.testBit_succ, hdiv, ih]
          rw [show n + 1 - 1 - (i + 1) = n - 1 - i by omega]
          simp

/-- A window is its own shorter window and the bits after it. -/
theorem window_div (s : Nat → Bool) (p m n : Nat) :
    window s p (m + n) / 2 ^ n = window s p m := by
  induction n with
  | zero => simp
  | succ n ih =>
      have hdiv : window s p (m + n + 1) / 2 = window s p (m + n) := by
        have := Bool.toNat_lt (s (p + (m + n)))
        simp only [window]
        omega
      rw [← Nat.add_assoc, Nat.pow_succ, Nat.mul_comm, ← Nat.div_div_eq_div_mul,
        hdiv, ih]

/-- Bits written from a number read back as that number. -/
theorem window_of_starts {s : Nat → Bool} {p n v : Nat}
    (h : Starts s p (ofNat n v)) : window s p n = v % 2 ^ n := by
  apply Nat.eq_of_testBit_eq
  intro i
  rw [testBit_window, Nat.testBit_mod_two_pow]
  by_cases hi : i < n
  · have hlt : n - 1 - i < (ofNat n v).length := by simp; omega
    rw [h _ hlt, ofNat_getElem]
    simp only [hi, decide_true, Bool.true_and]
    congr 1
    omega
  · simp [hi]

/-- And a number read is there to be read. -/
theorem starts_of_window {s : Nat → Bool} {p n v : Nat} (h : window s p n = v % 2 ^ n) :
    Starts s p (ofNat n v) := by
  intro i hi
  have hin : i < n := by rwa [ofNat_length] at hi
  have hbit := congrArg (·.testBit (n - 1 - i)) h
  simp only [testBit_window, Nat.testBit_mod_two_pow, show n - 1 - i < n by omega, decide_true,
    Bool.true_and] at hbit
  rw [ofNat_getElem, ← hbit, show n - 1 - (n - 1 - i) = i by omega]

-- ================================================================= bytes

/-- The bits of a byte string, first byte first. -/
def ofBytes (data : List UInt8) : List Bool :=
  data.flatMap fun b => ofNat 8 b.toNat

@[simp] theorem ofBytes_nil : ofBytes [] = [] := rfl

@[simp] theorem ofBytes_append (a b : List UInt8) :
    ofBytes (a ++ b) = ofBytes a ++ ofBytes b := by
  simp [ofBytes]

theorem ofBytes_cons (b : UInt8) (data : List UInt8) :
    ofBytes (b :: data) = ofNat 8 b.toNat ++ ofBytes data := rfl

@[simp] theorem ofBytes_length (data : List UInt8) :
    (ofBytes data).length = 8 * data.length := by
  induction data with
  | nil => rfl
  | cons b data ih =>
      simp only [ofBytes_cons, List.length_append, ofNat_length, ih,
        List.length_cons]
      omega

/-- Byte `i` of an input that goes on with zeros past its end. -/
def byteAt (data : List UInt8) (i : Nat) : UInt8 := data.getD i 0

theorem byteAt_append_left {a : List UInt8} (p : List UInt8) {i : Nat}
    (h : i < a.length) : byteAt (a ++ p) i = byteAt a i := by
  simp [byteAt, List.getElem?_append_left h]

theorem byteAt_append_right (a p : List UInt8) (i : Nat) :
    byteAt (a ++ p) (a.length + i) = byteAt p i := by
  simp [byteAt, List.getElem?_append_right]

/-- Bit `i` of an input that goes on with zeros past its end. -/
def bitAt (data : List UInt8) (i : Nat) : Bool :=
  (byteAt data (i / 8)).toNat.testBit (7 - i % 8)

/-- The stream of a byte string starts with its bits. -/
theorem starts_ofBytes (data rest : List UInt8) :
    Starts (bitAt (data ++ rest)) 0 (ofBytes data) := by
  intro i hi
  induction data generalizing i with
  | nil => simp at hi
  | cons b data ih =>
      simp only [Nat.zero_add] at ih ⊢
      simp only [ofBytes_cons]
      rcases Nat.lt_or_ge i 8 with hlt | hge
      · rw [List.getElem_append_left (by simpa using hlt), ofNat_getElem]
        simp only [bitAt, byteAt, Nat.div_eq_of_lt hlt, Nat.mod_eq_of_lt hlt,
          List.cons_append, List.getD_cons_zero]
      · have hi' : i - 8 < (ofBytes data).length := by
          simp only [ofBytes_length, List.length_cons] at hi ⊢
          omega
        have hstep : bitAt (b :: data ++ rest) i = bitAt (data ++ rest) (i - 8) := by
          obtain ⟨j, rfl⟩ : ∃ j, i = j + 8 := ⟨i - 8, by omega⟩
          have hd : (j + 8) / 8 = j / 8 + 1 := by omega
          have hm : (j + 8) % 8 = j % 8 := by omega
          simp only [bitAt, byteAt, hd, hm, Nat.add_sub_cancel, List.cons_append,
            List.getD_cons_succ]
        rw [hstep, ih (i - 8) hi', List.getElem_append_right (by simpa using hge)]
        simp

end Ncmips.Bits
