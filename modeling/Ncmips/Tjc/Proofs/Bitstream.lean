/-
The bit writer and the bit reader against bit lists.

`BitWriter.bits` is everything a writer holds, drained or not; `put`
appends to it and `flush` pads it to a byte. `BitReader.At` says that a
reader of `data` stands at bit `p`: its window holds the next `cnt` bits
of the zero-extended stream and nothing below them. `peek` is then a
`window` of that stream, and `skip` moves `p`.
-/
import Ncmips.Tjc.Huff

namespace Ncmips.Tjc

open Bits

-- ================================================================ writer

/-- What a writer holds, whole bytes and pending bits. -/
def BitWriter.bits (bw : BitWriter) : List Bool :=
  ofBytes bw.out ++ Bits.ofNat bw.n bw.acc.toNat

/-- A byte keeps the low eight bits. -/
theorem ofNat_byte (x : Nat) : Bits.ofNat 8 (UInt8.ofNat x).toNat = Bits.ofNat 8 x := by
  apply ofNat_congr
  intro i hi
  rw [UInt8.toNat_ofNat', Nat.testBit_mod_two_pow]
  simp [hi]

theorem BitWriter.drain_spec (bw : BitWriter) :
    bw.drain.bits = bw.bits ∧ bw.drain.n < 8 := by
  fun_induction BitWriter.drain bw with
  | case1 bw h ih =>
      refine ⟨ih.1.trans ?_, ih.2⟩
      obtain ⟨m, hm⟩ : ∃ m, bw.n = 8 + m := ⟨bw.n - 8, by omega⟩
      simp only [BitWriter.bits, hm, Nat.add_sub_cancel_left, ofBytes_append, ofBytes_cons,
        ofBytes_nil, List.append_nil, ofNat_byte, BitVec.toNat_ushiftRight,
        List.append_assoc]
      rw [ofNat_add]
  | case2 bw h => exact ⟨rfl, by omega⟩

theorem mask_testBit {len : Nat} (hlen : len < 32) (i : Nat) :
    (((1 : BitVec 32) <<< len) - 1).toNat.testBit i = decide (i < len) := by
  have hpow : (2 : Nat) ^ len < 2 ^ 32 := Nat.pow_lt_pow_right (by decide) hlen
  have hpos : 0 < (2 : Nat) ^ len := by positivity
  have hshl : ((1 : BitVec 32) <<< len).toNat = 2 ^ len := by
    rw [BitVec.toNat_shiftLeft, Nat.shiftLeft_eq, show (1 : BitVec 32).toNat = 1 from rfl,
      Nat.one_mul, Nat.mod_eq_of_lt hpow]
  have h : (((1 : BitVec 32) <<< len) - 1).toNat = 2 ^ len - 1 := by
    rw [BitVec.toNat_sub_of_le, hshl]
    · rfl
    · rw [BitVec.le_def, hshl, show (1 : BitVec 32).toNat = 1 from rfl]
      omega
  rw [h, Nat.testBit_two_pow_sub_one]

/-- `put` appends the low `len` bits. -/
theorem BitWriter.put_spec {bw : BitWriter} (hn : bw.n < 8) (bits : BitVec 32) {len : Nat}
    (hlen : len ≤ 24) :
    (bw.put bits len).bits = bw.bits ++ Bits.ofNat len bits.toNat ∧ (bw.put bits len).n < 8 := by
  unfold BitWriter.put
  split
  · next h => subst h; simp [Bits.ofNat, hn]
  · obtain ⟨hbits, hlt⟩ := BitWriter.drain_spec
      { bw with
        acc := (bw.acc <<< len) ||| (bits &&& (((1 : BitVec 32) <<< len) - 1))
        n := bw.n + len }
    refine ⟨hbits.trans ?_, hlt⟩
    simp only [BitWriter.bits, List.append_assoc]
    rw [ofNat_add]
    congr 2
    · apply ofNat_congr
      intro i hi
      rw [Nat.testBit_shiftRight, BitVec.toNat_or, BitVec.toNat_and, Nat.testBit_or,
        Nat.testBit_and, mask_testBit (by omega)]
      simp only [show ¬ len + i < len by omega, decide_false, Bool.and_false, Bool.or_false]
      simp only [BitVec.testBit_toNat, BitVec.getLsbD_shiftLeft, show len + i < 32 by omega,
        show ¬ len + i < len by omega, Nat.add_sub_cancel_left, decide_true, decide_false,
        Bool.not_false, Bool.true_and]
    · apply ofNat_congr
      intro i hi
      rw [BitVec.toNat_or, BitVec.toNat_and, Nat.testBit_or, Nat.testBit_and,
        mask_testBit (by omega)]
      rw [BitVec.testBit_toNat, BitVec.getLsbD_shiftLeft]
      simp [hi]

/-- `flush` pads with zeros to the next byte. -/
theorem BitWriter.flush_spec {bw : BitWriter} (hn : bw.n < 8) :
    ∃ pad, ofBytes bw.flush = bw.bits ++ pad ∧ pad.length < 8 := by
  unfold BitWriter.flush
  split
  · refine ⟨Bits.ofNat (8 - bw.n) (bw.acc <<< (8 - bw.n)).toNat, ?_, by simp; omega⟩
    simp only [ofBytes_append, ofBytes_cons, ofBytes_nil, List.append_nil, ofNat_byte,
      BitWriter.bits, List.append_assoc]
    rw [show Bits.ofNat 8 (bw.acc <<< (8 - bw.n)).toNat
        = Bits.ofNat (bw.n + (8 - bw.n)) (bw.acc <<< (8 - bw.n)).toNat by congr 1; omega,
      ofNat_add]
    congr 2
    apply ofNat_congr
    intro i hi
    rw [Nat.testBit_shiftRight, BitVec.testBit_toNat, BitVec.getLsbD_shiftLeft]
    simp [BitVec.testBit_toNat, show 8 - bw.n + i < 32 by omega]
  · next h =>
    have h0 : bw.n = 0 := by omega
    exact ⟨[], by simp [BitWriter.bits, h0, Bits.ofNat], by simp⟩

-- ================================================================ reader

/-- The reader of `data` stands at bit `p`. -/
structure BitReader.At (br : BitReader) (data : List UInt8) (p : Nat) : Prop where
  data_eq : br.data = data
  pos_eq : 8 * br.pos = p + br.cnt
  cnt_le : br.cnt ≤ 32
  buf_eq : ∀ i < 32, br.buf.getMsbD i = (decide (i < br.cnt) && bitAt data (p + i))

variable {br : BitReader} {data : List UInt8} {p : Nat}

theorem BitReader.at_zero (data : List UInt8) : ({ data } : BitReader).At data 0 where
  data_eq := rfl
  pos_eq := rfl
  cnt_le := Nat.zero_le 32
  buf_eq := by simp

/-- A byte past the end is a zero byte, so the guard of the source and
the default of `byteAt` agree. -/
theorem guarded_byte (data : List UInt8) (pos : Nat) :
    (if pos < data.length then ((byteAt data pos).toNat : BitVec 32) else 0)
      = ((byteAt data pos).toNat : BitVec 32) := by
  split
  · rfl
  · next h =>
    rw [show byteAt data pos = 0 by simp [byteAt, List.getElem?_eq_none (Nat.le_of_not_lt h)]]
    rfl

theorem BitReader.At.refillStep (h : br.At data p) : br.refillStep.At data p := by
  unfold BitReader.refillStep
  split
  · next hcnt =>
    obtain ⟨rfl, hpos, hle, hbuf⟩ := h
    refine ⟨rfl, by simp only; omega, by simp only; omega, fun i hi => ?_⟩
    simp only [guarded_byte, BitVec.getMsbD_or, hbuf i hi]
    -- the byte's bit that lands at place `i` of the window
    have hbyte : (BitVec.ofNat 32 (byteAt br.data br.pos).toNat <<< (24 - br.cnt)).getMsbD i
        = (decide (br.cnt ≤ i) && (decide (i < br.cnt + 8) && bitAt br.data (p + i))) := by
      have hlt := (byteAt br.data br.pos).toNat_lt
      rw [BitVec.getMsbD_shiftLeft, BitVec.getMsbD_eq_getLsbD, BitVec.getLsbD_ofNat]
      by_cases hc : br.cnt ≤ i
      · by_cases hc8 : i < br.cnt + 8
        · have hdiv : (p + i) / 8 = br.pos := by omega
          have hmod : (p + i) % 8 = i - br.cnt := by omega
          simp only [hc, hc8, decide_true, Bool.true_and, bitAt, hdiv, hmod,
            show i + (24 - br.cnt) < 32 by omega,
            show 32 - 1 - (i + (24 - br.cnt)) < 32 by omega]
          congr 1
          omega
        · simp only [hc, hc8, decide_true, decide_false, Bool.false_and, Bool.and_false,
            show ¬ i + (24 - br.cnt) < 32 by omega]
      · have hbig : (byteAt br.data br.pos).toNat.testBit (32 - 1 - (i + (24 - br.cnt))) = false := by
          apply Nat.testBit_lt_two_pow
          exact lt_of_lt_of_le hlt (Nat.pow_le_pow_right (by decide) (by omega : 8 ≤ _))
        simp [hc, hbig]
    have hcast : ((byteAt br.data br.pos).toNat : BitVec 32)
        = BitVec.ofNat 32 (byteAt br.data br.pos).toNat := rfl
    rw [hcast, hbyte]
    by_cases hc : i < br.cnt
    · simp [hc, show i < br.cnt + 8 by omega]
    · simp [hc, show br.cnt ≤ i by omega]
  · exact h

theorem BitReader.refillStep_cnt (br : BitReader) :
    br.refillStep.cnt = if br.cnt ≤ 24 then br.cnt + 8 else br.cnt := by
  unfold BitReader.refillStep
  split <;> rfl

theorem BitReader.At.refill (h : br.At data p) :
    br.refill.At data p ∧ 25 ≤ br.refill.cnt := by
  refine ⟨h.refillStep.refillStep.refillStep.refillStep, ?_⟩
  simp only [BitReader.refill, BitReader.refillStep_cnt]
  split_ifs <;> omega

theorem BitReader.At.peek (h : br.At data p) {n : Nat} (hn : n ≤ br.cnt) :
    br.peek n = window (bitAt data) p n := by
  have hle := h.cnt_le
  apply Nat.eq_of_testBit_eq
  intro i
  rw [testBit_window, BitReader.peek, BitVec.testBit_toNat, BitVec.getLsbD_ushiftRight]
  by_cases hi : i < n
  · have hmsb : br.buf.getLsbD (32 - n + i) = br.buf.getMsbD (n - 1 - i) := by
      rw [BitVec.getMsbD_eq_getLsbD]
      simp only [show n - 1 - i < 32 by omega, decide_true, Bool.true_and]
      congr 1
      omega
    rw [hmsb, h.buf_eq _ (by omega)]
    simp [hi, show n - 1 - i < br.cnt by omega]
  · simp only [hi, decide_false, Bool.false_and]
    exact BitVec.getLsbD_of_ge _ _ (by omega)

theorem BitReader.At.skip (h : br.At data p) {n : Nat} (hn : n ≤ br.cnt) :
    (br.skip n).At data (p + n) := by
  obtain ⟨hdata, hpos, hle, hbuf⟩ := h
  refine ⟨hdata, by simp only [BitReader.skip]; omega,
    by simp only [BitReader.skip]; omega, fun i hi => ?_⟩
  have hcnt : i < (br.skip n).cnt ↔ i + n < br.cnt := by
    simp only [BitReader.skip]
    omega
  rw [decide_eq_decide.2 hcnt, BitReader.skip, BitVec.getMsbD_shiftLeft]
  by_cases hin : i + n < 32
  · rw [hbuf _ hin, show p + n + i = p + (i + n) by omega]
  · rw [BitVec.getMsbD_of_ge _ _ (by omega)]
    simp [show ¬ i + n < br.cnt by omega]

theorem BitReader.At.get (h : br.At data p) {n : Nat} (hn : n ≤ 25) :
    (br.get n).1 = window (bitAt data) p n ∧ (br.get n).2.At data (p + n) := by
  unfold BitReader.get
  split
  · next h0 => subst h0; exact ⟨rfl, h⟩
  · obtain ⟨hat, hcnt⟩ := h.refill
    exact ⟨hat.peek (by omega), hat.skip (by omega)⟩

/-- At the end, `overrun` compares the place with the length. -/
theorem BitReader.At.overrun (h : br.At data p) :
    br.overrun = decide (8 * data.length < p) := by
  obtain ⟨rfl, hpos, hle, -⟩ := h
  simp only [BitReader.overrun, decide_eq_decide]
  omega

end Ncmips.Tjc
