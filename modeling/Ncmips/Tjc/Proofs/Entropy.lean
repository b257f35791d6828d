/-
One block through the entropy coder and back.

`blockBits` is the block as a bit list, with no writer in sight;
`encodeBlock` appends it (`encodeBlock_spec`) and `decodeBlock`, standing
on it, returns the coefficients, the predictor and the AC flag, and
stops right behind it (`decodeBlock_spec`). The sizes at the end are
what the 16-bit tile length rests on.

A run of zeros is carried across the recursion: the encoder counts it
first and writes it with the next value, the decoder still stands where
it began. So the statements about the AC loop have the run as a
parameter and the decoder at `k`, the encoder at `k + run`.
-/
import Ncmips.Tjc.Proofs.Huff

namespace Ncmips.Tjc

open Bits Canonical

-- ================================================================ tables

/-- What the four static tables have in common. -/
structure Canon (bits vals : List Nat) : Prop where
  nodup : vals.Nodup
  count : index (hist bits) 17 = vals.length
  fits : Canonical.Fits (hist bits) 16
  byte : ∀ v ∈ vals, v < 256

/-- The histogram and the symbols behind `dcTable`. -/
def dcSpec (t : Bool) : List Nat × List Nat :=
  if t then (kDcChromaBits, kDcChromaVals) else (kDcLumaBits, kDcLumaVals)

/-- The histogram and the symbols behind `acTable`. -/
def acSpec (t : Bool) : List Nat × List Nat :=
  if t then (kAcChromaBits, kAcChromaVals) else (kAcLumaBits, kAcLumaVals)

theorem dcTable_eq (t : Bool) : dcTable t = buildHuff (dcSpec t).1 (dcSpec t).2 := by
  cases t <;> rfl

theorem acTable_eq (t : Bool) : acTable t = buildHuff (acSpec t).1 (acSpec t).2 := by
  cases t <;> rfl

theorem canon_dc (t : Bool) : Canon (dcSpec t).1 (dcSpec t).2 := by
  cases t <;> exact ⟨by decide +kernel, by decide +kernel, by decide +kernel, by decide +kernel⟩

theorem canon_ac (t : Bool) : Canon (acSpec t).1 (acSpec t).2 := by
  cases t <;> exact ⟨by decide +kernel, by decide +kernel, by decide +kernel, by decide +kernel⟩

theorem spec_mem : (∀ t, ∀ s ≤ 11, s ∈ (dcSpec t).2)
    ∧ (∀ t, ∀ r ≤ 15, ∀ s ≤ 10, 1 ≤ s → r * 16 + s ∈ (acSpec t).2)
    ∧ ∀ t, 0xf0 ∈ (acSpec t).2 ∧ 0x00 ∈ (acSpec t).2 := by
  decide +kernel

/-- Every size of a DC difference has a code. -/
theorem mem_dc (t : Bool) {s : Nat} (hs : s ≤ 11) : s ∈ (dcSpec t).2 := spec_mem.1 t s hs

/-- Every run of at most 15 zeros before a value of at most 10 bits has
a code, and so have the long run and the end of block. -/
theorem mem_ac (t : Bool) {r s : Nat} (hr : r ≤ 15) (hs : 1 ≤ s) (hs' : s ≤ 10) :
    r * 16 + s ∈ (acSpec t).2 := spec_mem.2.1 t r hr s hs' hs

theorem mem_zrl (t : Bool) : 0xf0 ∈ (acSpec t).2 := (spec_mem.2.2 t).1

theorem mem_eob (t : Bool) : 0x00 ∈ (acSpec t).2 := (spec_mem.2.2 t).2

-- =============================================================== symbols

/-- The code of a symbol. -/
def symBits (e : HuffEnc) (sym : Nat) : List Bool := Bits.ofNat (e.size sym) (e.code sym)

/-- An index below the number of symbols is some length's. -/
theorem exists_index {n : Nat → Nat} {k : Nat} :
    ∀ {L}, k < index n (L + 1) → ∃ l j, l ≤ L ∧ j < n l ∧ k = index n l + j := by
  intro L
  induction L with
  | zero =>
      intro h
      exact ⟨0, k, le_rfl, by simpa [index] using h, by simp [index]⟩
  | succ L ih =>
      intro h
      rcases Nat.lt_or_ge k (index n (L + 1)) with hlt | hge
      · obtain ⟨l, j, hl, hj, hk⟩ := ih hlt
        exact ⟨l, j, by omega, hj, hk⟩
      · have hsplit : index n (L + 1 + 1) = index n (L + 1) + n (L + 1) := rfl
        exact ⟨L + 1, k - index n (L + 1), le_rfl, by omega, by omega⟩

variable {bits vals : List Nat}

/-- A symbol of the table: where its code lies. -/
theorem Canon.code (h : Canon bits vals) {sym : Nat} (hsym : sym ∈ vals) :
    ∃ l j, 1 ≤ l ∧ l ≤ 16 ∧ j < hist bits l
      ∧ vals.getD (index (hist bits) l + j) 0 = sym
      ∧ symBits (buildHuff bits vals).enc sym
          = Bits.ofNat l (first (hist bits) l + j) := by
  obtain ⟨k, hk, rfl⟩ := List.getElem_of_mem hsym
  obtain ⟨l, j, hl, hj, rfl⟩ := exists_index (L := 16) (h.count ▸ hk)
  have h1 : 1 ≤ l := by
    rcases Nat.eq_zero_or_pos l with rfl | hpos
    · simp [hist] at hj
    · exact hpos
  have hval : vals.getD (index (hist bits) l + j) 0 = vals[index (hist bits) l + j] :=
    List.getD_eq_getElem _ _ hk
  obtain ⟨hcode, hsize⟩ := builtEnc h.nodup h.count.le l j (Or.inl ⟨h1, hl, hj⟩)
  refine ⟨l, j, h1, hl, hj, hval, ?_⟩
  rw [← hval, symBits, hcode, hsize]
  have hfit := h.fits l hl
  have hpow : (2 : Nat) ^ l ≤ 2 ^ 16 := Nat.pow_le_pow_right (by decide) hl
  rw [Nat.mod_eq_of_lt (by omega)]

theorem Canon.symBits_length (h : Canon bits vals) {sym : Nat} (hsym : sym ∈ vals) :
    1 ≤ (symBits (buildHuff bits vals).enc sym).length
      ∧ (symBits (buildHuff bits vals).enc sym).length ≤ 16 := by
  obtain ⟨l, j, h1, hl, -, -, hbits⟩ := h.code hsym
  rw [hbits, ofNat_length]
  exact ⟨h1, hl⟩

/-- What `putSym` writes, `huffDecode` reads. -/
theorem Canon.decode (h : Canon bits vals) {sym : Nat} (hsym : sym ∈ vals)
    {br : BitReader} {data : List UInt8} {p : Nat} (hat : br.At data p)
    (hs : Starts (bitAt data) p (symBits (buildHuff bits vals).enc sym)) :
    ∃ br', huffDecode br (buildHuff bits vals).dec = (some sym, br')
      ∧ br'.At data (p + (symBits (buildHuff bits vals).enc sym).length) := by
  obtain ⟨l, j, h1, hl, hj, rfl, hbits⟩ := h.code hsym
  rw [hbits] at hs ⊢
  have hw := window_of_starts hs
  rw [Nat.mod_eq_of_lt (by have := h.fits l hl; omega)] at hw
  rw [ofNat_length]
  exact huffDecode_code hat h1 hl hj hw (h.byte _ hsym)

theorem BitWriter.putSym_spec {bw : BitWriter} (hn : bw.n < 8) (h : Canon bits vals)
    {sym : Nat} (hsym : sym ∈ vals) :
    (bw.putSym (buildHuff bits vals).enc sym).bits
        = bw.bits ++ symBits (buildHuff bits vals).enc sym
      ∧ (bw.putSym (buildHuff bits vals).enc sym).n < 8 := by
  have hlen := h.symBits_length hsym
  rw [symBits, ofNat_length] at hlen
  have hsize : (buildHuff bits vals).enc.size sym ≤ 24 := by omega
  obtain ⟨hbits, hlt⟩ := BitWriter.put_spec hn
    (BitVec.ofNat 32 ((buildHuff bits vals).enc.code sym)) hsize
  refine ⟨hbits.trans ?_, hlt⟩
  congr 1
  apply ofNat_congr
  intro i hi
  rw [BitVec.toNat_ofNat, Nat.testBit_mod_two_pow]
  simp [show i < 32 by omega]

-- ================================================================ values

theorem bitCount_lt (v : Nat) : v < 2 ^ bitCount v := by
  fun_induction bitCount v with
  | case1 => decide
  | case2 v h ih =>
      rw [Nat.pow_succ]
      omega

theorem bitCount_le (v : Nat) (h : v ≠ 0) : 2 ^ (bitCount v - 1) ≤ v := by
  fun_induction bitCount v with
  | case1 => exact absurd rfl h
  | case2 v h0 ih =>
      rw [Nat.add_sub_cancel]
      rcases Nat.lt_or_ge v 2 with h1 | h2
      · obtain rfl : v = 1 := by omega
        simp [bitCount]
      · have hhalf := ih (by omega)
        have hpos : bitCount (v / 2) ≠ 0 := by
          rw [bitCount, if_neg (by omega)]
          omega
        calc 2 ^ bitCount (v / 2) = 2 ^ (bitCount (v / 2) - 1) * 2 := by
              rw [← Nat.pow_succ]; congr 1; omega
          _ ≤ v / 2 * 2 := Nat.mul_le_mul_right 2 hhalf
          _ ≤ v := by omega

theorem bitCount_pos {v : Nat} (h : v ≠ 0) : 1 ≤ bitCount v := by
  rw [bitCount, if_neg h]
  omega

/-- A value below `2 ^ m` has at most `m` bits. -/
theorem bitCount_le_of_lt {v m : Nat} (h : v < 2 ^ m) : bitCount v ≤ m := by
  rcases Nat.eq_zero_or_pos v with rfl | hpos
  · simp [bitCount]
  · by_contra hgt
    have hle := bitCount_le v (by omega)
    have hpow : (2 : Nat) ^ m ≤ 2 ^ (bitCount v - 1) :=
      Nat.pow_le_pow_right (by decide) (by omega)
    omega

/-- The bits written for a value bring the value back. -/
theorem extendValue_valueBits {v : Int} (h0 : v ≠ 0) (hs : bitCount v.natAbs ≤ 16) :
    extendValue ((valueBits v).toNat % 2 ^ bitCount v.natAbs) (bitCount v.natAbs) = v := by
  have hlt := bitCount_lt v.natAbs
  have hle := bitCount_le v.natAbs (by omega)
  have hpos := bitCount_pos (v := v.natAbs) (by omega)
  generalize hsz : bitCount v.natAbs = s at *
  have hpow : (2 : Nat) ^ s = 2 ^ (s - 1) * 2 := by
    rw [← Nat.pow_succ]; congr 1; omega
  have hcap : (2 : Nat) ^ s ≤ 2 ^ 16 := Nat.pow_le_pow_right (by decide) hs
  have hdvd : (2 : Nat) ^ s ∣ 2 ^ 32 := Nat.pow_dvd_pow 2 (by omega)
  simp only [extendValue, Nat.one_shiftLeft, valueBits, BitVec.toNat_ofInt]
  rcases lt_or_gt_of_ne h0 with hneg | hposv
  · -- a negative value is written as its complement
    have hword : (((v - 1) % ((2 ^ 32 : Nat) : Int)).toNat) % 2 ^ s = 2 ^ s - 1 - v.natAbs := by
      have hw : ((v - 1) % ((2 ^ 32 : Nat) : Int)).toNat = 2 ^ 32 - 1 - v.natAbs := by
        have : (v - 1) % ((2 ^ 32 : Nat) : Int) = v - 1 + 2 ^ 32 := by
          rw [← Int.add_emod_right, Int.emod_eq_of_lt] <;> omega
        omega
      obtain ⟨q, hq⟩ := hdvd
      have hqpos : 1 ≤ q := by
        rcases Nat.eq_zero_or_pos q with rfl | h
        · omega
        · exact h
      obtain ⟨m, rfl⟩ : ∃ m, q = m + 1 := ⟨q - 1, by omega⟩
      rw [hw, hq, Nat.mul_succ,
        show 2 ^ s * m + 2 ^ s - 1 - v.natAbs = 2 ^ s - 1 - v.natAbs + 2 ^ s * m by omega,
        Nat.add_mul_mod_self_left, Nat.mod_eq_of_lt (by omega)]
    rw [if_pos hneg, hword, if_pos (by omega)]
    omega
  · have hword : ((v % ((2 ^ 32 : Nat) : Int)).toNat) % 2 ^ s = v.natAbs := by
      have : v % ((2 ^ 32 : Nat) : Int) = v := by rw [Int.emod_eq_of_lt] <;> omega
      rw [this, show v.toNat = v.natAbs by omega, Nat.mod_eq_of_lt hlt]
    rw [if_neg (show ¬ v < 0 by omega), hword, if_neg (by omega)]
    omega

/-- The value `v` on `bitCount` bits. -/
def magBits (v : Int) : List Bool := Bits.ofNat (bitCount v.natAbs) (valueBits v).toNat

@[simp] theorem magBits_length (v : Int) : (magBits v).length = bitCount v.natAbs :=
  ofNat_length ..

theorem BitReader.At.getMag {br : BitReader} {data : List UInt8} {p : Nat} (hat : br.At data p)
    {v : Int} (hs : bitCount v.natAbs ≤ 16) (hst : Starts (bitAt data) p (magBits v)) :
    (br.get (bitCount v.natAbs)).1 = (valueBits v).toNat % 2 ^ bitCount v.natAbs
      ∧ (br.get (bitCount v.natAbs)).2.At data (p + (magBits v).length) := by
  obtain ⟨hval, hat'⟩ := hat.get (n := bitCount v.natAbs) (by omega)
  rw [magBits_length]
  exact ⟨hval.trans (window_of_starts hst), hat'⟩

-- ============================================================= AC coding

/-- The zero-run codes of a run of any length. -/
def zrlBits (t : Bool) (m : Nat) : List Bool :=
  (List.replicate m (symBits (acTable t).enc 0xf0)).flatten

/-- The AC coefficients still to code, after `run` zeros. -/
def acBits (t : Bool) : List Int → Nat → List Bool
  | [], run => if run ≠ 0 then symBits (acTable t).enc 0x00 else []
  | v :: vs, run =>
      if v = 0 then acBits t vs (run + 1)
      else
        zrlBits t (run / 16)
          ++ (symBits (acTable t).enc (run % 16 * 16 + bitCount v.natAbs)
            ++ (magBits v ++ acBits t vs 0))

/-- A block, difference first. -/
def blockBits (t : Bool) (zz : Nat → Int) (pred : Int) : List Bool :=
  symBits (dcTable t).enc (bitCount (zz 0 - pred).natAbs)
    ++ (magBits (zz 0 - pred) ++ acBits t ((List.range' 1 63).map zz) 0)

theorem zrlBits_succ (t : Bool) (m : Nat) :
    zrlBits t (m + 1) = symBits (acTable t).enc 0xf0 ++ zrlBits t m := by
  simp [zrlBits, List.replicate_succ]

/-- A coefficient the encoder makes. -/
def InRange (v : Int) : Prop := -1023 ≤ v ∧ v ≤ 1023

theorem InRange.size {v : Int} (h : InRange v) : bitCount v.natAbs ≤ 10 :=
  bitCount_le_of_lt (by unfold InRange at h; omega)

theorem InRange.diffBits {v w : Int} (hv : InRange v) (hw : InRange w) :
    bitCount (v - w).natAbs ≤ 11 :=
  bitCount_le_of_lt (by unfold InRange at hv hw; omega)

variable {t : Bool}

theorem putSym_ac {bw : BitWriter} (hn : bw.n < 8) {sym : Nat} (h : sym ∈ (acSpec t).2) :
    (bw.putSym (acTable t).enc sym).bits = bw.bits ++ symBits (acTable t).enc sym
      ∧ (bw.putSym (acTable t).enc sym).n < 8 := by
  rw [acTable_eq]
  exact BitWriter.putSym_spec hn (canon_ac t) h

theorem BitWriter.putMag_spec {bw : BitWriter} (hn : bw.n < 8) {v : Int}
    (h : bitCount v.natAbs ≤ 16) :
    (bw.put (valueBits v) (bitCount v.natAbs)).bits = bw.bits ++ magBits v
      ∧ (bw.put (valueBits v) (bitCount v.natAbs)).n < 8 :=
  BitWriter.put_spec hn _ (by omega)

theorem encodeZrl_spec (run : Nat) {bw : BitWriter} (hn : bw.n < 8) :
    (encodeZrl (acTable t).enc run bw).1 = run % 16
      ∧ (encodeZrl (acTable t).enc run bw).2.bits = bw.bits ++ zrlBits t (run / 16)
      ∧ (encodeZrl (acTable t).enc run bw).2.n < 8 := by
  fun_induction encodeZrl (acTable t).enc run bw with
  | case1 run bw h ih =>
      obtain ⟨hbits, hn'⟩ := putSym_ac hn (mem_zrl t)
      obtain ⟨hrun, hrest, hn''⟩ := ih hn'
      refine ⟨by omega, ?_, hn''⟩
      rw [hrest, hbits, show run / 16 = (run - 16) / 16 + 1 by omega, zrlBits_succ,
        List.append_assoc]
  | case2 run bw h =>
      refine ⟨by omega, ?_, hn⟩
      rw [show run / 16 = 0 by omega]
      simp [zrlBits]

theorem encodeAc_spec (vs : List Int) (hvs : ∀ v ∈ vs, InRange v) (run : Nat)
    {bw : BitWriter} (hn : bw.n < 8) :
    (encodeAc (acTable t).enc vs run bw).bits = bw.bits ++ acBits t vs run
      ∧ (encodeAc (acTable t).enc vs run bw).n < 8 := by
  induction vs generalizing run bw with
  | nil =>
      simp only [encodeAc, acBits]
      split
      · exact putSym_ac hn (mem_eob t)
      · exact ⟨by simp, hn⟩
  | cons v vs ih =>
      have htail : ∀ w ∈ vs, InRange w := fun w hw => hvs w (List.mem_cons_of_mem _ hw)
      simp only [encodeAc, acBits]
      split
      · exact ih htail (run + 1) hn
      · next hv =>
        have hsize := (hvs v (List.mem_cons_self ..)).size
        obtain ⟨hrun, hzrl, hn₁⟩ := encodeZrl_spec (t := t) run hn
        rw [hrun]
        have hmem := mem_ac t (r := run % 16) (by omega) (bitCount_pos (by omega)) hsize
        obtain ⟨hsym, hn₂⟩ := putSym_ac hn₁ hmem
        obtain ⟨hmag, hn₃⟩ := BitWriter.putMag_spec hn₂ (v := v) (by omega)
        obtain ⟨hrest, hn₄⟩ := ih htail 0 hn₃
        refine ⟨?_, hn₄⟩
        rw [hrest, hmag, hsym, hzrl]
        simp only [List.append_assoc]

/-- `encodeBlock` appends the block's bits. -/
theorem encodeBlock_spec {zz : Nat → Int} (hzz : ∀ k < 64, InRange (zz k)) {pred : Int}
    (hpred : InRange pred) {bw : BitWriter} (hn : bw.n < 8) :
    (encodeBlock bw zz pred t).1.bits = bw.bits ++ blockBits t zz pred
      ∧ (encodeBlock bw zz pred t).1.n < 8 := by
  have hsize := (hzz 0 (by decide)).diffBits hpred
  obtain ⟨hsym, hn₁⟩ := BitWriter.putSym_spec hn (canon_dc t) (mem_dc t hsize)
  rw [← dcTable_eq] at hsym hn₁
  obtain ⟨hmag, hn₂⟩ := BitWriter.putMag_spec hn₁ (v := zz 0 - pred) (by omega)
  have hvs : ∀ v ∈ (List.range' 1 63).map zz, InRange v := by
    intro v hv
    obtain ⟨k, hk, rfl⟩ := List.mem_map.1 hv
    exact hzz k (by have := List.mem_range'_1.1 hk; omega)
  obtain ⟨hac, hn₃⟩ := encodeAc_spec (t := t) _ hvs 0 hn₂
  refine ⟨?_, hn₃⟩
  simp only [encodeBlock, blockBits]
  rw [hac, hmag, hsym]
  simp only [List.append_assoc]

-- ================================================================= sizes

theorem symBits_ac_length {sym : Nat} (h : sym ∈ (acSpec t).2) :
    (symBits (acTable t).enc sym).length ≤ 16 := by
  rw [acTable_eq]
  exact ((canon_ac t).symBits_length h).2

theorem zrlBits_length (m : Nat) : (zrlBits t m).length ≤ 16 * m := by
  induction m with
  | zero => simp [zrlBits]
  | succ m ih =>
      have := symBits_ac_length (mem_zrl t)
      rw [zrlBits_succ, List.length_append]
      omega

/-- 26 bits a coefficient: a zero in a run is cheaper than a value. -/
theorem acBits_length (vs : List Int) (hvs : ∀ v ∈ vs, InRange v) (run : Nat) :
    (acBits t vs run).length ≤ 26 * (run + vs.length) := by
  induction vs generalizing run with
  | nil =>
      have := symBits_ac_length (mem_eob t)
      simp only [acBits]
      split
      · simp only [List.length_nil]
        omega
      · simp
  | cons v vs ih =>
      have htail : ∀ w ∈ vs, InRange w := fun w hw => hvs w (List.mem_cons_of_mem _ hw)
      simp only [acBits, List.length_cons]
      split
      · have := ih htail (run + 1)
        omega
      · next hv =>
        have hsize := (hvs v (List.mem_cons_self ..)).size
        have hsym := symBits_ac_length
          (mem_ac t (r := run % 16) (by omega) (bitCount_pos (v := v.natAbs) (by omega)) hsize)
        have hzrl := zrlBits_length (t := t) (run / 16)
        have hrest := ih htail 0
        simp only [List.length_append, magBits_length]
        omega

/-- 27 bits for the DC difference. -/
theorem blockBits_length {zz : Nat → Int} (hzz : ∀ k < 64, InRange (zz k)) {pred : Int}
    (hpred : InRange pred) :
    1 ≤ (blockBits t zz pred).length ∧ (blockBits t zz pred).length ≤ 27 + 63 * 26 := by
  have hsize := (hzz 0 (by decide)).diffBits hpred
  have hsym := (canon_dc t).symBits_length (mem_dc t hsize)
  rw [← dcTable_eq] at hsym
  have hac := acBits_length (t := t) ((List.range' 1 63).map zz) (fun v hv => by
    obtain ⟨k, hk, rfl⟩ := List.mem_map.1 hv
    exact hzz k (by have := List.mem_range'_1.1 hk; omega)) 0
  rw [List.length_map, List.length_range'] at hac
  simp only [blockBits, List.length_append, magBits_length]
  omega

-- ============================================================== decoding

variable {br : BitReader} {data : List UInt8} {p : Nat} (dq : Nat → Nat)

theorem huffDecode_ac {sym : Nat} (h : sym ∈ (acSpec t).2) (hat : br.At data p)
    (hs : Starts (bitAt data) p (symBits (acTable t).enc sym)) :
    ∃ br', huffDecode br (acTable t).dec = (some sym, br')
      ∧ br'.At data (p + (symBits (acTable t).enc sym).length) := by
  rw [acTable_eq] at hs ⊢
  exact (canon_ac t).decode h hat hs

/-- The coefficients `vs` from zigzag position `k` on, dequantised into
their natural places. -/
def placeAc (dq : Nat → Nat) : Nat → List Int → Block Int32 → Block Int32
  | _, [], coef => coef
  | k, v :: vs, coef =>
      placeAc dq (k + 1) vs
        (if v = 0 then coef else Function.update coef (zigzag k) (clampCoef (v * dq k)))

/-- Zero-run codes move the decoder on and nothing else. -/
theorem decodeAc_zrl (m fuel k : Nat) (coef : Block Int32) (hasAc : Bool)
    (hk : k + 16 * m ≤ 64) (hat : br.At data p)
    (hs : Starts (bitAt data) p (zrlBits t m)) :
    ∃ br', decodeAc (acTable t).dec dq (fuel + m) k br coef hasAc
        = decodeAc (acTable t).dec dq fuel (k + 16 * m) br' coef hasAc
      ∧ br'.At data (p + (zrlBits t m).length) := by
  induction m generalizing k br p with
  | zero => exact ⟨br, by simp, by simpa [zrlBits] using hat⟩
  | succ m ih =>
      rw [zrlBits_succ, starts_append] at hs
      obtain ⟨br₁, hdec, hat₁⟩ := huffDecode_ac (mem_zrl t) hat hs.1
      obtain ⟨br₂, hrest, hat₂⟩ := ih (k + 16) (by omega) hat₁ hs.2
      refine ⟨br₂, ?_, ?_⟩
      · rw [← Nat.add_assoc, decodeAc, if_neg (by omega), hdec]
        simp only [show (0xf0 : Nat) % 16 = 0 by decide, show (0xf0 : Nat) / 16 = 15 by decide,
          ne_eq, not_true_eq_false, if_true, if_false]
        rw [hrest]
        congr 1
        omega
      · rw [zrlBits_succ, List.length_append, ← Nat.add_assoc]
        exact hat₂

theorem decodeAc_spec (vs : List Int) (hvs : ∀ v ∈ vs, InRange v) (run k fuel : Nat)
    (coef : Block Int32) (hasAc : Bool) (hk : k + run + vs.length = 64)
    (hfuel : 64 - k ≤ fuel) (hat : br.At data p)
    (hs : Starts (bitAt data) p (acBits t vs run)) :
    ∃ br', decodeAc (acTable t).dec dq fuel k br coef hasAc
        = (some (hasAc || vs.any (· ≠ 0)), br', placeAc dq (k + run) vs coef)
      ∧ br'.At data (p + (acBits t vs run).length) := by
  induction vs generalizing run k fuel coef hasAc br p with
  | nil =>
      simp only [acBits] at hs ⊢
      simp only [List.length_nil, Nat.add_zero] at hk
      split at hs
      · next hrun =>
        obtain ⟨br', hdec, hat'⟩ := huffDecode_ac (mem_eob t) hat hs
        obtain ⟨f, rfl⟩ : ∃ f, fuel = f + 1 := ⟨fuel - 1, by omega⟩
        refine ⟨br', ?_, by rw [if_pos hrun]; exact hat'⟩
        rw [decodeAc, if_neg (by omega), hdec]
        simp [placeAc]
      · next hrun =>
        refine ⟨br, ?_, by rw [if_neg hrun]; exact hat⟩
        have hk' : 64 ≤ k := by omega
        cases fuel with
        | zero => simp [decodeAc, placeAc]
        | succ f => simp [decodeAc, placeAc, hk']
  | cons v vs ih =>
      have htail : ∀ w ∈ vs, InRange w := fun w hw => hvs w (List.mem_cons_of_mem _ hw)
      simp only [List.length_cons] at hk
      by_cases hv : v = 0
      · subst hv
        simp only [acBits, if_true] at hs ⊢
        obtain ⟨br', hdec, hat'⟩ := ih htail (run + 1) k fuel coef hasAc (by omega)
          hfuel hat hs
        refine ⟨br', ?_, hat'⟩
        rw [hdec, ← Nat.add_assoc]
        simp [placeAc]
      · simp only [acBits, if_neg hv, starts_append] at hs ⊢
        obtain ⟨hzrl, hsym, hmag, hrest⟩ := hs
        have hsize := (hvs v (List.mem_cons_self ..)).size
        have hpos := bitCount_pos (v := v.natAbs) (by omega)
        have hdiv : run % 16 + 16 * (run / 16) = run := by omega
        obtain ⟨f, rfl⟩ : ∃ f, fuel = f + 1 + run / 16 := ⟨fuel - 1 - run / 16, by omega⟩
        obtain ⟨br₁, hdec₁, hat₁⟩ := decodeAc_zrl dq (run / 16) (f + 1) k coef hasAc
          (by omega) hat hzrl
        obtain ⟨br₂, hdec₂, hat₂⟩ :=
          huffDecode_ac (mem_ac t (r := run % 16) (by omega) hpos hsize) hat₁ hsym
        obtain ⟨hget, hat₃⟩ := hat₂.getMag (v := v) (by omega) hmag
        obtain ⟨br₄, hdec₄, hat₄⟩ := ih htail 0 (k + run + 1) f
          (Function.update coef (zigzag (k + run)) (clampCoef (v * dq (k + run))))
          true (by omega) (by omega) hat₃ hrest
        refine ⟨br₄, ?_, ?_⟩
        · rw [hdec₁, decodeAc, if_neg (by omega), hdec₂]
          have hr : (run % 16 * 16 + bitCount v.natAbs) / 16 = run % 16 := by omega
          have hs' : (run % 16 * 16 + bitCount v.natAbs) % 16 = bitCount v.natAbs := by omega
          simp only [hr, hs', if_neg (show ¬ bitCount v.natAbs = 0 by omega),
            show k + 16 * (run / 16) + run % 16 = k + run by omega,
            if_neg (show ¬ 63 < k + run by omega), hget,
            extendValue_valueBits hv (show bitCount v.natAbs ≤ 16 by omega)]
          rw [hdec₄]
          simp [placeAc, hv]
        · simp only [List.length_append, ← Nat.add_assoc] at hat₄ ⊢
          exact hat₄

/-- A block decodes to what was coded, and the reader stops behind
it. -/
theorem decodeBlock_spec {zz : Nat → Int} (hzz : ∀ k < 64, InRange (zz k)) {pred : Int}
    (hpred : InRange pred) (hat : br.At data p)
    (hs : Starts (bitAt data) p (blockBits t zz pred)) :
    ∃ br', decodeBlock br t dq pred =
        { r := some (((List.range' 1 63).map zz).any (· ≠ 0))
          br := br'
          pred := zz 0
          coef := placeAc dq 1 ((List.range' 1 63).map zz)
            (Function.update (fun _ => 0) 0 (clampCoef (zz 0 * dq 0))) }
      ∧ br'.At data (p + (blockBits t zz pred).length) := by
  simp only [blockBits, starts_append] at hs
  obtain ⟨hsym, hmag, hac⟩ := hs
  have h0 := hzz 0 (by decide)
  have hsize := h0.diffBits hpred
  have hdc : ∃ br₁, huffDecode br (dcTable t).dec
        = (some (bitCount (zz 0 - pred).natAbs), br₁)
      ∧ br₁.At data (p + (symBits (dcTable t).enc (bitCount (zz 0 - pred).natAbs)).length) := by
    rw [dcTable_eq] at hsym ⊢
    exact (canon_dc t).decode (mem_dc t hsize) hat hsym
  obtain ⟨br₁, hdec₁, hat₁⟩ := hdc
  obtain ⟨hget, hat₂⟩ := hat₁.getMag (v := zz 0 - pred) (by omega) hmag
  have hvs : ∀ v ∈ (List.range' 1 63).map zz, InRange v := by
    intro v hv
    obtain ⟨k, hk, rfl⟩ := List.mem_map.1 hv
    exact hzz k (by have := List.mem_range'_1.1 hk; omega)
  obtain ⟨br₃, hdec₃, hat₃⟩ := decodeAc_spec (t := t) dq _ hvs 0 1 63
    (Function.update (fun _ => 0) 0 (clampCoef (zz 0 * dq 0))) false (by simp) (by omega)
    hat₂ hac
  -- the difference, whether or not any bits were read for it
  have hdiff : pred + (if bitCount (zz 0 - pred).natAbs ≠ 0 then
      extendValue ((valueBits (zz 0 - pred)).toNat % 2 ^ bitCount (zz 0 - pred).natAbs)
        (bitCount (zz 0 - pred).natAbs) else 0) = zz 0 := by
    by_cases hz : zz 0 - pred = 0
    · rw [if_neg (by simp [hz, bitCount])]
      omega
    · rw [if_pos (by have := bitCount_pos (v := (zz 0 - pred).natAbs) (by omega); omega),
        extendValue_valueBits hz (by omega)]
      omega
  refine ⟨br₃, ?_, ?_⟩
  · unfold decodeBlock
    simp only [hdec₁, if_neg (show ¬ 11 < bitCount (zz 0 - pred).natAbs by omega), hget, hdiff,
      if_neg (show ¬ (zz 0 < -2047 ∨ 2047 < zz 0) by unfold InRange at h0; omega), hdec₃,
      Bool.false_or]
  · simp only [blockBits, List.length_append, ← Nat.add_assoc] at hat₃ ⊢
    exact hat₃

end Ncmips.Tjc
