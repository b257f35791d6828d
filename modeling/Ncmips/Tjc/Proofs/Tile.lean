/-
One tile through encoder and decoder.

The encoder's shadow decode and the decoder do the same thing to a
plane, block by block: the coefficients that come out of the payload
are the ones that went in (Proofs/Entropy.lean), they are dequantised
by the same table entries, and both write the same block at the same
place. `Carries` is that statement for a stretch of bits, whatever was
written before it and whatever follows; it composes over blocks and
components (`encodeBlocks_carries`, `encodeComps_carries`).

The sizes go along: a payload is never empty, and never more than
`worstCaseTileBytes` (`encodeTile_length`).
-/
import Ncmips.Tjc.Proofs.Entropy
import Ncmips.Tjc.Decoder
import Ncmips.Tjc.Encoder

namespace Ncmips.Tjc

open Bits

-- ======================================================== dequantisation

theorem zigzag_injective {i j : Nat} (hi : i < 64) (hj : j < 64) (h : zigzag i = zigzag j) :
    i = j := by
  have hall : ∀ i < 64, ∀ j < 64, zigzag i = zigzag j → i = j := by decide +kernel
  exact hall i hi j hj h

@[simp] theorem clampCoef_zero : clampCoef 0 = 0 := by decide

/-- Leaving out the zeros makes no difference: their places are zero
already. -/
theorem placeAc_eq (dq : Nat → Nat) (zz : Nat → Int) (m : Nat) {k : Nat} (hk : k + m ≤ 64)
    {coef : Block Int32} (hzero : ∀ j, k ≤ j → j < 64 → coef (zigzag j) = 0) :
    placeAc dq k ((List.range' k m).map zz) coef =
      (List.range' k m).foldl
        (fun deq k => Function.update deq (zigzag k) (clampCoef (zz k * dq k))) coef := by
  induction m generalizing k coef with
  | zero => rfl
  | succ m ih =>
      rw [List.range'_succ, List.map_cons, placeAc, List.foldl_cons]
      have hstep : (if zz k = 0 then coef
            else Function.update coef (zigzag k) (clampCoef (zz k * dq k)))
          = Function.update coef (zigzag k) (clampCoef (zz k * dq k)) := by
        split
        · next h0 =>
          rw [h0, Int.zero_mul, clampCoef_zero, ← hzero k le_rfl (by omega),
            Function.update_eq_self]
        · rfl
      rw [hstep]
      refine ih (by omega) fun j hj hj64 => ?_
      rw [Function.update_of_ne]
      · exact hzero j (by omega) hj64
      · intro heq
        have := zigzag_injective hj64 (by omega) heq
        omega

/-- What the decoder makes of a block's coefficients is the encoder's
dequantised block. -/
theorem placeAc_eq_dequantise (q : Nat → Nat) (zz : Nat → Int) :
    placeAc (fun k => q (zigzag k)) 1 ((List.range' 1 63).map zz)
        (Function.update (fun _ => 0) 0 (clampCoef (zz 0 * q (zigzag 0))))
      = dequantise q zz := by
  rw [placeAc_eq]
  · rfl
  · decide
  · intro j h1 h64
    rw [Function.update_of_ne]
    intro heq
    have := zigzag_injective h64 (by decide : 0 < 64) (heq.trans (by decide : 0 = zigzag 0))
    omega

theorem quantise_inRange (q : Nat → Nat) (dct : Block Int32) (k : Nat) :
    InRange (quantise q dct k) := by
  simp only [InRange, quantise]
  omega

-- =============================================================== carries

/-- Between two writer states lie the bits `bits`; a decoder step
`dec`, standing at them, gets from plane `a` to plane `a'` and stands
behind them. -/
structure Carries {P : Type} (bw bw' : BitWriter) (bits : List Bool)
    (dec : BitReader → Option BitReader × P) (out : P) : Prop where
  n_lt : bw'.n < 8
  wrote : bw'.bits = bw.bits ++ bits
  reads : ∀ (br : BitReader) (data : List UInt8) (p : Nat), br.At data p →
    Starts (bitAt data) p bits →
      ∃ br', dec br = (some br', out) ∧ br'.At data (p + bits.length)

/-- Bits that `m` blocks take. -/
def Sized (m : Nat) (bits : List Bool) : Prop :=
  m ≤ bits.length ∧ bits.length ≤ m * (27 + 63 * 26)

theorem Sized.append {m n : Nat} {as bs : List Bool} (ha : Sized m as) (hb : Sized n bs) :
    Sized (m + n) (as ++ bs) := by
  unfold Sized at *
  simp only [List.length_append]
  omega

variable {q : Nat → Nat} {dq : Nat → Nat}

/-- The blocks of one component. -/
theorem encodeBlocks_carries (hdq : dq = fun k => q (zigzag k)) (table : Bool) (r : Rect)
    (stride : Nat) (cur : Array UInt8) (blocks : List (Nat × Nat)) {bw : BitWriter}
    (hn : bw.n < 8) {pred : Int} (hpred : InRange pred) (plane : Array UInt8) :
    ∃ bits, Sized blocks.length bits ∧
      Carries bw (encodeBlocks q table r stride cur blocks bw pred plane).1 bits
        (fun br => decodeBlocks dq table r stride blocks br pred plane)
        (encodeBlocks q table r stride cur blocks bw pred plane).2 := by
  induction blocks generalizing bw pred plane with
  | nil =>
      exact ⟨[], ⟨by simp, by simp⟩, hn, by simp [encodeBlocks],
        fun br data p hat _ => ⟨br, rfl, hat⟩⟩
  | cons b blocks ih =>
      obtain ⟨y, x⟩ := b
      set off := (r.y + y) * stride + r.x + x with hoff
      set zz := quantise q (fdct8x8 (loadBlock cur off stride (min 8 (r.w - x)) (min 8 (r.h - y))))
        with hzz
      have hrange : ∀ k < 64, InRange (zz k) := fun k _ => quantise_inRange ..
      obtain ⟨hwrote, hn'⟩ := encodeBlock_spec (t := table) hrange hpred hn
      have hlen := blockBits_length (t := table) hrange hpred
      obtain ⟨bits, hsized, hcarries⟩ := ih hn' (hrange 0 (by decide))
        (storeBlock (shadowBlock q zz) plane off stride (min 8 (r.w - x)) (min 8 (r.h - y)))
      refine ⟨blockBits table zz pred ++ bits, ?_, ?_⟩
      · rw [List.length_cons, Nat.add_comm]
        refine Sized.append ⟨hlen.1, ?_⟩ hsized
        rw [Nat.one_mul]
        exact hlen.2
      · refine ⟨hcarries.n_lt, ?_, fun br data p hat hs => ?_⟩
        · rw [← List.append_assoc, ← hwrote]
          exact hcarries.wrote
        · rw [starts_append] at hs
          obtain ⟨br₁, hdec, hat₁⟩ := decodeBlock_spec dq hrange hpred hat hs.1
          obtain ⟨br₂, hrest, hat₂⟩ := hcarries.reads br₁ data _ hat₁ hs.2
          refine ⟨br₂, ?_, by rw [List.length_append, ← Nat.add_assoc]; exact hat₂⟩
          subst hdq
          simp only [decodeBlocks, hdec, placeAc_eq_dequantise, List.any_map]
          exact hrest

variable {l : Layout} {qs : Bool → Nat → Nat} {dqs : Bool → Nat → Nat} {cur : Planes}

/-- Blocks of the components in the list. -/
def blockCount (l : Layout) (tile : Nat) (cs : List (Fin 3)) : Nat :=
  (cs.map fun c => (blockOrigins (tileRect l tile c).w (tileRect l tile c).h).length).sum

/-- The components of a tile, one after the other. -/
theorem encodeComps_carries (hdq : dqs = fun t k => qs t (zigzag k)) (tile : Nat)
    (cs : List (Fin 3)) {bw : BitWriter} (hn : bw.n < 8) {fb : Planes}
    (hstride : fb.stride = cur.stride) :
    ∃ bits, Sized (blockCount l tile cs) bits ∧
      Carries bw (encodeComps l qs cur tile cs bw fb).1 bits
        (fun br => decodeComps l dqs tile cs br fb) (encodeComps l qs cur tile cs bw fb).2 := by
  induction cs generalizing bw fb with
  | nil =>
      exact ⟨[], ⟨by simp [blockCount], by simp⟩, hn, by simp [encodeComps],
        fun br data p hat _ => ⟨br, rfl, hat⟩⟩
  | cons c cs ih =>
      set r := tileRect l tile c with hr
      obtain ⟨bits, hsized, hblocks⟩ := encodeBlocks_carries (q := qs (compTable c))
        (show dqs (compTable c) = fun k => qs (compTable c) (zigzag k) by rw [hdq])
        (compTable c) r (cur.stride c) (cur.p c)
        (blockOrigins r.w r.h) hn (show InRange 0 from ⟨by omega, by omega⟩) (fb.p c)
      obtain ⟨rest, hsized', hcomps⟩ := ih hblocks.n_lt
        (show (fb.setPlane c (encodeBlocks (qs (compTable c)) (compTable c) r (cur.stride c)
          (cur.p c) (blockOrigins r.w r.h) bw 0 (fb.p c)).2).stride = cur.stride from hstride)
      refine ⟨bits ++ rest, ?_, hcomps.n_lt, ?_, fun br data p hat hs => ?_⟩
      · rw [blockCount, List.map_cons, List.sum_cons]
        exact hsized.append hsized'
      · rw [← List.append_assoc, ← hblocks.wrote]
        exact hcomps.wrote
      · rw [starts_append] at hs
        obtain ⟨br₁, hdec, hat₁⟩ := hblocks.reads br data p hat hs.1
        obtain ⟨br₂, hrest, hat₂⟩ := hcomps.reads br₁ data _ hat₁ hs.2
        refine ⟨br₂, ?_, by rw [List.length_append, ← Nat.add_assoc]; exact hat₂⟩
        simp only [decodeComps, hstride, ← hr, hdec]
        exact hrest

-- ================================================================= sizes

@[simp] theorem blockOrigins_length (w h : Nat) :
    (blockOrigins w h).length = (h + 7) / 8 * ((w + 7) / 8) := by
  simp [blockOrigins, List.length_flatMap]

/-- A tile of a usable size has a luma block and never more chroma
blocks than the worst case counts. -/
theorem blockCount_bounds (tile : Nat) (hw : 1 ≤ l.tileW) (hh : 1 ≤ l.tileH) :
    1 ≤ blockCount l tile [0, 1, 2]
      ∧ (blockCount l tile [0, 1, 2] * (27 + 63 * 26) + 7) / 8
        ≤ worstCaseTileBytes l.tileW l.tileH := by
  set x0 := tile % l.cols * l.tileW
  set y0 := tile / l.cols * l.tileH
  have hchroma : ((y0 + l.tileH + 1) / 2 - (y0 + 1) / 2 + 7) / 8
        * (((x0 + l.tileW + 1) / 2 - (x0 + 1) / 2 + 7) / 8)
      ≤ ((l.tileW + 1) / 2 + 7) / 8 * (((l.tileH + 1) / 2 + 7) / 8) := by
    rw [Nat.mul_comm (((l.tileW + 1) / 2 + 7) / 8)]
    exact Nat.mul_le_mul (by omega) (by omega)
  have hluma : 1 ≤ (l.tileH + 7) / 8 * ((l.tileW + 7) / 8) :=
    Nat.mul_pos (by omega) (by omega)
  have hcount : blockCount l tile [0, 1, 2]
      = (l.tileH + 7) / 8 * ((l.tileW + 7) / 8)
        + 2 * (((y0 + l.tileH + 1) / 2 - (y0 + 1) / 2 + 7) / 8
          * (((x0 + l.tileW + 1) / 2 - (x0 + 1) / 2 + 7) / 8)) := by
    simp only [blockCount, blockOrigins_length, tileRect, List.map_cons, List.map_nil,
      List.sum_cons, List.sum_nil, x0, y0]
    simp only [if_true, show ¬ (1 : Fin 3) = 0 by decide, show ¬ (2 : Fin 3) = 0 by decide,
      if_false]
    omega
  rw [hcount, worstCaseTileBytes]
  refine ⟨by omega, ?_⟩
  apply Nat.div_le_div_right
  apply Nat.add_le_add_right
  apply Nat.mul_le_mul_right
  rw [Nat.mul_comm ((l.tileW + 7) / 8)]
  omega

-- ================================================================== tile

/-- A payload and what it does: it fits the length field, and it takes
a decoder's planes to the encoder's new shadow planes. -/
structure Encoder.TileCoded (e : Encoder) (tile : Nat) (payload : List UInt8) : Prop where
  bytes : (e.encodeTile tile).1 = putU16 (.ofNat payload.length) ++ payload
  length_pos : 1 ≤ payload.length
  length_le : payload.length ≤ worstCaseTileBytes e.layout.tileW e.layout.tileH
  decodes : ∀ d : Decoder, d.layout = e.layout → d.dq = (fun t k => e.q t (zigzag k)) →
    d.fb = e.recon →
      d.decodeTile payload tile = (true, { d with fb := (e.encodeTile tile).2.recon })

theorem Encoder.encodeTile_coded (e : Encoder) (tile : Nat) (hw : 1 ≤ e.layout.tileW)
    (hh : 1 ≤ e.layout.tileH) (hstride : e.recon.stride = e.cur.stride) :
    ∃ payload, e.TileCoded tile payload := by
  have hzero : ({} : BitWriter).n < 8 := by decide
  obtain ⟨bits, hsized, hcarries⟩ := encodeComps_carries (l := e.layout)
    (show (fun t k => e.q t (zigzag k)) = fun t k => e.q t (zigzag k) from rfl) tile [0, 1, 2]
    hzero hstride
  set bw := (encodeComps e.layout e.q e.cur tile [0, 1, 2] {} e.recon).1 with hbw
  obtain ⟨hpos, hworst⟩ := blockCount_bounds tile hw hh
  have hbits : bw.bits = bits := by
    rw [hcarries.wrote]
    rfl
  obtain ⟨pad, hflush, hpad⟩ := BitWriter.flush_spec hcarries.n_lt
  rw [hbits] at hflush
  have hlen : 8 * bw.flush.length = bits.length + pad.length := by
    rw [← ofBytes_length, hflush, List.length_append]
  obtain ⟨hmin, hmax⟩ := hsized
  refine ⟨bw.flush, rfl, by omega, by omega, fun d hl hdq hfb => ?_⟩
  have hstarts := starts_ofBytes bw.flush []
  rw [List.append_nil, hflush, starts_append] at hstarts
  obtain ⟨br', hdec, hat⟩ := hcarries.reads _ _ _ (BitReader.at_zero bw.flush) hstarts.1
  simp only [Decoder.decodeTile, hl, hdq, hfb, hdec, hat.overrun]
  rw [decide_eq_false (by omega)]
  rfl

end Ncmips.Tjc
