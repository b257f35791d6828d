/-
The stream header and the dirty bitmap, written and read back.

A header that satisfies `StreamHeader.Valid` comes back as it was sent;
without audio the channel count and the rate are sent as zeros
(`StreamHeader.sent`).
-/
import Ncmips.Tjc.Format

namespace Ncmips.Tjc

open Bits (byteAt)

-- ================================================================ header

/-- What the parser accepts. -/
structure StreamHeader.Valid (h : StreamHeader) : Prop where
  version : h.version = 2
  chroma : h.chromaFormat = 0
  quality : ¬ (h.quality < 1 ∨ 100 < h.quality)
  rate : ¬ (h.fpsNum = 0 ∨ h.fpsDen = 0 ∨ 1 < h.audioCodec)
  audio : h.audioCodec ≠ 0 → ¬ (h.audioChannels < 1 ∨ Qoa.kMaxChannels < h.audioChannels.toNat
    ∨ h.audioRate < 1 ∨ 0xffffff < h.audioRate)
  geometry : validateGeometry h.width.toNat h.height.toNat h.tileW.toNat h.tileH.toNat = none

/-- The header as it arrives. -/
def StreamHeader.sent (h : StreamHeader) : StreamHeader :=
  if h.audioCodec = 0 then { h with audioChannels := 0, audioRate := 0 } else h

@[simp] theorem writeStreamHeader_length (h : StreamHeader) :
    (writeStreamHeader h).length = kStreamHeaderSize := rfl

theorem ofNat_getU16_put (v : UInt16) (p : List UInt8) (off : Nat)
    (h : getU16 p off = getU16 (putU16 v.toUInt32)) : UInt16.ofNat (getU16 p off) = v := by
  rw [h, ← List.append_nil (putU16 _), getU16_put]
  have := v.toNat_lt
  rw [UInt16.toNat_toUInt32, Nat.mod_eq_of_lt this]
  exact UInt16.ofNat_toNat

theorem ofNat_getU32_put (v : UInt32) (p : List UInt8) (off : Nat)
    (h : getU32 p off = getU32 (putU32 v)) : UInt32.ofNat (getU32 p off) = v := by
  rw [h, ← List.append_nil (putU32 _), getU32_put]
  exact UInt32.ofNat_toNat

theorem parseV2Fields_write {h : StreamHeader} (hv : h.Valid) (r : StreamHeader)
    (hr : r.audioChannels = 0 ∧ r.audioRate = 0) :
    parseV2Fields (writeStreamHeader h) r = .ok { r with
      fpsNum := h.fpsNum, fpsDen := h.fpsDen, audioCodec := h.audioCodec
      audioChannels := h.sent.audioChannels, audioRate := h.sent.audioRate } := by
  have hnum : UInt32.ofNat (getU32 (writeStreamHeader h) 18) = h.fpsNum :=
    ofNat_getU32_put _ _ _ rfl
  have hden : UInt32.ofNat (getU32 (writeStreamHeader h) 22) = h.fpsDen :=
    ofNat_getU32_put _ _ _ rfl
  have hcodec : byteAt (writeStreamHeader h) 26 = h.audioCodec := rfl
  simp only [parseV2Fields, hnum, hden, hcodec]
  rw [if_neg hv.rate]
  by_cases h0 : h.audioCodec = 0
  · rw [if_neg (not_not.2 h0)]
    simp only [StreamHeader.sent, h0, if_true, ← hr.1, ← hr.2]
  · have hch : byteAt (writeStreamHeader h) 27 = h.audioChannels := by
      show (if h.audioCodec ≠ 0 then h.audioChannels else 0) = h.audioChannels
      rw [if_pos h0]
    have hrate : UInt32.ofNat (getU32 (writeStreamHeader h) 28) = h.audioRate := by
      refine ofNat_getU32_put _ _ _ ?_
      show getU32 (putU32 (if h.audioCodec ≠ 0 then h.audioRate else 0)) = _
      rw [if_pos h0]
    rw [if_pos h0, hch, hrate, if_neg (hv.audio h0)]
    simp only [StreamHeader.sent, h0, if_false]

theorem parseFields_write {h : StreamHeader} (hv : h.Valid) {r : StreamHeader}
    (hr : r.version = 2 ∧ r.fpsNum = h.fpsNum ∧ r.fpsDen = h.fpsDen ∧ r.audioCodec = h.audioCodec
      ∧ r.audioChannels = h.sent.audioChannels ∧ r.audioRate = h.sent.audioRate) :
    parseFields (writeStreamHeader h) r = .ok h.sent := by
  have hw : UInt16.ofNat (getU16 (writeStreamHeader h) 4) = h.width :=
    ofNat_getU16_put _ _ _ rfl
  have hh : UInt16.ofNat (getU16 (writeStreamHeader h) 6) = h.height :=
    ofNat_getU16_put _ _ _ rfl
  have hparam : UInt16.ofNat (getU16 (writeStreamHeader h) 12) = h.refreshParam :=
    ofNat_getU16_put _ _ _ rfl
  have h8 : byteAt (writeStreamHeader h) 8 = h.tileW := rfl
  have h9 : byteAt (writeStreamHeader h) 9 = h.tileH := rfl
  have h10 : byteAt (writeStreamHeader h) 10 = h.chromaFormat := rfl
  have h11 : byteAt (writeStreamHeader h) 11 = h.refreshMode.toByte := rfl
  have h14 : byteAt (writeStreamHeader h) 14 = h.quality := rfl
  have hbad : ¬ (h.chromaFormat ≠ 0 ∨ h.quality < 1 ∨ 100 < h.quality) := by
    rw [hv.chroma, not_or]
    exact ⟨not_not.2 rfl, hv.quality⟩
  simp only [parseFields, hw, hh, hparam, h8, h9, h10, h11, h14, RefreshMode.ofByte?_toByte,
    hv.geometry]
  rw [if_neg hbad, if_neg (by decide)]
  obtain ⟨hver, hnum, hden, hcodec, hch, hrate⟩ := hr
  rw [hver, hnum, hden, hcodec, hch, hrate, ← hv.version]
  unfold StreamHeader.sent
  split <;> rfl

theorem parse_write {h : StreamHeader} (hv : h.Valid) :
    parseStreamHeader (writeStreamHeader h) = .ok h.sent := by
  have h0 : byteAt (writeStreamHeader h) 0 = 0x54 := rfl
  have h1 : byteAt (writeStreamHeader h) 1 = 0x4a := rfl
  have h2 : byteAt (writeStreamHeader h) 2 = 0x43 := rfl
  have h3 : byteAt (writeStreamHeader h) 3 = 0x32 := rfl
  have hlen := writeStreamHeader_length h
  simp only [parseStreamHeader, hlen, h0, h1, h2, h3]
  rw [if_neg (by decide), if_neg (by decide), if_neg (by decide), if_pos (by decide),
    parseV2Fields_write hv _ ⟨rfl, rfl⟩]
  exact parseFields_write hv ⟨rfl, rfl, rfl, rfl, rfl, rfl⟩

-- ================================================================ bitmap

theorem byteAt_modify (l : List UInt8) (i j : Nat) (f : UInt8 → UInt8) (hi : i < l.length) :
    byteAt (l.modify i f) j = if i = j then f (byteAt l j) else byteAt l j := by
  simp only [byteAt, List.getD_eq_getElem?_getD, List.getElem?_modify]
  split
  · next h => subst h; simp [hi]
  · simp

/-- The bitmap holds the flags, and its padding bits are clear. -/
theorem unpack_packBitmap (flags : Nat → Bool) (n i : Nat) :
    unpackBitmap (packBitmap flags n) i = (decide (i < n) && flags i) := by
  have hfold : ∀ m ≤ n, ∀ out, out = (List.range m).foldl
      (fun out i => if flags i then out.modify (i / 8) (· ||| .ofNat (1 <<< (i % 8))) else out)
      (List.replicate ((n + 7) / 8) (0 : UInt8)) →
      out.length = (n + 7) / 8 ∧ ∀ i, unpackBitmap out i = (decide (i < m) && flags i) := by
    intro m
    induction m with
    | zero =>
        rintro - out rfl
        refine ⟨by simp, fun i => ?_⟩
        simp only [List.range_zero, List.foldl_nil, unpackBitmap, byteAt,
          List.getD_eq_getElem?_getD, List.getElem?_replicate]
        split <;> simp
    | succ m ih =>
        rintro hm out rfl
        obtain ⟨hlen, hbits⟩ := ih (by omega) _ rfl
        rw [List.range_succ, List.foldl_append, List.foldl_cons, List.foldl_nil]
        set out := (List.range m).foldl (fun out i =>
          if flags i then out.modify (i / 8) (· ||| .ofNat (1 <<< (i % 8))) else out)
          (List.replicate ((n + 7) / 8) (0 : UInt8))
        split
        · next hflag =>
          refine ⟨by rw [List.length_modify]; exact hlen, fun i => ?_⟩
          have hbyte := byteAt_modify out (m / 8) (i / 8) (· ||| .ofNat (1 <<< (m % 8))) (by omega)
          have hold := hbits i
          simp only [unpackBitmap] at hold ⊢
          rw [hbyte]
          have hbit : (UInt8.ofNat (1 <<< (m % 8))).toNat = 2 ^ (m % 8) := by
            rw [UInt8.toNat_ofNat', Nat.one_shiftLeft, Nat.mod_eq_of_lt]
            exact Nat.pow_lt_pow_right (by decide) (by omega)
          by_cases hi : i = m
          · subst hi
            simp [hbit, hflag]
          · have hlt : decide (i < m + 1) = decide (i < m) := by
              rw [decide_eq_decide]
              omega
            rw [hlt, ← hold]
            split
            · next hbyte =>
              have hne : m % 8 ≠ i % 8 := by omega
              simp [hbit, Nat.testBit_or, hne]
            · rfl
        · next hflag =>
          refine ⟨hlen, fun i => ?_⟩
          rw [hbits i]
          by_cases hi : i = m
          · subst hi
            simp [hflag]
          · have hlt : decide (i < m + 1) = decide (i < m) := by
              rw [decide_eq_decide]
              omega
            rw [hlt]
  exact (hfold n le_rfl _ rfl).2 i

@[simp] theorem packBitmap_length (flags : Nat → Bool) (n : Nat) :
    (packBitmap flags n).length = (n + 7) / 8 := by
  have hfold : ∀ (l : List Nat) (out : List UInt8),
      (l.foldl (fun out i => if flags i then out.modify (i / 8) (· ||| .ofNat (1 <<< (i % 8)))
        else out) out).length = out.length := by
    intro l
    induction l with
    | nil => exact fun _ => rfl
    | cons i l ih =>
        intro out
        rw [List.foldl_cons, ih]
        split
        · exact List.length_modify ..
        · rfl
  rw [packBitmap, hfold, List.length_replicate]

end Ncmips.Tjc
