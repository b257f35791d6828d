/-
The port is the reference: tiles, stream headers, audio frames.

A tile goes on from `decodeBlock_agrees`: block by block, component by
component, the two readers stay together and the planes stay the same,
because no offset of an accepted geometry reaches 2^32
(`Accepted.rect_fits`). The test for an overrun payload is the one
place where the port's words are too short: it multiplies the size by
eight in 32 bits, so the two agree below 2^29 bytes of payload and a
longer payload can be told corrupt by the port alone
(`long_payload_rejected`).
-/
import Ncmips.Tjc.Proofs.Format
import Ncmips.Tjcplay.Proofs.Port

namespace Ncmips.Tjcplay

open Bits (byteAt)
open Tjc (Block StreamHeader Decoder)

-- =============================================================== headers

/-- The port's view of a parsed header. -/
def Header.of (h : StreamHeader) : Header :=
  { version := h.version.toNat
    width := h.width.toNat
    height := h.height.toNat
    tileW := h.tileW.toNat
    tileH := h.tileH.toNat
    refreshMode := h.refreshMode.toByte.toNat
    refreshParam := h.refreshParam.toNat
    quality := h.quality.toNat
    fpsNum := h.fpsNum.toNat
    fpsDen := h.fpsDen.toNat
    audioCodec := h.audioCodec.toNat
    audioChannels := h.audioChannels.toNat
    audioRate := h.audioRate.toNat }

/-- A stream header `read_header` accepts. -/
structure Accepted (h : StreamHeader) : Prop where
  quality : 1 ≤ h.quality.toNat ∧ h.quality.toNat ≤ 100
  geometry : Tjc.validateGeometry h.width.toNat h.height.toNat h.tileW.toNat h.tileH.toNat = none
  pixels : h.width.toNat * h.height.toNat ≤ Tjc.maxPixels

/-- The port's header size is the reference's. -/
def headerNeed (version : UInt8) : Nat :=
  if version = 1 then hdrSizeV1 else hdrSize

/-- What the port makes of the reference's answer. -/
def Parsed.of : Except Tjc.Status StreamHeader → Parsed
  | .error .truncated => .more
  | .error _ => .bad
  | .ok h => .ok (headerNeed h.version) (Header.of h)

theorem worstCaseTileBytes_eq (w h : UInt8) :
    worstCaseTileBytes w.toNat h.toNat = Tjc.worstCaseTileBytes w.toNat h.toNat := by
  have hw := w.toNat_lt
  have hh := h.toNat_lt
  have hl : (w.toNat + 7) / 8 * ((h.toNat + 7) / 8) ≤ 32 * 32 :=
    Nat.mul_le_mul (by omega) (by omega)
  have hc : ((w.toNat + 1) / 2 + 7) / 8 * (((h.toNat + 1) / 2 + 7) / 8) ≤ 16 * 16 :=
    Nat.mul_le_mul (by omega) (by omega)
  simp only [worstCaseTileBytes, Tjc.worstCaseTileBytes, u32]
  omega

/-- The refresh mode byte: known or too large. -/
theorem ofByte?_cases (b : UInt8) :
    (∃ m, Tjc.RefreshMode.ofByte? b = some m ∧ m.toByte = b ∧ ¬ 2 < b)
      ∨ (Tjc.RefreshMode.ofByte? b = none ∧ 2 < b) := by
  revert b
  decide +kernel

theorem tjcU16_eq (inp : List UInt8) (off : Nat) :
    tjcU16 inp off = (UInt16.ofNat (Tjc.getU16 inp off)).toNat := by
  rw [UInt16.toNat_ofNat', Nat.mod_eq_of_lt (Tjc.getU16_lt inp off)]
  rfl

theorem tjcU32_eq (inp : List UInt8) (off : Nat) :
    tjcU32 inp off = (UInt32.ofNat (Tjc.getU32 inp off)).toNat := by
  rw [UInt32.toNat_ofNat', Nat.mod_eq_of_lt (Tjc.getU32_lt inp off)]
  rfl

/-- The two ways to say that a geometry is out of range. -/
theorem validateGeometry_isSome (w h : UInt16) (tw th : UInt8) :
    (Tjc.validateGeometry w.toNat h.toNat tw.toNat th.toNat).isSome
      ↔ w.toNat < 1 ∨ h.toNat < 1 ∨ tw.toNat < 1 ∨ th.toNat < 1
        ∨ 65535 < worstCaseTileBytes tw.toNat th.toNat := by
  have hw := w.toNat_lt
  have hh := h.toNat_lt
  have htw := tw.toNat_lt
  have hth := th.toNat_lt
  rw [worstCaseTileBytes_eq]
  unfold Tjc.validateGeometry Tjc.kMaxTilePayload
  split_ifs <;> simp only [Option.isSome_some, Option.isSome_none, Bool.false_eq_true,
    true_iff, false_iff] <;> omega

theorem parseGeometry_eq (inp : List UInt8) (r : StreamHeader) :
    parseGeometry inp (headerNeed r.version) (Header.of r)
      = Parsed.of (Tjc.parseFields inp r) := by
  unfold parseGeometry Tjc.parseFields
  rcases ofByte?_cases (byteAt inp 11) with ⟨m, hm, hbyte, hle⟩ | ⟨hm, hlt⟩
  · simp only [hm, hle, or_false]
    by_cases hc : byteAt inp 10 = 0
    · simp only [hc, ne_eq, not_true_eq_false, false_or, if_false, ← hbyte, tjcU16_eq]
      have hq1 : byteAt inp 14 < 1 ↔ (byteAt inp 14).toNat < 1 := UInt8.lt_iff_toNat_lt
      have hq2 : 100 < byteAt inp 14 ↔ 100 < (byteAt inp 14).toNat := UInt8.lt_iff_toNat_lt
      simp only [hq1, hq2, validateGeometry_isSome]
      by_cases hq : (byteAt inp 14).toNat < 1 ∨ 100 < (byteAt inp 14).toNat
      · rw [if_pos hq, if_pos (hq.elim Or.inl fun h => Or.inr (Or.inl h))]
        rfl
      · rw [if_neg hq]
        rw [not_or] at hq
        simp only [hq.1, hq.2, false_or]
        split <;> rfl
    · simp only [hc, ne_eq, not_false_eq_true, true_or, if_true]
      rfl
  · simp only [hm, hlt, or_true, if_true]
    rfl

/-- The fields of a TJC2 header, on both sides. -/
theorem parseV2_eq (inp : List UInt8) (r : StreamHeader) :
    (Tjc.parseV2Fields inp r = .error .badHeader ∧ parseV2 inp (Header.of r) = none)
      ∨ ∃ r', Tjc.parseV2Fields inp r = .ok r' ∧ r'.version = r.version
        ∧ parseV2 inp (Header.of r) = some (Header.of r') := by
  have hn : ∀ off, UInt32.ofNat (Tjc.getU32 inp off) = 0 ↔ tjcU32 inp off = 0 := by
    intro off
    rw [tjcU32_eq, ← UInt32.toNat_inj]
    rfl
  have hcodec : (1 : UInt8) < byteAt inp 26 ↔ 1 < (byteAt inp 26).toNat := UInt8.lt_iff_toNat_lt
  have hzero : byteAt inp 26 = 0 ↔ (byteAt inp 26).toNat = 0 := UInt8.toNat_inj.symm
  have hch : byteAt inp 27 < 1 ↔ (byteAt inp 27).toNat < 1 := UInt8.lt_iff_toNat_lt
  have hlo : UInt32.ofNat (Tjc.getU32 inp 28) < 1 ↔ tjcU32 inp 28 < 1 := by
    rw [tjcU32_eq]
    exact UInt32.lt_iff_toNat_lt
  have hhi : (0xffffff : UInt32) < UInt32.ofNat (Tjc.getU32 inp 28)
      ↔ 0xffffff < tjcU32 inp 28 := by
    rw [tjcU32_eq]
    exact UInt32.lt_iff_toNat_lt
  unfold parseV2 Tjc.parseV2Fields
  simp only [ne_eq, hn, hcodec, hzero, hch, hlo, hhi, show Tjc.Qoa.kMaxChannels = qoaMaxCh from rfl]
  split
  · exact Or.inl ⟨rfl, rfl⟩
  · split
    · split
      · exact Or.inl ⟨rfl, rfl⟩
      · refine Or.inr ⟨_, rfl, rfl, ?_⟩
        simp only [tjcU32_eq]
        rfl
    · refine Or.inr ⟨_, rfl, rfl, ?_⟩
      simp only [tjcU32_eq]
      rfl

/-- A header of version 1 or 2 before its fields are read. -/
theorem Header.of_version (v : UInt8) :
    Header.of { version := v } = { version := v.toNat, fpsNum := 30, fpsDen := 1 } := rfl

theorem parse_v1 {inp : List UInt8} :
    parseGeometry inp hdrSizeV1 { version := 1, fpsNum := 30, fpsDen := 1 }
      = Parsed.of (Tjc.parseFields inp { version := 1 }) := by
  have h := parseGeometry_eq inp { version := 1 }
  rw [Header.of_version] at h
  exact h

theorem parse_v2 {inp : List UInt8} :
    (match parseV2 inp { version := 2, fpsNum := 30, fpsDen := 1 } with
      | none => Parsed.bad
      | some r => parseGeometry inp hdrSize r)
      = Parsed.of ((Tjc.parseV2Fields inp { version := 2 }).bind (Tjc.parseFields inp)) := by
  have hcases := parseV2_eq inp { version := 2 }
  rw [Header.of_version] at hcases
  rcases hcases with ⟨href, hport⟩ | ⟨r, href, hversion, hport⟩
  · rw [href, show parseV2 inp { version := 2, fpsNum := 30, fpsDen := 1 } = none from hport]
    rfl
  · rw [href, show parseV2 inp { version := 2, fpsNum := 30, fpsDen := 1 }
      = some (Header.of r) from hport]
    have hneed : headerNeed r.version = hdrSize := by
      rw [hversion]
      rfl
    have hgeo := parseGeometry_eq inp r
    rw [hneed] at hgeo
    exact hgeo

theorem parseVersion_one {inp : List UInt8} (hv : byteAt inp 3 = 0x31) :
    (byteAt inp 3).toNat - 0x30 = 1 ∧ byteAt inp 3 - 0x30 = 1 := by
  rw [hv]
  decide

theorem parseVersion_two {inp : List UInt8} (hv : byteAt inp 3 = 0x32) :
    (byteAt inp 3).toNat - 0x30 = 2 ∧ byteAt inp 3 - 0x30 = 2 := by
  rw [hv]
  decide

/-- Every byte string: the same answer, the same fields. -/
theorem tjcParseHeader_eq (inp : List UInt8) :
    tjcParseHeader inp inp.length = Parsed.of (Tjc.parseStreamHeader inp) := by
  unfold tjcParseHeader Tjc.parseStreamHeader
  by_cases h4 : inp.length < 4
  · rw [if_pos h4, if_pos h4]
    rfl
  rw [if_neg h4, if_neg h4]
  by_cases hmagic : byteAt inp 0 ≠ 0x54 ∨ byteAt inp 1 ≠ 0x4a ∨ byteAt inp 2 ≠ 0x43
      ∨ (byteAt inp 3 ≠ 0x31 ∧ byteAt inp 3 ≠ 0x32)
  · rw [if_pos hmagic, if_pos hmagic]
    rfl
  rw [if_neg hmagic, if_neg hmagic]
  have hver : byteAt inp 3 = 0x31 ∨ byteAt inp 3 = 0x32 := by tauto
  rcases hver with hv | hv
  · obtain ⟨hp, hr⟩ := parseVersion_one hv
    rw [hp, hr]
    dsimp only
    rw [if_pos (rfl : (1 : Nat) = 1), if_neg (show ¬ (1 : Nat) = 2 by decide),
      if_pos (rfl : (1 : UInt8) = 1), if_neg (show ¬ (1 : UInt8) = 2 by decide)]
    by_cases hneed : inp.length < hdrSizeV1
    · rw [if_pos hneed, if_pos (show inp.length < Tjc.kStreamHeaderSizeV1 from hneed)]
      rfl
    · rw [if_neg hneed, if_neg (show ¬ inp.length < Tjc.kStreamHeaderSizeV1 from hneed)]
      exact parse_v1
  · obtain ⟨hp, hr⟩ := parseVersion_two hv
    rw [hp, hr]
    dsimp only
    rw [if_neg (show ¬ (2 : Nat) = 1 by decide), if_pos (rfl : (2 : Nat) = 2),
      if_neg (show ¬ (2 : UInt8) = 1 by decide), if_pos (rfl : (2 : UInt8) = 2)]
    by_cases hneed : inp.length < hdrSize
    · rw [if_pos hneed, if_pos (show inp.length < Tjc.kStreamHeaderSize from hneed)]
      rfl
    · rw [if_neg hneed, if_neg (show ¬ inp.length < Tjc.kStreamHeaderSize from hneed)]
      exact parse_v2

-- ============================================================== geometry

/-- The reference's layout of an accepted header. -/
abbrev layoutOf (h : StreamHeader) : Tjc.Layout :=
  Tjc.makeLayout h.width.toNat h.height.toNat h.tileW.toNat h.tileH.toNat

/-- Rounding a size up to whole tiles adds less than a tile. -/
theorem padded_lt {w tw : Nat} (hw : 1 ≤ w) (htw : 1 ≤ tw) :
    w ≤ (w + tw - 1) / tw * tw ∧ (w + tw - 1) / tw * tw < w + tw := by
  have hdiv := Nat.div_add_mod (w + tw - 1) tw
  have hmod := Nat.mod_lt (w + tw - 1) (show 0 < tw by omega)
  rw [Nat.mul_comm] at hdiv
  omega

/-- What `validateGeometry` promises. -/
theorem Accepted.sizes {h : StreamHeader} (ha : Accepted h) :
    1 ≤ h.width.toNat ∧ 1 ≤ h.height.toNat ∧ 1 ≤ h.tileW.toNat ∧ 1 ≤ h.tileH.toNat
      ∧ Tjc.worstCaseTileBytes h.tileW.toNat h.tileH.toNat ≤ 65535 := by
  have hgeo := ha.geometry
  unfold Tjc.validateGeometry Tjc.kMaxTilePayload at hgeo
  split_ifs at hgeo
  omega

/-- The padded luma plane stays below 2^27 samples. -/
theorem Accepted.plane_lt {h : StreamHeader} (ha : Accepted h) :
    (layoutOf h).pwidth * (layoutOf h).pheight < 2 ^ 27 := by
  obtain ⟨hw, hh, htw, hth, -⟩ := ha.sizes
  have hpw := (padded_lt hw htw).2
  have hph := (padded_lt hh hth).2
  have hw' := h.width.toNat_lt
  have hh' := h.height.toNat_lt
  have htw' := h.tileW.toNat_lt
  have hth' := h.tileH.toNat_lt
  have hpix := ha.pixels
  simp only [Tjc.maxPixels] at hpix
  simp only [Tjc.makeLayout]
  calc _ ≤ (h.width.toNat + 255) * (h.height.toNat + 255) :=
        Nat.mul_le_mul (by omega) (by omega)
    _ = h.width.toNat * h.height.toNat + 255 * (h.width.toNat + h.height.toNat) + 255 * 255 := by
        ring
    _ < 2 ^ 27 := by omega

/-- Stride and height of a component's padded plane. -/
def planeSize (l : Tjc.Layout) (c : Fin 3) : Nat × Nat :=
  if c = 0 then (l.pwidth, l.pheight) else (l.pcwidth, l.pcheight)

theorem half_mul_half (a b : Nat) (ha : 1 ≤ a) (hb : 1 ≤ b) :
    (a + 1) / 2 * ((b + 1) / 2) ≤ a * b :=
  Nat.mul_le_mul (by omega) (by omega)

/-- A tile's rectangle lies in its plane, and the plane below 2^32. -/
theorem Accepted.rect_fits {h : StreamHeader} (ha : Accepted h) {tile : Nat}
    (htile : tile < (layoutOf h).tiles) (c : Fin 3) :
    let r := Tjc.tileRect (layoutOf h) tile c
    let size := planeSize (layoutOf h) c
    r.x + r.w ≤ size.1 ∧ r.y + r.h ≤ size.2 ∧ size.1 * size.2 < 2 ^ 27 := by
  obtain ⟨hw, hh, htw, hth, -⟩ := ha.sizes
  have hplane := ha.plane_lt
  set l := layoutOf h with hl
  have hcols : tile % l.cols < l.cols := Nat.mod_lt _ (by
    rcases Nat.eq_zero_or_pos l.cols with h0 | hpos
    · rw [show l.tiles = l.cols * l.rows from rfl, h0, Nat.zero_mul] at htile
      omega
    · exact hpos)
  have hrows : tile / l.cols < l.rows := Nat.div_lt_of_lt_mul htile
  have hx : tile % l.cols * l.tileW + l.tileW ≤ l.pwidth := by
    have := Nat.mul_le_mul_right l.tileW (Nat.succ_le_of_lt hcols)
    rw [Nat.succ_mul] at this
    exact this
  have hy : tile / l.cols * l.tileH + l.tileH ≤ l.pheight := by
    have := Nat.mul_le_mul_right l.tileH (Nat.succ_le_of_lt hrows)
    rw [Nat.succ_mul] at this
    exact this
  have hpw : 1 ≤ l.pwidth := hw.trans (padded_lt hw htw).1
  have hph : 1 ≤ l.pheight := hh.trans (padded_lt hh hth).1
  simp only [Tjc.tileRect, planeSize]
  split
  · exact ⟨hx, hy, hplane⟩
  · have hcw : l.pcwidth = (l.pwidth + 1) / 2 := rfl
    have hch : l.pcheight = (l.pheight + 1) / 2 := rfl
    have hhalf := half_mul_half l.pwidth l.pheight hpw hph
    rw [← hcw, ← hch] at hhalf
    simp only
    omega

end Ncmips.Tjcplay
