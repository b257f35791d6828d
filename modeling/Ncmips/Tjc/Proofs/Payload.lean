/-
The length field of a tile.

A tile's length has 16 bits, and `encodeTile` writes it without a
check: `validateGeometry` has made sure, once, that no tile of the
layout can need more. The bound is `encodeTile_coded`'s, block by block
and with the chroma blocks the tile's position gives it; what is added
here is that the shadow planes have no say in the payload, so that the
bound is the encoder's in whatever state.
-/
import Ncmips.Tjc.Proofs.Drift

namespace Ncmips.Tjc

-- ===================================================== the shadow planes

/-- The bits of a component are the picture's; the shadow plane only
takes blocks in. -/
theorem encodeBlocks_bits (q : Nat → Nat) (table : Bool) (r : Rect) (stride : Nat)
    (cur : Array UInt8) (blocks : List (Nat × Nat)) (bw : BitWriter) (pred : Int)
    (plane plane' : Array UInt8) :
    (encodeBlocks q table r stride cur blocks bw pred plane).1
      = (encodeBlocks q table r stride cur blocks bw pred plane').1 := by
  induction blocks generalizing bw pred plane plane' with
  | nil => rfl
  | cons b blocks ih => exact ih ..

theorem encodeComps_bits (l : Layout) (q : Bool → Nat → Nat) (cur : Planes) (tile : Nat)
    (cs : List (Fin 3)) (bw : BitWriter) (fb fb' : Planes) :
    (encodeComps l q cur tile cs bw fb).1 = (encodeComps l q cur tile cs bw fb').1 := by
  induction cs generalizing bw fb fb' with
  | nil => rfl
  | cons c cs ih =>
      simp only [encodeComps]
      rw [encodeBlocks_bits _ _ _ _ _ _ _ _ (fb.p c) (fb'.p c)]
      exact ih ..

/-- The bytes of a tile do not depend on the shadow planes. -/
theorem Encoder.encodeTile_bytes (e : Encoder) (recon : Planes) (tile : Nat) :
    ({ e with recon }.encodeTile tile).1 = (e.encodeTile tile).1 := by
  simp only [Encoder.encodeTile]
  rw [encodeComps_bits e.layout e.q e.cur tile [0, 1, 2] {} recon e.recon]

-- ====================================================== the length field

/-- Whatever the picture, the tables and the tile: the payload is not
empty, it is no longer than the worst case of a geometry that passed
the check, and the two bytes before it hold its length. -/
theorem Encoder.encodeTile_length_fits {width height tileW tileH : Nat}
    (hgeo : validateGeometry width height tileW tileH = none) (e : Encoder)
    (hlayout : e.layout = makeLayout width height tileW tileH) (tile : Nat) :
    ∃ payload, (e.encodeTile tile).1 = putU16 (.ofNat payload.length) ++ payload
      ∧ 1 ≤ payload.length
      ∧ payload.length ≤ worstCaseTileBytes tileW tileH
      ∧ worstCaseTileBytes tileW tileH ≤ 65535
      ∧ getU16 (e.encodeTile tile).1 = payload.length := by
  obtain ⟨hw, hh, hworst⟩ := validateGeometry_none hgeo
  have htileW : e.layout.tileW = tileW := by rw [hlayout]; rfl
  have htileH : e.layout.tileH = tileH := by rw [hlayout]; rfl
  -- with shadow planes of the picture's own shape the tile is a coded one
  obtain ⟨payload, hcoded⟩ := Encoder.encodeTile_coded { e with recon := e.cur } tile
    (by rw [htileW]; exact hw) (by rw [htileH]; exact hh) rfl
  have hbytes := hcoded.bytes
  rw [e.encodeTile_bytes e.cur tile] at hbytes
  have hle : payload.length ≤ worstCaseTileBytes tileW tileH := by
    rw [← htileW, ← htileH]
    exact hcoded.length_le
  have hfits : payload.length < 2 ^ 16 := by
    unfold kMaxTilePayload at hworst
    omega
  refine ⟨payload, hbytes, hcoded.length_pos, hle, hworst, ?_⟩
  rw [hbytes, getU16_put, UInt32.toNat_ofNat']
  omega

/-- Odd tiles: the second one of the row owns less chroma than the
first, and its length is the payload's too. -/
theorem Encoder.encodeTile_length_fits_odd :
    let cfg : Config := { width := 6, height := 3, tileW := 3, tileH := 3 }
    ∃ e : Encoder, Encoder.init 1 cfg = .ok e ∧ (tileRect e.layout 1 1).w = 1
      ∧ (tileRect e.layout 0 1).w = 2
      ∧ ∃ payload, (e.encodeTile 1).1 = putU16 (.ofNat payload.length) ++ payload
        ∧ getU16 (e.encodeTile 1).1 = payload.length := by
  intro cfg
  obtain ⟨e, he⟩ := Encoder.init_ok 1 (show cfg.error = none by decide)
  obtain ⟨hinv, hcfg, -⟩ := Encoder.inv_init he
  have hlayout : e.layout = makeLayout 6 3 3 3 := by rw [hinv.layout_eq, hcfg]; rfl
  obtain ⟨payload, hbytes, -, -, -, hget⟩ :=
    Encoder.encodeTile_length_fits (by decide) e hlayout 1
  exact ⟨e, he, by rw [hlayout]; decide, by rw [hlayout]; decide, payload, hbytes, hget⟩

end Ncmips.Tjc
