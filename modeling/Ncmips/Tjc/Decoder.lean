/-
`tjc::Decoder`: the stream header, frame records, tile payloads, audio.

Input is a `Source`; what a call leaves of it is part of the result,
also when it fails. Tiles go straight into the planes, so a record that
turns out bad has already changed the tiles before it, and part of its
own. The buffers a call refills before it looks at them (`dirty_`,
`bitmap_`, `payload_`) are local here; allocation succeeds.
-/
import Ncmips.Lib.Source
import Ncmips.Tjc.Huff
import Ncmips.Tjc.Qoa

namespace Ncmips.Tjc

open Bits (byteAt)

variable {σ : Type}

structure Decoder where
  header : StreamHeader := {}
  layout : Layout := ⟨0, 0, 0, 0, 0, 0, 0, 0, 0, 0, 0, 0, 0⟩
  fb : Planes := ⟨fun _ => #[], fun _ => 0⟩
  /-- Dequant tables, zigzag order. -/
  dq : Bool → Nat → Nat := fun _ _ => 0
  audio : Nat → Int := fun _ => 0
  audioSamples : Nat := 0
  ready : Bool := false

-- ================================================================ header

/-- What a header that was accepted sets up. -/
def Decoder.setup (h : StreamHeader) : Decoder :=
  let layout := makeLayout h.width.toNat h.height.toNat h.tileW.toNat h.tileH.toNat
  { header := h
    layout
    fb := Planes.alloc layout
    dq := fun table k => buildQuantTables h.quality.toNat table (zigzag k)
    ready := true }

def Decoder.readHeader (fn : Source σ) (d : Decoder) (s : σ) : Status × Decoder × σ :=
  let d := { d with ready := false }
  let v1 := fn.readFull s kStreamHeaderSizeV1
  if v1.1.length = 0 then (.endOfStream, d, v1.2)
  else if v1.1.length < kStreamHeaderSizeV1 then (.truncated, d, v1.2)
  else
    let two := byteAt v1.1 3 = 0x32
    let more :=
      if two then fn.readFull v1.2 (kStreamHeaderSize - kStreamHeaderSizeV1) else ([], v1.2)
    let buf := v1.1 ++ more.1
    if two ∧ buf.length < kStreamHeaderSize then (.truncated, d, more.2)
    else
      match parseStreamHeader buf with
      | .error st => (st, d, more.2)
      | .ok h =>
          if maxPixels < h.width.toNat * h.height.toNat then
            (.badHeader, { d with header := h }, more.2)
          else (.ok, Decoder.setup h, more.2)

-- ================================================================= tiles

/-- The blocks of one component, the next ones in the list. `none` on
bad data, with what was decoded until then left in the plane. -/
def decodeBlocks (dq : Nat → Nat) (table : Bool) (r : Rect) (stride : Nat) :
    List (Nat × Nat) → BitReader → Int → Array UInt8 → Option BitReader × Array UInt8
  | [], br, _, plane => (some br, plane)
  | (y, x) :: rest, br, pred, plane =>
      let out := decodeBlock br table dq pred
      match out.r with
      | none => (none, plane)
      | some hasAc =>
          -- a whole block is written in place, a partial one through `blk`
          let blk := if hasAc then idct8x8 out.coef else idct8x8Dc (out.coef 0)
          let plane := storeBlock blk plane ((r.y + y) * stride + r.x + x) stride
            (min 8 (r.w - x)) (min 8 (r.h - y))
          decodeBlocks dq table r stride rest out.br out.pred plane

/-- The components in the list, each with its own DC predictor. -/
def decodeComps (l : Layout) (dq : Bool → Nat → Nat) (tile : Nat) :
    List (Fin 3) → BitReader → Planes → Option BitReader × Planes
  | [], br, fb => (some br, fb)
  | c :: cs, br, fb =>
      let r := tileRect l tile c
      match decodeBlocks (dq (compTable c)) (compTable c) r (fb.stride c)
          (blockOrigins r.w r.h) br 0 (fb.p c) with
      | (none, plane) => (none, fb.setPlane c plane)
      | (some br, plane) => decodeComps l dq tile cs br (fb.setPlane c plane)

/-- Decodes a tile payload; `false` on bad data or if more bits were
consumed than there are. -/
def Decoder.decodeTile (d : Decoder) (data : List UInt8) (tile : Nat) : Bool × Decoder :=
  match decodeComps d.layout d.dq tile [0, 1, 2] { data } d.fb with
  | (none, fb) => (false, { d with fb })
  | (some br, fb) => (!br.overrun, { d with fb })

-- ================================================================= audio

/-- A frame's header names at least its own bytes. -/
theorem Qoa.consumed_pos {data : List UInt8} {channels rate off : Nat} {out : Nat → Int}
    {f : Qoa.DecodedFrame} (h : Qoa.decodeFrame data channels rate off out = some f) :
    8 ≤ f.consumed ∧ f.consumed ≤ data.length := by
  simp only [Qoa.decodeFrame] at h
  split at h
  · cases h
  · split at h
    · cases h
    · next hok =>
      cases h
      simp only
      omega

/-- The QOA frames of one record's audio data. -/
def decodeAudioFrames (channels rate maxSamples : Nat) (data : List UInt8)
    (audio : Nat → Int) (samples : Nat) : Status × (Nat → Int) × Nat :=
  if data = [] then (.ok, audio, samples)
  else if maxSamples < samples + Qoa.kMaxFrameLen then (.corrupt, audio, samples)
  else
    match _h : Qoa.decodeFrame data channels rate (samples * channels) audio with
    | none => (.corrupt, audio, samples)
    | some f =>
        decodeAudioFrames channels rate maxSamples (data.drop f.consumed) f.dec.out
          (samples + f.samples)
termination_by data.length
decreasing_by
  have := Qoa.consumed_pos ‹_ = some f›
  have := List.length_pos_iff.2 ‹¬ data = []›
  rw [List.length_drop]
  omega

/-- About one frame period of samples, with plenty of slack. -/
def StreamHeader.maxSamples (h : StreamHeader) : Nat :=
  let expect := h.audioRate.toNat * h.fpsDen.toNat / h.fpsNum.toNat + 1
  2 * expect + Qoa.kMaxFrameLen

/-- What a record's audio field may hold; absurd sizes are refused. -/
def StreamHeader.maxAudioLen (h : StreamHeader) : Nat :=
  Qoa.frameSize h.audioChannels.toNat Qoa.kMaxFrameLen * (h.maxSamples / Qoa.kMaxFrameLen + 1)

/-- Also returns the bytes it stands for, length field included. -/
def Decoder.decodeAudio (fn : Source σ) (d : Decoder) (s : σ) : Status × Decoder × σ × Nat :=
  let d := { d with audioSamples := 0 }
  let lb := fn.readFull s 4
  if lb.1.length < 4 then (.truncated, d, lb.2, 0)
  else
    let len := getU32 lb.1
    if d.header.maxAudioLen < len then (.corrupt, d, lb.2, 4 + len)
    else
      let payload := fn.readFull lb.2 len
      if payload.1.length < len then (.truncated, d, payload.2, 4 + len)
      else
        let r := decodeAudioFrames d.header.audioChannels.toNat d.header.audioRate.toNat
          d.header.maxSamples payload.1 d.audio 0
        (r.1, { d with audio := r.2.1, audioSamples := r.2.2 }, payload.2, 4 + len)

-- ================================================================ frames

/-- A run over the tiles of a record. -/
structure TileRun (σ : Type) where
  status : Status
  dec : Decoder
  src : σ
  bytes : Nat
  dirtyCount : Nat

/-- The tiles still to come: each is a length and a payload. -/
def Decoder.decodeTiles (fn : Source σ) :
    List Nat → Decoder → σ → (bytes dirtyCount : Nat) → TileRun σ
  | [], d, s, bytes, dirtyCount => ⟨.ok, d, s, bytes, dirtyCount⟩
  | t :: ts, d, s, bytes, dirtyCount =>
      let lb := fn.readFull s 2
      if lb.1.length < 2 then ⟨.truncated, d, lb.2, bytes, dirtyCount⟩
      else
        let len := getU16 lb.1
        if len = 0 then ⟨.corrupt, d, lb.2, bytes, dirtyCount⟩
        else
          let payload := fn.readFull lb.2 len
          if payload.1.length < len then ⟨.truncated, d, payload.2, bytes, dirtyCount⟩
          else
            let r := d.decodeTile payload.1 t
            if r.1 = false then ⟨.corrupt, r.2, payload.2, bytes, dirtyCount⟩
            else decodeTiles fn ts r.2 payload.2 (bytes + (2 + len)) (dirtyCount + 1)

/-- What `decode_frame` leaves; the stats are written only on `ok`. -/
structure FrameResult (σ : Type) where
  status : Status
  dec : Decoder
  src : σ
  stats : Option FrameStats := none

/-- The audio of a record, if the stream has any. -/
def Decoder.finishFrame (fn : Source σ) (run : TileRun σ) (frameNum : UInt32) (force : Bool) :
    FrameResult σ :=
  let hasAudio := run.dec.header.audioCodec ≠ 0
  let audio := if hasAudio then run.dec.decodeAudio fn run.src else (.ok, run.dec, run.src, 0)
  if audio.1 ≠ .ok then { status := audio.1, dec := audio.2.1, src := audio.2.2.1 }
  else
    { status := .ok
      dec := audio.2.1
      src := audio.2.2.1
      stats := some
        { frameNum
          forceRefresh := force
          dirtyTiles := run.dirtyCount
          totalTiles := run.dec.layout.tiles
          bytes := run.bytes + audio.2.2.2
          audioSamples := audio.2.1.audioSamples % 2 ^ 32
          audioBytes := if hasAudio then audio.2.2.2 - 4 else 0
          audioPadded := 0 } }

/-- The part of a record behind the bitmap. -/
def Decoder.decodeBody (fn : Source σ) (d : Decoder) (s : σ) (frameNum : UInt32) (force : Bool)
    (dirty : Nat → Bool) (bytes : Nat) : FrameResult σ :=
  let run := Decoder.decodeTiles fn ((List.range d.layout.tiles).filter dirty) d s bytes 0
  if run.status ≠ .ok then { status := run.status, dec := run.dec, src := run.src }
  else Decoder.finishFrame fn run frameNum force

/-- Reads and applies one frame record. -/
def Decoder.decodeFrame (fn : Source σ) (d : Decoder) (s : σ) : FrameResult σ :=
  if d.ready = false then { status := .notInitialized, dec := d, src := s }
  else
    let hdr := fn.readFull s kFrameHeaderSize
    if hdr.1.length = 0 then { status := .endOfStream, dec := d, src := hdr.2 }
    else if hdr.1.length < kFrameHeaderSize then
      { status := .truncated, dec := d, src := hdr.2 }
    else if 1 < byteAt hdr.1 4 then { status := .corrupt, dec := d, src := hdr.2 }
    else
      let frameNum : UInt32 := .ofNat (getU32 hdr.1)
      if byteAt hdr.1 4 ≠ 0 then
        d.decodeBody fn hdr.2 frameNum true (fun _ => true) kFrameHeaderSize
      else
        let size := (d.layout.tiles + 7) / 8
        let bitmap := fn.readFull hdr.2 size
        if bitmap.1.length < size then { status := .truncated, dec := d, src := bitmap.2 }
        else
          d.decodeBody fn bitmap.2 frameNum false (unpackBitmap bitmap.1)
            (kFrameHeaderSize + size)

/-- The visible frame as tightly packed YUV420P. -/
def Decoder.copyFrame (d : Decoder) : List UInt8 := copyCropped d.fb d.layout

end Ncmips.Tjc
