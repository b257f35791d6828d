/-
QOA audio frames of `tjc.h`: the sign-LMS predictor, the frame encoder
that tries all 16 scale factors for every slice, and the frame decoder.

64-bit words are naturals, shifts left are cut to 64 bits where bits
can fall out, and `|` of disjoint fields is a sum. Predictor state is
an integer: it starts a frame as 16-bit words and a weight moves by at
most 896 a sample, so `int32_t` holds it over the 5120 samples of a
frame (`Lms.Bounded` in Proofs/Audio.lean).
-/
import Ncmips.Tjc.Format

namespace Ncmips.Tjc.Qoa

open Bits (byteAt)

-- ================================================================ tables

def kReciprocal : List Int :=
  [65536, 9363, 3121, 1457, 781, 475, 311, 216, 156, 117, 90, 71, 57, 47, 39, 32]

/-- Index: clamped residual + 8. -/
def kQuant : List Nat := [7, 7, 7, 5, 5, 3, 3, 1, 0, 0, 2, 2, 4, 4, 6, 6, 6]

def kDequant : List (List Int) := [
  [1, -1, 3, -3, 5, -5, 7, -7],
  [5, -5, 18, -18, 32, -32, 49, -49],
  [16, -16, 53, -53, 95, -95, 147, -147],
  [34, -34, 113, -113, 203, -203, 315, -315],
  [63, -63, 210, -210, 378, -378, 588, -588],
  [104, -104, 345, -345, 621, -621, 966, -966],
  [158, -158, 528, -528, 950, -950, 1477, -1477],
  [228, -228, 760, -760, 1368, -1368, 2128, -2128],
  [316, -316, 1053, -1053, 1895, -1895, 2947, -2947],
  [422, -422, 1405, -1405, 2529, -2529, 3934, -3934],
  [548, -548, 1828, -1828, 3290, -3290, 5117, -5117],
  [696, -696, 2320, -2320, 4176, -4176, 6496, -6496],
  [868, -868, 2893, -2893, 5207, -5207, 8099, -8099],
  [1064, -1064, 3548, -3548, 6386, -6386, 9933, -9933],
  [1286, -1286, 4288, -4288, 7718, -7718, 12005, -12005],
  [1536, -1536, 5120, -5120, 9216, -9216, 14336, -14336]]

def dequant (sf quantized : Nat) : Int := (kDequant.getD sf []).getD quantized 0

-- ============================================================= predictor

structure Lms where
  history : Fin 4 → Int
  weights : Fin 4 → Int

/-- The state the reference encoder starts from. -/
def initLms : Lms :=
  { history := fun _ => 0, weights := ![0, 0, -(2 ^ 13), 2 ^ 14] }

/-- The clamp only tames hostile input. -/
def predict (l : Lms) : Int :=
  let p := l.weights 0 * l.history 0 + l.weights 1 * l.history 1
    + l.weights 2 * l.history 2 + l.weights 3 * l.history 3
  min (2 ^ 24) (max (-(2 ^ 24)) (p >>> (13 : Nat)))

def update (l : Lms) (sample residual : Int) : Lms :=
  let delta := residual >>> (4 : Nat)
  { weights := fun i => l.weights i + if l.history i < 0 then -delta else delta
    history := ![l.history 1, l.history 2, l.history 3, sample] }

def clampS16 (v : Int) : Int := if v < -32768 then -32768 else if 32767 < v then 32767 else v

/-- Rounding division by a scale factor that never rounds a non-zero
value to zero. -/
def divSf (v : Int) (sf : Nat) : Int :=
  let n := (v * kReciprocal.getD sf 0 + 2 ^ 15) >>> (16 : Nat)
  n + v.sign - n.sign

-- ================================================================= words

/-- `int16_t(v)`. -/
def int16 (v : Int) : Int := v.bmod (2 ^ 16)

def putU64 (v : Nat) : List UInt8 :=
  [56, 48, 40, 32, 24, 16, 8, 0].map fun i => UInt8.ofNat (v >>> i)

/-- Big-endian, one byte after the other. -/
def getU64 (p : List UInt8) (off : Nat := 0) : Nat :=
  (List.range 8).foldl (fun v i => v <<< 8 + (byteAt p (off + i)).toNat) 0

/-- Four 16-bit words in one, first word on top. -/
def packWords (f : Fin 4 → Int) : Nat :=
  (List.finRange 4).foldl (fun v i => v <<< 16 + (f i % 2 ^ 16).toNat) 0

/-- The words back, signed. -/
def unpackWords (v : Nat) (i : Fin 4) : Int := int16 (v >>> (48 - 16 * (i : Nat)) : Nat)

def sliceCount (samples : Nat) : Nat := (samples + kSliceLen - 1) / kSliceLen

def frameSize (channels samples : Nat) : Nat :=
  8 + 16 * channels + 8 * sliceCount samples * channels

-- =============================================================== encoder

/-- A slice while a scale factor is tried on it. -/
structure Trial where
  lms : Lms
  slice : Nat
  rank : Nat

/-- One sample of a trial; `none` once the trial is worse than the best
so far. The penalty on runaway weights avoids pops in some signals. -/
def trySample (sf bestRank : Nat) (sample : Nat → Int) (t : Trial) (k : Nat) : Option Trial :=
  let predicted := predict t.lms
  let residual := sample k - predicted
  let scaled := min 8 (max (-8) (divSf residual sf))
  let quantized := kQuant.getD (scaled + 8).toNat 0
  let dequantized := dequant sf quantized
  let reconstructed := clampS16 (predicted + dequantized)
  let w := t.lms.weights
  let wp : Int := max 0 (((w 0 * w 0 + w 1 * w 1 + w 2 * w 2 + w 3 * w 3) >>> (18 : Nat)) - 0x8ff)
  let err := sample k - reconstructed
  let rank := t.rank + (err * err).toNat + (wp * wp).toNat
  if bestRank < rank then none
  else
    some
      { lms := update t.lms reconstructed dequantized
        slice := t.slice <<< 3 + quantized
        rank }

def trySlice (l : Lms) (sf bestRank len : Nat) (sample : Nat → Int) : Option Trial :=
  (List.range len).foldlM (trySample sf bestRank sample) { lms := l, slice := sf, rank := 0 }

structure Best where
  rank : Nat
  slice : Nat
  lms : Lms
  sf : Nat

def keepBest (l : Lms) (prevSf len : Nat) (sample : Nat → Int) (best : Best) (i : Nat) : Best :=
  let sf := (i + prevSf) % 16
  match trySlice l sf best.rank len sample with
  | some t =>
      if t.rank < best.rank then { rank := t.rank, slice := t.slice, lms := t.lms, sf }
      else best
  | none => best

/-- Try all 16 scale factors, starting from the last slice's, and keep
the one with the least error. -/
def encodeSlice (l : Lms) (prevSf len : Nat) (sample : Nat → Int) : Best :=
  (List.range 16).foldl (keepBest l prevSf len sample)
    { rank := 2 ^ 64 - 1, slice := 0, lms := l, sf := 0 }

/-- The frame encoder between two slices. -/
structure FrameEnc where
  lms : Nat → Lms
  prevSf : Nat → Nat
  out : List UInt8

def FrameEnc.slice (interleaved : Nat → Int) (channels start len : Nat) (e : FrameEnc) (c : Nat) :
    FrameEnc :=
  let best := encodeSlice (e.lms c) (e.prevSf c) len
    fun k => interleaved ((start + k) * channels + c)
  { prevSf := Function.update e.prevSf c best.sf
    lms := Function.update e.lms c best.lms
    out := e.out ++ putU64 (best.slice <<< ((kSliceLen - len) * 3)) }

/-- The slices of all channels from sample `kSliceLen * j` on. -/
def FrameEnc.slices (interleaved : Nat → Int) (channels samples : Nat) (e : FrameEnc) (j : Nat) :
    FrameEnc :=
  let start := kSliceLen * j
  let len := min kSliceLen (samples - start)
  (List.range channels).foldl (FrameEnc.slice interleaved channels start len) e

/-- What the decoder will read back as its predictor. -/
def Lms.narrow (l : Lms) : Lms :=
  { history := fun i => int16 (l.history i), weights := fun i => int16 (l.weights i) }

def putLms (l : Lms) : List UInt8 := putU64 (packWords l.history) ++ putU64 (packWords l.weights)

/-- The bytes up to the first slice. -/
def putHeader (channels rate samples : Nat) (lms : Nat → Lms) : List UInt8 :=
  putU64 (channels <<< 56 + rate <<< 32 + samples <<< 16 + frameSize channels samples)
    ++ (List.range channels).flatMap fun c => putLms (lms c)

/-- Encodes `samples` interleaved samples per channel as one frame; the
predictors are carried from frame to frame. -/
def encodeFrame (interleaved : Nat → Int) (channels rate samples : Nat) (lms : Nat → Lms) :
    (Nat → Lms) × List UInt8 :=
  let lms := fun c => if c < channels then (lms c).narrow else lms c
  let e := (List.range (sliceCount samples)).foldl
    (FrameEnc.slices interleaved channels samples)
    { lms, prevSf := fun _ => 0, out := putHeader channels rate samples lms }
  (e.lms, e.out)

-- =============================================================== decoder

/-- A slice while it is decoded: predictor, bits left, output. -/
structure SliceDec where
  lms : Lms
  slice : Nat
  out : Nat → Int

/-- One sample, stored where `dst` says. -/
def SliceDec.sample (sf : Nat) (dst : Nat → Nat) (s : SliceDec) (k : Nat) : SliceDec :=
  let predicted := predict s.lms
  let dequantized := dequant sf (s.slice >>> 61)
  let reconstructed := clampS16 (predicted + dequantized)
  { out := Function.update s.out (dst k) reconstructed
    slice := s.slice <<< 3 % 2 ^ 64
    lms := update s.lms reconstructed dequantized }

def decodeSlice (l : Lms) (word len : Nat) (dst : Nat → Nat) (out : Nat → Int) : SliceDec :=
  (List.range len).foldl (SliceDec.sample (word >>> 60) dst)
    { lms := l, slice := word <<< 4 % 2 ^ 64, out }

structure FrameDec where
  lms : Nat → Lms
  out : Nat → Int

def FrameDec.slice (data : List UInt8) (channels off j len : Nat) (d : FrameDec) (c : Nat) :
    FrameDec :=
  let word := getU64 data (8 + 16 * channels + 8 * (j * channels + c))
  let s := decodeSlice (d.lms c) word len
    (fun k => off + (kSliceLen * j + k) * channels + c) d.out
  { lms := Function.update d.lms c s.lms, out := s.out }

def FrameDec.slices (data : List UInt8) (channels off samples : Nat) (d : FrameDec) (j : Nat) :
    FrameDec :=
  let len := min kSliceLen (samples - kSliceLen * j)
  (List.range channels).foldl (FrameDec.slice data channels off j len) d

def getLms (data : List UInt8) (c : Nat) : Lms :=
  { history := unpackWords (getU64 data (8 + 16 * c))
    weights := unpackWords (getU64 data (8 + 16 * c + 8)) }

structure DecodedFrame where
  samples : Nat
  consumed : Nat
  dec : FrameDec

/-- Decodes one frame at the start of `data` into `out[off ..]`; `none`
for malformed data or a channel count or rate other than expected. -/
def decodeFrame (data : List UInt8) (channels rate off : Nat) (out : Nat → Int) :
    Option DecodedFrame :=
  let size := data.length
  let headerSize := 8 + 16 * channels
  if size < headerSize then none
  else
    let fh := getU64 data
    let fch := fh >>> 56
    let frate := fh >>> 32 % 2 ^ 24
    let samples := fh >>> 16 % 2 ^ 16
    let fsize := fh % 2 ^ 16
    let slices := sliceCount samples
    if fch ≠ channels ∨ frate ≠ rate ∨ samples < 1 ∨ 256 < slices ∨ size < fsize
        ∨ fsize < headerSize + 8 * slices * channels then none
    else
      some
        { samples
          consumed := fsize
          dec := (List.range slices).foldl (FrameDec.slices data channels off samples)
            { lms := getLms data, out } }

end Ncmips.Tjc.Qoa
