/-
The TJC stream format: the stream header and its checks, the tile
geometry derived from it, the padded planes, and the quant tables a
quality selects. Everything the encoder, the reference decoder and the
box's port agree on before the first coded bit.

Multi-byte stream fields are little-endian (`TJC_STREAM_BIG_ENDIAN` is
off, the default build); `size_t` and the tile geometry are naturals, a
64-bit host never gets near their limits. Fields keep the width they
have in the source, so that a header survives the trip through bytes
without side conditions.
-/
import Ncmips.Lib.Bits
import Ncmips.Lib.Indices

namespace Ncmips.Tjc

open Bits (byteAt byteAt_append_right)

-- ============================================================= constants

def kStreamHeaderSize : Nat := 34
def kStreamHeaderSizeV1 : Nat := 18
/-- Without the bitmap. -/
def kFrameHeaderSize : Nat := 5
def kMaxTilePayload : Nat := 65535

/-- `TJC_MAX_PIXELS`: the largest `width * height` the decoder takes. -/
def maxPixels : Nat := 2 ^ 26

namespace Qoa

def kSliceLen : Nat := 20
/-- Samples per channel per QOA frame. -/
def kMaxFrameLen : Nat := 256 * kSliceLen
def kMaxChannels : Nat := 8

end Qoa

-- ================================================================= types

inductive RefreshMode
  | none
  | fullPeriodic
  | rolling
  deriving DecidableEq, Repr

/-- The mode as the header byte. -/
def RefreshMode.toByte : RefreshMode → UInt8
  | .none => 0
  | .fullPeriodic => 1
  | .rolling => 2

/-- The mode of a header byte; `none` above 2. -/
def RefreshMode.ofByte? (b : UInt8) : Option RefreshMode :=
  if b = 0 then some .none
  else if b = 1 then some .fullPeriodic
  else if b = 2 then some .rolling
  else Option.none

@[simp] theorem RefreshMode.ofByte?_toByte (m : RefreshMode) :
    RefreshMode.ofByte? m.toByte = some m := by
  cases m <;> decide

inductive Status
  | ok
  | endOfStream
  | truncated
  | badHeader
  | corrupt
  | outOfMemory
  | notInitialized
  deriving DecidableEq, Repr

structure StreamHeader where
  width : UInt16 := 0
  height : UInt16 := 0
  tileW : UInt8 := 0
  tileH : UInt8 := 0
  chromaFormat : UInt8 := 0
  refreshMode : RefreshMode := .none
  refreshParam : UInt16 := 0
  quality : UInt8 := 0
  version : UInt8 := 2
  fpsNum : UInt32 := 30
  fpsDen : UInt32 := 1
  audioCodec : UInt8 := 0
  audioChannels : UInt8 := 0
  audioRate : UInt32 := 0
  deriving DecidableEq, Repr

-- ============================================================ byte order

def putU16 (v : UInt32) : List UInt8 :=
  [v.toUInt8, (v >>> 8).toUInt8]

def putU32 (v : UInt32) : List UInt8 :=
  [v.toUInt8, (v >>> 8).toUInt8, (v >>> 16).toUInt8, (v >>> 24).toUInt8]

def getU16 (p : List UInt8) (off : Nat := 0) : Nat :=
  (byteAt p off).toNat + (byteAt p (off + 1)).toNat * 2 ^ 8

def getU32 (p : List UInt8) (off : Nat := 0) : Nat :=
  (byteAt p off).toNat + (byteAt p (off + 1)).toNat * 2 ^ 8
    + (byteAt p (off + 2)).toNat * 2 ^ 16 + (byteAt p (off + 3)).toNat * 2 ^ 24

@[simp] theorem putU16_length (v : UInt32) : (putU16 v).length = 2 := by simp [putU16]
@[simp] theorem putU32_length (v : UInt32) : (putU32 v).length = 4 := by simp [putU32]

theorem getU16_lt (p : List UInt8) (off : Nat) : getU16 p off < 2 ^ 16 := by
  have h0 := (byteAt p off).toNat_lt
  have h1 := (byteAt p (off + 1)).toNat_lt
  simp only [getU16]
  omega

theorem getU32_lt (p : List UInt8) (off : Nat) : getU32 p off < 2 ^ 32 := by
  have h0 := (byteAt p off).toNat_lt
  have h1 := (byteAt p (off + 1)).toNat_lt
  have h2 := (byteAt p (off + 2)).toNat_lt
  have h3 := (byteAt p (off + 3)).toNat_lt
  simp only [getU32]
  omega

/-- A field is read where it lies. -/
theorem getU16_append (a p : List UInt8) (off : Nat) :
    getU16 (a ++ p) (a.length + off) = getU16 p off := by
  simp only [getU16, Nat.add_assoc, byteAt_append_right]

theorem getU32_append (a p : List UInt8) (off : Nat) :
    getU32 (a ++ p) (a.length + off) = getU32 p off := by
  simp only [getU32, Nat.add_assoc, byteAt_append_right]

theorem getU16_put (v : UInt32) (rest : List UInt8) :
    getU16 (putU16 v ++ rest) = v.toNat % 2 ^ 16 := by
  have h := v.toNat_lt
  simp [getU16, putU16, byteAt, Nat.shiftRight_eq_div_pow]
  omega

theorem getU32_put (v : UInt32) (rest : List UInt8) :
    getU32 (putU32 v ++ rest) = v.toNat := by
  have h := v.toNat_lt
  simp [getU32, putU32, byteAt, Nat.shiftRight_eq_div_pow]
  omega

-- ============================================================== geometry

/-- Upper bound of one tile payload: luma blocks plus the most chroma
blocks any tile position can own, at 27 bits for a DC and 26 for an AC
value. -/
def worstCaseTileBytes (tileW tileH : Nat) : Nat :=
  let luma := (tileW + 7) / 8 * ((tileH + 7) / 8)
  let chroma := ((tileW + 1) / 2 + 7) / 8 * (((tileH + 1) / 2 + 7) / 8)
  ((luma + 2 * chroma) * (27 + 63 * 26) + 7) / 8

/-- `none` if the geometry is usable, otherwise the reason. -/
def validateGeometry (width height tileW tileH : Nat) : Option String :=
  if width = 0 ∨ height = 0 ∨ 65535 < width ∨ 65535 < height then
    some "width/height must be 1..65535"
  else if tileW < 1 ∨ tileH < 1 ∨ 255 < tileW ∨ 255 < tileH then
    some "tile width/height must be 1..255"
  else if kMaxTilePayload < worstCaseTileBytes tileW tileH then
    some "tile too large: worst-case payload would not fit the 16-bit tile_len (keep w*h <= 12544, e.g. 112x112 or 128x64)"
  else none

/-- Geometry derived from the stream header. -/
structure Layout where
  width : Nat
  height : Nat
  cwidth : Nat
  cheight : Nat
  tileW : Nat
  tileH : Nat
  cols : Nat
  rows : Nat
  tiles : Nat
  pwidth : Nat
  pheight : Nat
  pcwidth : Nat
  pcheight : Nat
  deriving DecidableEq, Repr

def makeLayout (width height tileW tileH : Nat) : Layout :=
  let cols := (width + tileW - 1) / tileW
  let rows := (height + tileH - 1) / tileH
  let pwidth := cols * tileW
  let pheight := rows * tileH
  { width, height
    cwidth := (width + 1) / 2
    cheight := (height + 1) / 2
    tileW, tileH, cols, rows
    tiles := cols * rows
    pwidth, pheight
    pcwidth := (pwidth + 1) / 2
    pcheight := (pheight + 1) / 2 }

/-- Visible plane size of component `c`. -/
def visibleSize (l : Layout) (c : Fin 3) : Nat × Nat :=
  if c = 0 then (l.width, l.height) else (l.cwidth, l.cheight)

structure Rect where
  x : Nat
  y : Nat
  w : Nat
  h : Nat
  deriving DecidableEq, Repr

/-- Tile rectangle of component `c` within its padded plane. A chroma
sample belongs to the tile holding its top-left luma pixel; `w` or `h`
is 0 when a tile owns none. -/
def tileRect (l : Layout) (tile : Nat) (c : Fin 3) : Rect :=
  let x0 := tile % l.cols * l.tileW
  let y0 := tile / l.cols * l.tileH
  if c = 0 then
    { x := x0, y := y0, w := l.tileW, h := l.tileH }
  else
    let x := (x0 + 1) / 2
    let y := (y0 + 1) / 2
    { x, y, w := (x0 + l.tileW + 1) / 2 - x, h := (y0 + l.tileH + 1) / 2 - y }

/-- Top left corners, row first, of the 8x8 blocks that cover an area of
`w` x `h`, in coding order. -/
def blockOrigins (w h : Nat) : List (Nat × Nat) :=
  (List.range ((h + 7) / 8)).flatMap fun j =>
    (List.range ((w + 7) / 8)).map fun i => (8 * j, 8 * i)

-- ================================================================ planes

/-- Padded planar YUV420P storage. -/
structure Planes where
  p : Fin 3 → Array UInt8
  stride : Fin 3 → Nat

def Planes.alloc (l : Layout) : Planes :=
  let ls := l.pwidth * l.pheight
  let cs := l.pcwidth * l.pcheight
  { p := fun c => if c = 0 then Array.replicate ls 16 else Array.replicate cs 128
    stride := fun c => if c = 0 then l.pwidth else l.pcwidth }

def Planes.setPlane (f : Planes) (c : Fin 3) (a : Array UInt8) : Planes :=
  { f with p := Function.update f.p c a }

@[simp] theorem Planes.setPlane_stride (f : Planes) (c : Fin 3) (a : Array UInt8) :
    (f.setPlane c a).stride = f.stride := rfl

@[simp] theorem Planes.setPlane_self (f : Planes) (c : Fin 3) (a : Array UInt8) :
    (f.setPlane c a).p c = a := by
  simp [Planes.setPlane]

/-- Scratch memory of 64 samples or coefficients, row-major. -/
abbrev Block (α : Type) := Nat → α

/-- One row of a block store: `n` samples from column `x` on. -/
def storeRow (dst : Array UInt8) (off : Nat) (row : Nat → UInt8) (n : Nat) : Array UInt8 :=
  (List.range n).foldl (fun a x => a.setIfInBounds (off + x) (row x)) dst

/-- The covered `bw` x `bh` part of an 8x8 block into a plane. -/
def storeBlock (blk : Block UInt8) (dst : Array UInt8) (off stride bw bh : Nat) :
    Array UInt8 :=
  (List.range bh).foldl
    (fun a y => storeRow a (off + y * stride) (fun x => blk (y * 8 + x)) bw) dst

/-- The visible parts of the planes as tightly packed YUV420P. -/
def copyCropped (src : Planes) (l : Layout) : List UInt8 :=
  (List.finRange 3).flatMap fun c =>
    let (w, h) := visibleSize l c
    (List.range h).flatMap fun y =>
      (List.range w).map fun x => (src.p c).getD (y * src.stride c + x) 0

-- ================================================================ bitmap

/-- One bit a flag, lowest bit first. -/
def packBitmap (flags : Nat → Bool) (n : Nat) : List UInt8 :=
  (List.range n).foldl
    (fun out i => if flags i then out.modify (i / 8) (· ||| .ofNat (1 <<< (i % 8))) else out)
    (List.replicate ((n + 7) / 8) 0)

def unpackBitmap (inp : List UInt8) (i : Nat) : Bool :=
  (byteAt inp (i / 8)).toNat.testBit (i % 8)

-- ================================================================= stats

structure FrameStats where
  frameNum : UInt32
  forceRefresh : Bool
  dirtyTiles : Nat
  totalTiles : Nat
  /-- The frame record, audio included. -/
  bytes : Nat
  /-- Per channel; 32 bits, as the padding. -/
  audioSamples : Nat
  audioBytes : Nat
  /-- Silence the encoder had to add. -/
  audioPadded : Nat
  deriving DecidableEq, Repr

-- ========================================================== quant tables

def kStdLumaQ : List Nat := [
  16, 11, 10, 16, 24, 40, 51, 61,
  12, 12, 14, 19, 26, 58, 60, 55,
  14, 13, 16, 24, 40, 57, 69, 56,
  14, 17, 22, 29, 51, 87, 80, 62,
  18, 22, 37, 56, 68, 109, 103, 77,
  24, 35, 55, 64, 81, 104, 113, 92,
  49, 64, 78, 87, 103, 121, 120, 101,
  72, 92, 95, 98, 112, 100, 103, 99]

def kStdChromaQ : List Nat := [
  17, 18, 24, 47, 99, 99, 99, 99,
  18, 21, 26, 66, 99, 99, 99, 99,
  24, 26, 56, 99, 99, 99, 99, 99,
  47, 66, 99, 99, 99, 99, 99, 99,
  99, 99, 99, 99, 99, 99, 99, 99,
  99, 99, 99, 99, 99, 99, 99, 99,
  99, 99, 99, 99, 99, 99, 99, 99,
  99, 99, 99, 99, 99, 99, 99, 99]

/-- Zigzag position to natural (row-major) index. -/
def kZigzag : List Nat := [
  0, 1, 8, 16, 9, 2, 3, 10, 17, 24, 32, 25, 18, 11, 4, 5,
  12, 19, 26, 33, 40, 48, 41, 34, 27, 20, 13, 6, 7, 14, 21, 28,
  35, 42, 49, 56, 57, 50, 43, 36, 29, 22, 15, 23, 30, 37, 44, 51,
  58, 59, 52, 45, 38, 31, 39, 46, 53, 60, 61, 54, 47, 55, 62, 63]

def zigzag (k : Nat) : Nat := kZigzag.getD k 0

/-- The libjpeg scale factor of a quality. -/
def qualityScale (quality : Nat) : Nat :=
  let quality := min 100 (max 1 quality)
  if quality < 50 then 5000 / quality else 200 - quality * 2

/-- Quant tables for a quality, natural order: luma for `false`, chroma
for `true`. -/
def buildQuantTables (quality : Nat) (table : Bool) (i : Nat) : Nat :=
  let std := if table then kStdChromaQ else kStdLumaQ
  min 255 (max 1 ((std.getD i 0 * qualityScale quality + 50) / 100))

/-- The table a component uses: 0 for Y, 1 for Cb and Cr. -/
def compTable (c : Fin 3) : Bool := c != 0

-- ================================================================ header

/-- Writes a TJC2 header. -/
def writeStreamHeader (h : StreamHeader) : List UInt8 :=
  [0x54, 0x4a, 0x43, 0x32]
    ++ putU16 h.width.toUInt32 ++ putU16 h.height.toUInt32
    ++ [h.tileW, h.tileH, h.chromaFormat, h.refreshMode.toByte]
    ++ putU16 h.refreshParam.toUInt32 ++ [h.quality, 0, 0, 0]
    ++ putU32 h.fpsNum ++ putU32 h.fpsDen
    ++ [h.audioCodec, if h.audioCodec ≠ 0 then h.audioChannels else 0]
    ++ putU32 (if h.audioCodec ≠ 0 then h.audioRate else 0) ++ [0, 0]

/-- The TJC2-only fields of a header. -/
def parseV2Fields (inp : List UInt8) (r : StreamHeader) : Except Status StreamHeader :=
  let r := { r with
    fpsNum := .ofNat (getU32 inp 18)
    fpsDen := .ofNat (getU32 inp 22)
    audioCodec := byteAt inp 26 }
  if r.fpsNum = 0 ∨ r.fpsDen = 0 ∨ 1 < r.audioCodec then .error .badHeader
  else if r.audioCodec ≠ 0 then
    let r := { r with
      audioChannels := byteAt inp 27
      audioRate := .ofNat (getU32 inp 28) }
    if r.audioChannels < 1 ∨ Qoa.kMaxChannels < r.audioChannels.toNat
        ∨ r.audioRate < 1 ∨ 0xffffff < r.audioRate then
      .error .badHeader
    else .ok r
  else .ok r

/-- The fields both versions have. -/
def parseFields (inp : List UInt8) (r : StreamHeader) : Except Status StreamHeader :=
  let r := { r with
    width := .ofNat (getU16 inp 4)
    height := .ofNat (getU16 inp 6)
    tileW := byteAt inp 8
    tileH := byteAt inp 9
    chromaFormat := byteAt inp 10 }
  match RefreshMode.ofByte? (byteAt inp 11) with
  | none => .error .badHeader
  | some mode =>
      let r := { r with
        refreshMode := mode
        refreshParam := .ofNat (getU16 inp 12)
        quality := byteAt inp 14 }
      if r.chromaFormat ≠ 0 ∨ r.quality < 1 ∨ 100 < r.quality then .error .badHeader
      else if (validateGeometry r.width.toNat r.height.toNat
          r.tileW.toNat r.tileH.toNat).isSome then .error .badHeader
      else .ok r

/-- Parses a TJC1 or TJC2 header; `truncated` if more bytes are
needed. -/
def parseStreamHeader (inp : List UInt8) : Except Status StreamHeader :=
  if inp.length < 4 then .error .truncated
  else if byteAt inp 0 ≠ 0x54 ∨ byteAt inp 1 ≠ 0x4a ∨ byteAt inp 2 ≠ 0x43
      ∨ (byteAt inp 3 ≠ 0x31 ∧ byteAt inp 3 ≠ 0x32) then .error .badHeader
  else
    let r : StreamHeader := { version := byteAt inp 3 - 0x30 }
    if inp.length < (if r.version = 1 then kStreamHeaderSizeV1 else kStreamHeaderSize) then
      .error .truncated
    else if r.version = 2 then (parseV2Fields inp r).bind (parseFields inp)
    else parseFields inp r

end Ncmips.Tjc
