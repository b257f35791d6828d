/-
The box's decoder, `apps/tjcplay/tjcdec.c`: a port of the decode path of
`tjc.h` to freestanding C, kept apart from it.

Everything is translated from the port, tables included; only types
that are the same structure (`HuffDec`, `Block`, `Rect`) are shared. The
port is 32-bit: positions and sizes in a payload are `uint32_t`,
offsets into a plane are `int`, and both are taken modulo 2^32. Plane
allocation succeeds, at the size asked for.
-/
import Ncmips.Tjc.Huff
import Ncmips.Tjc.Qoa

namespace Ncmips.Tjcplay

open Bits (byteAt)
open Tjc (Block HuffDec RefreshMode)

/-- A 32-bit word. -/
abbrev u32 (n : Nat) : Nat := n % 2 ^ 32

-- ================================================================ tables

def stdLumaQ : List Nat := [
  16, 11, 10, 16, 24, 40, 51, 61,
  12, 12, 14, 19, 26, 58, 60, 55,
  14, 13, 16, 24, 40, 57, 69, 56,
  14, 17, 22, 29, 51, 87, 80, 62,
  18, 22, 37, 56, 68, 109, 103, 77,
  24, 35, 55, 64, 81, 104, 113, 92,
  49, 64, 78, 87, 103, 121, 120, 101,
  72, 92, 95, 98, 112, 100, 103, 99]

def stdChromaQ : List Nat := [
  17, 18, 24, 47, 99, 99, 99, 99,
  18, 21, 26, 66, 99, 99, 99, 99,
  24, 26, 56, 99, 99, 99, 99, 99,
  47, 66, 99, 99, 99, 99, 99, 99,
  99, 99, 99, 99, 99, 99, 99, 99,
  99, 99, 99, 99, 99, 99, 99, 99,
  99, 99, 99, 99, 99, 99, 99, 99,
  99, 99, 99, 99, 99, 99, 99, 99]

def dcLumaBits : List Nat := [0, 1, 5, 1, 1, 1, 1, 1, 1, 0, 0, 0, 0, 0, 0, 0]

def dcChromaBits : List Nat := [0, 3, 1, 1, 1, 1, 1, 1, 1, 1, 1, 0, 0, 0, 0, 0]

def dcVals : List Nat := [0, 1, 2, 3, 4, 5, 6, 7, 8, 9, 10, 11]

def acLumaBits : List Nat := [0, 2, 1, 3, 3, 2, 4, 3, 5, 5, 4, 4, 0, 0, 1, 0x7d]

def acChromaBits : List Nat := [0, 2, 1, 2, 4, 4, 3, 4, 7, 5, 4, 4, 0, 1, 2, 0x77]

def acLumaVals : List Nat := [
  0x01, 0x02, 0x03, 0x00, 0x04, 0x11, 0x05, 0x12, 0x21, 0x31, 0x41, 0x06, 0x13, 0x51, 0x61, 0x07,
  0x22, 0x71, 0x14, 0x32, 0x81, 0x91, 0xa1, 0x08, 0x23, 0x42, 0xb1, 0xc1, 0x15, 0x52, 0xd1, 0xf0,
  0x24, 0x33, 0x62, 0x72, 0x82, 0x09, 0x0a, 0x16, 0x17, 0x18, 0x19, 0x1a, 0x25, 0x26, 0x27, 0x28,
  0x29, 0x2a, 0x34, 0x35, 0x36, 0x37, 0x38, 0x39, 0x3a, 0x43, 0x44, 0x45, 0x46, 0x47, 0x48, 0x49,
  0x4a, 0x53, 0x54, 0x55, 0x56, 0x57, 0x58, 0x59, 0x5a, 0x63, 0x64, 0x65, 0x66, 0x67, 0x68, 0x69,
  0x6a, 0x73, 0x74, 0x75, 0x76, 0x77, 0x78, 0x79, 0x7a, 0x83, 0x84, 0x85, 0x86, 0x87, 0x88, 0x89,
  0x8a, 0x92, 0x93, 0x94, 0x95, 0x96, 0x97, 0x98, 0x99, 0x9a, 0xa2, 0xa3, 0xa4, 0xa5, 0xa6, 0xa7,
  0xa8, 0xa9, 0xaa, 0xb2, 0xb3, 0xb4, 0xb5, 0xb6, 0xb7, 0xb8, 0xb9, 0xba, 0xc2, 0xc3, 0xc4, 0xc5,
  0xc6, 0xc7, 0xc8, 0xc9, 0xca, 0xd2, 0xd3, 0xd4, 0xd5, 0xd6, 0xd7, 0xd8, 0xd9, 0xda, 0xe1, 0xe2,
  0xe3, 0xe4, 0xe5, 0xe6, 0xe7, 0xe8, 0xe9, 0xea, 0xf1, 0xf2, 0xf3, 0xf4, 0xf5, 0xf6, 0xf7, 0xf8,
  0xf9, 0xfa]

def acChromaVals : List Nat := [
  0x00, 0x01, 0x02, 0x03, 0x11, 0x04, 0x05, 0x21, 0x31, 0x06, 0x12, 0x41, 0x51, 0x07, 0x61, 0x71,
  0x13, 0x22, 0x32, 0x81, 0x08, 0x14, 0x42, 0x91, 0xa1, 0xb1, 0xc1, 0x09, 0x23, 0x33, 0x52, 0xf0,
  0x15, 0x62, 0x72, 0xd1, 0x0a, 0x16, 0x24, 0x34, 0xe1, 0x25, 0xf1, 0x17, 0x18, 0x19, 0x1a, 0x26,
  0x27, 0x28, 0x29, 0x2a, 0x35, 0x36, 0x37, 0x38, 0x39, 0x3a, 0x43, 0x44, 0x45, 0x46, 0x47, 0x48,
  0x49, 0x4a, 0x53, 0x54, 0x55, 0x56, 0x57, 0x58, 0x59, 0x5a, 0x63, 0x64, 0x65, 0x66, 0x67, 0x68,
  0x69, 0x6a, 0x73, 0x74, 0x75, 0x76, 0x77, 0x78, 0x79, 0x7a, 0x82, 0x83, 0x84, 0x85, 0x86, 0x87,
  0x88, 0x89, 0x8a, 0x92, 0x93, 0x94, 0x95, 0x96, 0x97, 0x98, 0x99, 0x9a, 0xa2, 0xa3, 0xa4, 0xa5,
  0xa6, 0xa7, 0xa8, 0xa9, 0xaa, 0xb2, 0xb3, 0xb4, 0xb5, 0xb6, 0xb7, 0xb8, 0xb9, 0xba, 0xc2, 0xc3,
  0xc4, 0xc5, 0xc6, 0xc7, 0xc8, 0xc9, 0xca, 0xd2, 0xd3, 0xd4, 0xd5, 0xd6, 0xd7, 0xd8, 0xd9, 0xda,
  0xe2, 0xe3, 0xe4, 0xe5, 0xe6, 0xe7, 0xe8, 0xe9, 0xea, 0xf2, 0xf3, 0xf4, 0xf5, 0xf6, 0xf7, 0xf8,
  0xf9, 0xfa]

def zigzagTable : List Nat := [
  0, 1, 8, 16, 9, 2, 3, 10, 17, 24, 32, 25, 18, 11, 4, 5,
  12, 19, 26, 33, 40, 48, 41, 34, 27, 20, 13, 6, 7, 14, 21, 28,
  35, 42, 49, 56, 57, 50, 43, 36, 29, 22, 15, 23, 30, 37, 44, 51,
  58, 59, 52, 45, 38, 31, 39, 46, 53, 60, 61, 54, 47, 55, 62, 63]

def qoaDequant : List (List Int) := [
  [1, -1, 3, -3, 5, -5, 7, -7],
  [5, -5, 18, -18, 32, -32, 49, -49],
  [16, -16, 53, -53, 95, -95, 147, -147],
  [34, -34, 113, -113, 203, -203, 315, -315],
  [63, -63, 210, -210, 378, -378, 588, -588],
  [104, -104, 345, -345, 621, -621, 966, -966],
  [158, -158, 528, -528, 950, -950, 1477, -1477],
  [228, -228, 760, -760, 1368, -1368, 2128, -2128],
  [316, -316, 1053, -1053, 1895, -1895, 2947, -2947],
  [422, -422, 1405, -1405, 2529, -2529, 3934, -3934],
  [548, -548, 1828, -1828, 3290, -3290, 5117, -5117],
  [696, -696, 2320, -2320, 4176, -4176, 6496, -6496],
  [868, -868, 2893, -2893, 5207, -5207, 8099, -8099],
  [1064, -1064, 3548, -3548, 6386, -6386, 9933, -9933],
  [1286, -1286, 4288, -4288, 7718, -7718, 12005, -12005],
  [1536, -1536, 5120, -5120, 9216, -9216, 14336, -14336]]

-- =============================================================== huffman

/-- The running state of `build_huff`. -/
structure Build where
  dec : HuffDec
  code : Nat
  k : Nat

def Build.sym (vals : List Nat) (len : Nat) (b : Build) : Build :=
  let sym := vals.getD b.k 0
  let first := b.code <<< (9 - len)
  let count := 1 <<< (9 - len)
  { dec :=
      { b.dec with
        vals := Function.update b.dec.vals b.k sym
        lut := if len ≤ 9 then
            fun w => if first ≤ w ∧ w < first + count then len * 256 + sym else b.dec.lut w
          else b.dec.lut }
    k := b.k + 1
    code := b.code + 1 }

def Build.len (bits vals : List Nat) (b : Build) (len : Nat) : Build :=
  let n := bits.getD (len - 1) 0
  let b :=
    if n = 0 then
      { b with dec := { b.dec with maxcode := Function.update b.dec.maxcode len (-1) } }
    else
      let off : Int := b.k - b.code
      let b := { b with dec := { b.dec with valoff := Function.update b.dec.valoff len off } }
      let b := (Build.sym vals len)^[n] b
      { b with
        dec := { b.dec with maxcode := Function.update b.dec.maxcode len (b.code - 1) } }
  { b with code := b.code <<< 1 }

def buildHuff (bits vals : List Nat) : HuffDec :=
  ((List.range' 1 16).foldl (Build.len bits vals)
    { dec := { lut := fun _ => 0, maxcode := fun _ => 0, valoff := fun _ => 0, vals := fun _ => 0 }
      code := 0
      k := 0 }).dec

/-- `huff_dc` and `huff_ac`: `false` is luma. -/
def huffDc (table : Bool) : HuffDec :=
  if table then buildHuff dcChromaBits dcVals else buildHuff dcLumaBits dcVals

def huffAc (table : Bool) : HuffDec :=
  if table then buildHuff acChromaBits acChromaVals else buildHuff acLumaBits acLumaVals

-- ============================================================ bit reader

/-- MSB first, zero bits past the end. -/
structure BitReader where
  p : List UInt8
  size : Nat
  pos : Nat := 0
  buf : BitVec 32 := 0
  cnt : Nat := 0

def BitReader.refillStep (br : BitReader) : BitReader :=
  if br.cnt ≤ 24 then
    let b : BitVec 32 := if br.pos < br.size then (byteAt br.p br.pos).toNat else 0
    { br with
      pos := u32 (br.pos + 1)
      buf := br.buf ||| (b <<< (24 - br.cnt))
      cnt := br.cnt + 8 }
  else br

/-- `while (br->cnt <= 24)`: four turns at most. -/
def BitReader.refill (br : BitReader) : BitReader :=
  br.refillStep.refillStep.refillStep.refillStep

def BitReader.skip (br : BitReader) (n : Nat) : BitReader :=
  { br with buf := br.buf <<< n, cnt := br.cnt - n }

def brGet (br : BitReader) (n : Nat) : Nat × BitReader :=
  if n = 0 then (0, br)
  else
    let br := br.refill
    ((br.buf >>> (32 - n)).toNat, br.skip n)

/-- The codes of 10 to 16 bits. -/
def huffLong (br : BitReader) (t : HuffDec) : List Nat → Option Nat × BitReader
  | [] => (none, br)
  | len :: rest =>
      let code : Int := (br.buf >>> (32 - len)).toNat
      if code ≤ t.maxcode len then (some (t.vals (code + t.valoff len).toNat), br.skip len)
      else huffLong br t rest

def huffDecode (br : BitReader) (t : HuffDec) : Option Nat × BitReader :=
  let br := br.refill
  let e := t.lut (br.buf >>> 23).toNat
  if e ≠ 0 then (some (e % 256), br.skip (e / 256))
  else huffLong br t (List.range' 10 7)

-- ================================================================ blocks

def clampCoef (v : Int) : Int32 :=
  .ofInt (if v < -2048 then -2048 else if 2047 < v then 2047 else v)

/-- The value of `s` bits that read `a`. -/
def extend (a s : Nat) : Int := if a < 1 <<< (s - 1) then (a : Int) - ((1 <<< s : Nat) - 1) else a

def zigzag (k : Nat) : Nat := zigzagTable.getD k 0

/-- `r` is `none` for -1, else whether AC is present. -/
structure BlockOut where
  r : Option Bool
  br : BitReader
  dcPred : Int
  coef : Block Int32

def decodeAc (ac : HuffDec) (dq : Nat → Nat) :
    (fuel : Nat) → (k : Nat) → BitReader → Block Int32 → Bool →
      Option Bool × BitReader × Block Int32
  | 0, _, br, coef, hasAc => (some hasAc, br, coef)
  | fuel + 1, k, br, coef, hasAc =>
      if 64 ≤ k then (some hasAc, br, coef)
      else
        match huffDecode br ac with
        | (none, br) => (none, br, coef)
        | (some rs, br) =>
            let r := rs / 16
            let s := rs % 16
            if s = 0 then
              if r ≠ 15 then (some hasAc, br, coef)               -- EOB
              else decodeAc ac dq fuel (k + 16) br coef hasAc     -- ZRL
            else
              let k := k + r
              if 63 < k then (none, br, coef)
              else
                let (a, br) := brGet br s
                decodeAc ac dq fuel (k + 1) br
                  (Function.update coef (zigzag k) (clampCoef (extend a s * dq k))) true

def decodeBlock (br : BitReader) (table : Bool) (dq : Nat → Nat) (dcPred : Int) : BlockOut :=
  let coef : Block Int32 := fun _ => 0
  match huffDecode br (huffDc table) with
  | (none, br) => { r := none, br, dcPred, coef }
  | (some s, br) =>
      if 11 < s then { r := none, br, dcPred, coef }
      else
        let (a, br) := brGet br s
        let dcPred := dcPred + (if s ≠ 0 then extend a s else 0)
        if dcPred < -2047 ∨ 2047 < dcPred then { r := none, br, dcPred, coef }
        else
          let coef := Function.update coef 0 (clampCoef (dcPred * dq 0))
          let (r, br, coef) := decodeAc (huffAc table) dq 63 1 br coef false
          { r, br, dcPred, coef }

-- =========================================================== inverse DCT

def fix0_298631336 : Int32 := 2446
def fix0_390180644 : Int32 := 3196
def fix0_541196100 : Int32 := 4433
def fix0_765366865 : Int32 := 6270
def fix0_899976223 : Int32 := 7373
def fix1_175875602 : Int32 := 9633
def fix1_501321110 : Int32 := 12299
def fix1_847759065 : Int32 := 15137
def fix1_961570560 : Int32 := 16069
def fix2_053119869 : Int32 := 16819
def fix2_562915447 : Int32 := 20995
def fix3_072711026 : Int32 := 25172

def constBits : Int32 := 13
def pass1Bits : Int32 := 2
def sh2 : Int32 := constBits + pass1Bits + 3

def descale (x n : Int32) : Int32 := (x + ((1 : Int32) <<< (n - 1))) >>> n

def clampU8 (v : Int32) : UInt8 :=
  (if v < 0 then 0 else if v > 255 then 255 else v).toUInt32.toUInt8

/-- What both passes do with eight numbers, statement by statement,
before the result is scaled down. -/
def idctSums (c : Nat → Int32) (i : Nat) : Int32 :=
  let z2 := c 2
  let z3 := c 6
  let z1 := (z2 + z3) * fix0_541196100
  let tmp2 := z1 - z3 * fix1_847759065
  let tmp3 := z1 + z2 * fix0_765366865
  let z2 := c 0
  let z3 := c 4
  let tmp0 := (z2 + z3) * (1 <<< constBits)
  let tmp1 := (z2 - z3) * (1 <<< constBits)
  let tmp10 := tmp0 + tmp3
  let tmp13 := tmp0 - tmp3
  let tmp11 := tmp1 + tmp2
  let tmp12 := tmp1 - tmp2
  let tmp0 := c 7
  let tmp1 := c 5
  let tmp2 := c 3
  let tmp3 := c 1
  let z1 := tmp0 + tmp3
  let z2 := tmp1 + tmp2
  let z3 := tmp0 + tmp2
  let z4 := tmp1 + tmp3
  let z5 := (z3 + z4) * fix1_175875602
  let tmp0 := tmp0 * fix0_298631336
  let tmp1 := tmp1 * fix2_053119869
  let tmp2 := tmp2 * fix3_072711026
  let tmp3 := tmp3 * fix1_501321110
  let z1 := z1 * -fix0_899976223
  let z2 := z2 * -fix2_562915447
  let z3 := z3 * -fix1_961570560
  let z4 := z4 * -fix0_390180644
  let z3 := z3 + z5
  let z4 := z4 + z5
  let tmp0 := tmp0 + (z1 + z3)
  let tmp1 := tmp1 + (z2 + z4)
  let tmp2 := tmp2 + (z2 + z3)
  let tmp3 := tmp3 + (z1 + z4)
  match i with
  | 0 => tmp10 + tmp3
  | 7 => tmp10 - tmp3
  | 1 => tmp11 + tmp2
  | 6 => tmp11 - tmp2
  | 2 => tmp12 + tmp1
  | 5 => tmp12 - tmp1
  | 3 => tmp13 + tmp0
  | _ => tmp13 - tmp0

/-- A column, top down: `c k` is `in[8 * k + x]`, the result `w[8 * i]`. -/
def idctColumn (c : Nat → Int32) (i : Nat) : Int32 :=
  if c 1 ||| c 2 ||| c 3 ||| c 4 ||| c 5 ||| c 6 ||| c 7 = 0 then c 0 * (1 <<< pass1Bits)
  else descale (idctSums c i) (constBits - pass1Bits)

/-- A row, left to right. -/
def idctRow (r : Nat → Int32) (i : Nat) : UInt8 :=
  if r 1 ||| r 2 ||| r 3 ||| r 4 ||| r 5 ||| r 6 ||| r 7 = 0 then
    clampU8 (descale (r 0 * (1 <<< constBits)) sh2 + 128)
  else clampU8 (descale (idctSums r i) sh2 + 128)

def idct8x8 (inp : Block Int32) : Block UInt8 :=
  let ws : Block Int32 := fun n => idctColumn (fun k => inp (8 * k + n % 8)) (n / 8)
  fun n => idctRow (fun k => ws (n / 8 * 8 + k)) (n % 8)

def idct8x8Dc (dc : Int32) : Block UInt8 :=
  let ws := dc * (1 <<< pass1Bits)
  fun _ => clampU8 (descale (ws * (1 <<< constBits)) sh2 + 128)

-- ================================================================ header

structure Header where
  version : Nat := 0
  width : Nat := 0
  height : Nat := 0
  tileW : Nat := 0
  tileH : Nat := 0
  refreshMode : Nat := 0
  refreshParam : Nat := 0
  quality : Nat := 0
  fpsNum : Nat := 0
  fpsDen : Nat := 0
  audioCodec : Nat := 0
  audioChannels : Nat := 0
  audioRate : Nat := 0
  deriving DecidableEq, Repr

def tjcU16 (p : List UInt8) (off : Nat) : Nat :=
  (byteAt p off).toNat + (byteAt p (off + 1)).toNat * 2 ^ 8

def tjcU32 (p : List UInt8) (off : Nat) : Nat :=
  (byteAt p off).toNat + (byteAt p (off + 1)).toNat * 2 ^ 8
    + (byteAt p (off + 2)).toNat * 2 ^ 16 + (byteAt p (off + 3)).toNat * 2 ^ 24

def hdrSizeV1 : Nat := 18
def hdrSize : Nat := 34
def qoaMaxCh : Nat := 8

def worstCaseTileBytes (tileW tileH : Nat) : Nat :=
  let luma := u32 ((tileW + 7) / 8 * ((tileH + 7) / 8))
  let chroma := u32 (((tileW + 1) / 2 + 7) / 8 * (((tileH + 1) / 2 + 7) / 8))
  u32 ((luma + 2 * chroma) * (27 + 63 * 26) + 7) / 8

/-- What `tjc_parse_header` returns. -/
inductive Parsed
  | more
  | bad
  | ok (need : Nat) (h : Header)
  deriving DecidableEq, Repr

/-- The fields a TJC2 header adds; `none` if they are bad. -/
def parseV2 (inp : List UInt8) (r : Header) : Option Header :=
  let r := { r with
    fpsNum := tjcU32 inp 18
    fpsDen := tjcU32 inp 22
    audioCodec := (byteAt inp 26).toNat }
  if r.fpsNum = 0 ∨ r.fpsDen = 0 ∨ 1 < r.audioCodec then none
  else if r.audioCodec ≠ 0 then
    let r := { r with audioChannels := (byteAt inp 27).toNat, audioRate := tjcU32 inp 28 }
    if r.audioChannels < 1 ∨ qoaMaxCh < r.audioChannels ∨ r.audioRate < 1
        ∨ 0xffffff < r.audioRate then none
    else some r
  else some r

def parseGeometry (inp : List UInt8) (need : Nat) (r : Header) : Parsed :=
  let r := { r with
    width := tjcU16 inp 4
    height := tjcU16 inp 6
    tileW := (byteAt inp 8).toNat
    tileH := (byteAt inp 9).toNat }
  if byteAt inp 10 ≠ 0 ∨ 2 < byteAt inp 11 then .bad
  else
    let r := { r with
      refreshMode := (byteAt inp 11).toNat
      refreshParam := tjcU16 inp 12
      quality := (byteAt inp 14).toNat }
    if r.quality < 1 ∨ 100 < r.quality ∨ r.width < 1 ∨ r.height < 1 ∨ r.tileW < 1
        ∨ r.tileH < 1 ∨ 65535 < worstCaseTileBytes r.tileW r.tileH then .bad
    else .ok need r

/-- `n` is the number of bytes there are. -/
def tjcParseHeader (inp : List UInt8) (n : Nat) : Parsed :=
  if n < 4 then .more
  else if byteAt inp 0 ≠ 0x54 ∨ byteAt inp 1 ≠ 0x4a ∨ byteAt inp 2 ≠ 0x43
      ∨ (byteAt inp 3 ≠ 0x31 ∧ byteAt inp 3 ≠ 0x32) then .bad
  else
    let r : Header := { version := (byteAt inp 3).toNat - 0x30 }
    let need := if r.version = 1 then hdrSizeV1 else hdrSize
    if n < need then .more
    else
      let r := { r with fpsNum := 30, fpsDen := 1 }
      if r.version = 2 then
        match parseV2 inp r with
        | none => .bad
        | some r => parseGeometry inp need r
      else parseGeometry inp need r

-- =============================================================== decoder

/-- `struct tjc_dec`. -/
structure Dec where
  h : Header
  cwidth : Nat
  cheight : Nat
  cols : Nat
  rows : Nat
  tiles : Nat
  pwidth : Nat
  pheight : Nat
  pcwidth : Nat
  pcheight : Nat
  plane : Fin 3 → Array UInt8
  stride : Fin 3 → Nat
  /-- Zigzag order. -/
  dq : Bool → Nat → Nat

def quantEntry (std : List Nat) (scale k : Nat) : Nat :=
  let l := (std.getD (zigzag k) 0 * scale + 50) / 100
  if l < 1 then 1 else if 255 < l then 255 else l

def tjcDecInit (h : Header) : Dec :=
  let scale := if h.quality < 50 then 5000 / h.quality else 200 - h.quality * 2
  let cols := (h.width + h.tileW - 1) / h.tileW
  let rows := (h.height + h.tileH - 1) / h.tileH
  let pwidth := cols * h.tileW
  let pheight := rows * h.tileH
  let pcwidth := (pwidth + 1) / 2
  let pcheight := (pheight + 1) / 2
  let ls := u32 (pwidth * pheight)
  let cs := u32 (pcwidth * pcheight)
  { h
    cwidth := (h.width + 1) / 2
    cheight := (h.height + 1) / 2
    cols, rows
    tiles := cols * rows
    pwidth, pheight, pcwidth, pcheight
    plane := ![Array.replicate ls 16, Array.replicate cs 128, Array.replicate cs 128]
    stride := ![pwidth, pcwidth, pcwidth]
    dq := fun table k =>
      if table then quantEntry stdChromaQ scale k else quantEntry stdLumaQ scale k }

def tjcTileRect (d : Dec) (tile : Nat) (c : Fin 3) : Tjc.Rect :=
  let x0 := tile % d.cols * d.h.tileW
  let y0 := tile / d.cols * d.h.tileH
  if c = 0 then { x := x0, y := y0, w := d.h.tileW, h := d.h.tileH }
  else
    { x := (x0 + 1) / 2
      y := (y0 + 1) / 2
      w := (x0 + d.h.tileW + 1) / 2 - (x0 + 1) / 2
      h := (y0 + d.h.tileH + 1) / 2 - (y0 + 1) / 2 }

/-- `bw` x `bh` samples of a block to `dst`, row by row; offsets are
32-bit. -/
def storeBlock (blk : Block UInt8) (plane : Array UInt8) (dst stride bw bh : Nat) : Array UInt8 :=
  (List.range bh).foldl
    (fun a yy => (List.range bw).foldl
      (fun a xx => a.setIfInBounds (u32 (dst + u32 (yy * stride) + xx)) (blk (yy * 8 + xx))) a)
    plane

/-- The blocks of one component, from `by`, `bx` on in loop order. -/
def decodeBlocks (table : Bool) (dq : Nat → Nat) (r : Tjc.Rect) (stride : Nat) :
    List (Nat × Nat) → BitReader → Int → Array UInt8 → Option BitReader × Array UInt8
  | [], br, _, plane => (some br, plane)
  | (y, x) :: rest, br, pred, plane =>
      let out := decodeBlock br table dq pred
      let dst := u32 (u32 ((r.y + y) * stride) + r.x + x)
      let bw := if r.w - x < 8 then r.w - x else 8
      let bh := if r.h - y < 8 then r.h - y else 8
      match out.r with
      | none => (none, plane)
      | some hasAc =>
          let blk := if hasAc then idct8x8 out.coef else idct8x8Dc (out.coef 0)
          decodeBlocks table dq r stride rest out.br out.dcPred
            (storeBlock blk plane dst stride bw bh)

def decodeComps (d : Dec) (tile : Nat) :
    List (Fin 3) → BitReader → (Fin 3 → Array UInt8) → Option BitReader × (Fin 3 → Array UInt8)
  | [], br, plane => (some br, plane)
  | c :: cs, br, plane =>
      let table := c ≠ 0
      let r := tjcTileRect d tile c
      match decodeBlocks table (d.dq table) r (d.stride c) (Tjc.blockOrigins r.w r.h) br 0
          (plane c) with
      | (none, a) => (none, Function.update plane c a)
      | (some br, a) => decodeComps d tile cs br (Function.update plane c a)

/-- `true` for 0 = ok, `false` for -1 = corrupt. -/
def tjcDecodeTile (d : Dec) (data : List UInt8) (size tile : Nat) : Bool × Dec :=
  match decodeComps d tile [0, 1, 2] { p := data, size } d.plane with
  | (none, plane) => (false, { d with plane })
  | (some br, plane) =>
      -- more bits consumed than the payload holds = corrupt
      (¬ u32 (size * 8) < u32 (u32 (br.pos * 8) + 2 ^ 32 - br.cnt), { d with plane })

-- ================================================================= audio

def getBe64 (p : List UInt8) (off : Nat) : Nat :=
  let b := fun i => (byteAt p (off + i)).toNat
  (b 0 * 2 ^ 24 + b 1 * 2 ^ 16 + b 2 * 2 ^ 8 + b 3) * 2 ^ 32
    + (b 4 * 2 ^ 24 + b 5 * 2 ^ 16 + b 6 * 2 ^ 8 + b 7)

/-- One channel's `hist` and `wt`. -/
structure Chan where
  h : Fin 4 → Int
  w : Fin 4 → Int

structure SliceState where
  chan : Chan
  slice : Nat
  out : Nat → Int

def qoaSample (dq : List Int) (o channels : Nat) (s : SliceState) (k : Nat) : SliceState :=
  let h := s.chan.h
  let w := s.chan.w
  let dequantized := dq.getD (s.slice >>> 61) 0
  let pr := (w 0 * h 0 + w 1 * h 1 + w 2 * h 2 + w 3 * h 3) >>> (13 : Nat)
  let predicted := if pr < -(2 ^ 24) then -(2 ^ 24) else if pr > 2 ^ 24 then 2 ^ 24 else pr
  let recon := predicted + dequantized
  let recon := if recon < -32768 then -32768 else if recon > 32767 then 32767 else recon
  let delta := dequantized >>> (4 : Nat)
  { out := Function.update s.out (o + k * channels) recon
    slice := s.slice <<< 3 % 2 ^ 64
    chan :=
      { w := ![w 0 + if h 0 < 0 then -delta else delta, w 1 + if h 1 < 0 then -delta else delta,
          w 2 + if h 2 < 0 then -delta else delta, w 3 + if h 3 < 0 then -delta else delta]
        h := ![h 1, h 2, h 3, recon] } }

structure QoaState where
  chan : Nat → Chan
  out : Nat → Int

/-- A slice of channel `c`; slice words lie one after the other, channel
by channel. -/
def qoaSlice (data : List UInt8) (channels out start len : Nat) (q : QoaState) (c : Nat) :
    QoaState :=
  let slice := getBe64 data (8 + 16 * channels + 8 * (start / 20 * channels + c))
  let s := (List.range len).foldl
    (qoaSample (qoaDequant.getD (slice >>> 60) []) (out + start * channels + c) channels)
    { chan := q.chan c, slice := slice <<< 4 % 2 ^ 64, out := q.out }
  { chan := Function.update q.chan c s.chan, out := s.out }

def qoaChan (data : List UInt8) (c : Nat) : Chan :=
  let word := fun off => Tjc.Qoa.int16
    ((byteAt data off).toNat * 2 ^ 8 + (byteAt data (off + 1)).toNat : Nat)
  { h := fun i => word (8 + 16 * c + 2 * i), w := fun i => word (8 + 16 * c + 8 + 2 * i) }

/-- Samples per channel, consumed length, and the state with the output
from `out` on; `none` for -1. -/
def tjcQoaDecode (data : List UInt8) (size channels rate out : Nat) (mem : Nat → Int) :
    Option (Nat × Nat × QoaState) :=
  let b := fun i => (byteAt data i).toNat
  let headerSize := u32 (8 + 16 * channels)
  if size < headerSize then none
  else
    let hi := b 0 * 2 ^ 24 + b 1 * 2 ^ 16 + b 2 * 2 ^ 8 + b 3
    let fch := hi >>> 24
    let frate := hi % 2 ^ 24
    let samples := b 4 * 2 ^ 8 + b 5
    let fsize := b 6 * 2 ^ 8 + b 7
    let slices := (samples + 20 - 1) / 20
    if fch ≠ channels ∨ frate ≠ rate ∨ samples < 1 ∨ 256 < slices ∨ size < fsize
        ∨ fsize < u32 (headerSize + 8 * slices * channels) then none
    else
      let q := (List.range slices).foldl
        (fun q j => (List.range channels).foldl
          (qoaSlice data channels out (20 * j) (min (samples - 20 * j) 20)) q)
        { chan := qoaChan data, out := mem }
      some (samples, fsize, q)

end Ncmips.Tjcplay
