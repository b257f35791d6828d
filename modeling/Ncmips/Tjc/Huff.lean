/-
Entropy coding of `tjc.h`: the static JPEG Huffman tables and their
canonical construction, the bit writer and the bit reader, and the
coding of one block.

Table memory is a function that starts as zeros (`memset`) and is
updated entry by entry. The accumulator of the writer and the window of
the reader are the 32-bit words of the source; the reader goes on with
zero bytes past its input, as the source does, and `overrun` is asked
once at the end of a tile.
-/
import Ncmips.Tjc.Dct

namespace Ncmips.Tjc

open Bits (byteAt)

-- ================================================================ tables

def kDcLumaBits : List Nat := [0, 1, 5, 1, 1, 1, 1, 1, 1, 0, 0, 0, 0, 0, 0, 0]
def kDcLumaVals : List Nat := [0, 1, 2, 3, 4, 5, 6, 7, 8, 9, 10, 11]
def kDcChromaBits : List Nat := [0, 3, 1, 1, 1, 1, 1, 1, 1, 1, 1, 0, 0, 0, 0, 0]
def kDcChromaVals : List Nat := [0, 1, 2, 3, 4, 5, 6, 7, 8, 9, 10, 11]

def kAcLumaBits : List Nat := [0, 2, 1, 3, 3, 2, 4, 3, 5, 5, 4, 4, 0, 0, 1, 0x7d]
def kAcLumaVals : List Nat := [
  0x01, 0x02, 0x03, 0x00, 0x04, 0x11, 0x05, 0x12, 0x21, 0x31, 0x41, 0x06, 0x13, 0x51, 0x61, 0x07,
  0x22, 0x71, 0x14, 0x32, 0x81, 0x91, 0xa1, 0x08, 0x23, 0x42, 0xb1, 0xc1, 0x15, 0x52, 0xd1, 0xf0,
  0x24, 0x33, 0x62, 0x72, 0x82, 0x09, 0x0a, 0x16, 0x17, 0x18, 0x19, 0x1a, 0x25, 0x26, 0x27, 0x28,
  0x29, 0x2a, 0x34, 0x35, 0x36, 0x37, 0x38, 0x39, 0x3a, 0x43, 0x44, 0x45, 0x46, 0x47, 0x48, 0x49,
  0x4a, 0x53, 0x54, 0x55, 0x56, 0x57, 0x58, 0x59, 0x5a, 0x63, 0x64, 0x65, 0x66, 0x67, 0x68, 0x69,
  0x6a, 0x73, 0x74, 0x75, 0x76, 0x77, 0x78, 0x79, 0x7a, 0x83, 0x84, 0x85, 0x86, 0x87, 0x88, 0x89,
  0x8a, 0x92, 0x93, 0x94, 0x95, 0x96, 0x97, 0x98, 0x99, 0x9a, 0xa2, 0xa3, 0xa4, 0xa5, 0xa6, 0xa7,
  0xa8, 0xa9, 0xaa, 0xb2, 0xb3, 0xb4, 0xb5, 0xb6, 0xb7, 0xb8, 0xb9, 0xba, 0xc2, 0xc3, 0xc4, 0xc5,
  0xc6, 0xc7, 0xc8, 0xc9, 0xca, 0xd2, 0xd3, 0xd4, 0xd5, 0xd6, 0xd7, 0xd8, 0xd9, 0xda, 0xe1, 0xe2,
  0xe3, 0xe4, 0xe5, 0xe6, 0xe7, 0xe8, 0xe9, 0xea, 0xf1, 0xf2, 0xf3, 0xf4, 0xf5, 0xf6, 0xf7, 0xf8,
  0xf9, 0xfa]

def kAcChromaBits : List Nat := [0, 2, 1, 2, 4, 4, 3, 4, 7, 5, 4, 4, 0, 1, 2, 0x77]
def kAcChromaVals : List Nat := [
  0x00, 0x01, 0x02, 0x03, 0x11, 0x04, 0x05, 0x21, 0x31, 0x06, 0x12, 0x41, 0x51, 0x07, 0x61, 0x71,
  0x13, 0x22, 0x32, 0x81, 0x08, 0x14, 0x42, 0x91, 0xa1, 0xb1, 0xc1, 0x09, 0x23, 0x33, 0x52, 0xf0,
  0x15, 0x62, 0x72, 0xd1, 0x0a, 0x16, 0x24, 0x34, 0xe1, 0x25, 0xf1, 0x17, 0x18, 0x19, 0x1a, 0x26,
  0x27, 0x28, 0x29, 0x2a, 0x35, 0x36, 0x37, 0x38, 0x39, 0x3a, 0x43, 0x44, 0x45, 0x46, 0x47, 0x48,
  0x49, 0x4a, 0x53, 0x54, 0x55, 0x56, 0x57, 0x58, 0x59, 0x5a, 0x63, 0x64, 0x65, 0x66, 0x67, 0x68,
  0x69, 0x6a, 0x73, 0x74, 0x75, 0x76, 0x77, 0x78, 0x79, 0x7a, 0x82, 0x83, 0x84, 0x85, 0x86, 0x87,
  0x88, 0x89, 0x8a, 0x92, 0x93, 0x94, 0x95, 0x96, 0x97, 0x98, 0x99, 0x9a, 0xa2, 0xa3, 0xa4, 0xa5,
  0xa6, 0xa7, 0xa8, 0xa9, 0xaa, 0xb2, 0xb3, 0xb4, 0xb5, 0xb6, 0xb7, 0xb8, 0xb9, 0xba, 0xc2, 0xc3,
  0xc4, 0xc5, 0xc6, 0xc7, 0xc8, 0xc9, 0xca, 0xd2, 0xd3, 0xd4, 0xd5, 0xd6, 0xd7, 0xd8, 0xd9, 0xda,
  0xe2, 0xe3, 0xe4, 0xe5, 0xe6, 0xe7, 0xe8, 0xe9, 0xea, 0xf2, 0xf3, 0xf4, 0xf5, 0xf6, 0xf7, 0xf8,
  0xf9, 0xfa]

/-- Encoder table: `size` 0 = symbol not in the table. -/
structure HuffEnc where
  code : Nat → Nat
  size : Nat → Nat

/-- Decoder table; `lut` is the 9-bit lookahead, `length * 256 + symbol`
or 0 for a longer code. -/
structure HuffDec where
  lut : Nat → Nat
  maxcode : Nat → Int
  valoff : Nat → Int
  vals : Nat → Nat

/-- The running state of `build_huff`. -/
structure HuffBuild where
  enc : HuffEnc
  dec : HuffDec
  code : Nat
  k : Nat

def HuffBuild.init : HuffBuild :=
  { enc := { code := fun _ => 0, size := fun _ => 0 }
    dec := { lut := fun _ => 0, maxcode := fun _ => 0, valoff := fun _ => 0
             vals := fun _ => 0 }
    code := 0
    k := 0 }

/-- The loop `for j < count: lut[first + j] = v`. -/
def fillLut (lut : Nat → Nat) (first count v : Nat) : Nat → Nat :=
  fun w => if first ≤ w ∧ w < first + count then v else lut w

/-- One symbol of length `len`. -/
def HuffBuild.sym (vals : List Nat) (len : Nat) (b : HuffBuild) : HuffBuild :=
  let sym := vals.getD b.k 0
  { enc :=
      { code := Function.update b.enc.code sym (b.code % 2 ^ 16)
        size := Function.update b.enc.size sym len }
    dec :=
      { b.dec with
        vals := Function.update b.dec.vals b.k sym
        lut :=
          if len ≤ 9 then
            fillLut b.dec.lut (b.code <<< (9 - len)) (1 <<< (9 - len)) (len * 256 + sym)
          else b.dec.lut }
    code := b.code + 1
    k := b.k + 1 }

/-- All symbols of length `len`. -/
def HuffBuild.len (bits vals : List Nat) (b : HuffBuild) (len : Nat) : HuffBuild :=
  let n := bits.getD (len - 1) 0
  let b :=
    if n = 0 then
      { b with dec := { b.dec with maxcode := Function.update b.dec.maxcode len (-1) } }
    else
      let off : Int := b.k - b.code
      let b := { b with dec := { b.dec with valoff := Function.update b.dec.valoff len off } }
      let b := (HuffBuild.sym vals len)^[n] b
      { b with
        dec := { b.dec with maxcode := Function.update b.dec.maxcode len (b.code - 1) } }
  { b with code := b.code <<< 1 }

def buildHuff (bits vals : List Nat) : HuffBuild :=
  (List.range' 1 16).foldl (HuffBuild.len bits vals) .init

/-- The tables of `huff_tables ()`; the index is `false` for luma and
`true` for chroma. -/
def dcTable (t : Bool) : HuffBuild :=
  if t then buildHuff kDcChromaBits kDcChromaVals else buildHuff kDcLumaBits kDcLumaVals

def acTable (t : Bool) : HuffBuild :=
  if t then buildHuff kAcChromaBits kAcChromaVals else buildHuff kAcLumaBits kAcLumaVals

-- ================================================================ writer

structure BitWriter where
  out : List UInt8 := []
  acc : BitVec 32 := 0
  n : Nat := 0

/-- `while (n_ >= 8)`: whole bytes leave the accumulator. -/
def BitWriter.drain (bw : BitWriter) : BitWriter :=
  if 8 ≤ bw.n then
    BitWriter.drain
      { bw with
        n := bw.n - 8
        out := bw.out ++ [.ofNat (bw.acc >>> (bw.n - 8)).toNat] }
  else bw
termination_by bw.n

def BitWriter.put (bw : BitWriter) (bits : BitVec 32) (len : Nat) : BitWriter :=
  if len = 0 then bw
  else
    BitWriter.drain
      { bw with
        acc := (bw.acc <<< len) ||| (bits &&& (((1 : BitVec 32) <<< len) - 1))
        n := bw.n + len }

/-- Pad the last byte with zeros. -/
def BitWriter.flush (bw : BitWriter) : List UInt8 :=
  if 0 < bw.n then bw.out ++ [.ofNat (bw.acc <<< (8 - bw.n)).toNat] else bw.out

-- ================================================================ reader

structure BitReader where
  data : List UInt8
  pos : Nat := 0
  buf : BitVec 32 := 0
  cnt : Nat := 0

/-- One turn of the refill loop. -/
def BitReader.refillStep (br : BitReader) : BitReader :=
  if br.cnt ≤ 24 then
    let b : BitVec 32 := if br.pos < br.data.length then (byteAt br.data br.pos).toNat else 0
    { br with
      pos := br.pos + 1
      buf := br.buf ||| (b <<< (24 - br.cnt))
      cnt := br.cnt + 8 }
  else br

/-- `while (cnt_ <= 24)`: four turns are the most it makes. -/
def BitReader.refill (br : BitReader) : BitReader :=
  br.refillStep.refillStep.refillStep.refillStep

def BitReader.peek (br : BitReader) (n : Nat) : Nat := (br.buf >>> (32 - n)).toNat

def BitReader.skip (br : BitReader) (n : Nat) : BitReader :=
  { br with buf := br.buf <<< n, cnt := br.cnt - n }

def BitReader.get (br : BitReader) (n : Nat) : Nat × BitReader :=
  if n = 0 then (0, br)
  else
    let br := br.refill
    (br.peek n, br.skip n)

/-- More bits were consumed than the buffer holds. -/
def BitReader.overrun (br : BitReader) : Bool :=
  br.data.length * 8 < br.pos * 8 - br.cnt

/-- The codes of 10 to 16 bits, shortest first. -/
def huffLong (br : BitReader) (t : HuffDec) : List Nat → Option Nat × BitReader
  | [] => (none, br)
  | len :: rest =>
      let code : Int := br.peek len
      if code ≤ t.maxcode len then
        (some (t.vals (code + t.valoff len).toNat), br.skip len)
      else huffLong br t rest

/-- The decoded symbol, or `none` for an invalid code. -/
def huffDecode (br : BitReader) (t : HuffDec) : Option Nat × BitReader :=
  let br := br.refill
  let e := t.lut (br.peek 9)
  if e ≠ 0 then (some (e % 256), br.skip (e / 256))
  else huffLong br t (List.range' 10 7)

-- ================================================================ blocks

/-- Number of significant bits. -/
def bitCount (v : Nat) : Nat :=
  if v = 0 then 0 else bitCount (v / 2) + 1
termination_by v
decreasing_by omega

/-- The bits that tell `v` from the other values of its size: the value
itself, or one less for a negative one. -/
def valueBits (v : Int) : BitVec 32 :=
  BitVec.ofInt 32 (if v < 0 then v - 1 else v)

/-- The inverse of `valueBits` on `s` bits. -/
def extendValue (v s : Nat) : Int :=
  if v < 1 <<< (s - 1) then (v : Int) - ((1 <<< s : Nat) - 1) else v

/-- `bw.put(t.code[sym], t.size[sym])`. -/
def BitWriter.putSym (bw : BitWriter) (t : HuffEnc) (sym : Nat) : BitWriter :=
  bw.put (BitVec.ofNat 32 (t.code sym)) (t.size sym)

/-- `while (run > 15)`: zero-run codes, and what is left of the run. -/
def encodeZrl (t : HuffEnc) (run : Nat) (bw : BitWriter) : Nat × BitWriter :=
  if 15 < run then encodeZrl t (run - 16) (bw.putSym t 0xf0) else (run, bw)
termination_by run

/-- The loop over the AC coefficients still to code. -/
def encodeAc (t : HuffEnc) : List Int → Nat → BitWriter → BitWriter
  | [], run, bw => if run ≠ 0 then bw.putSym t 0x00 else bw
  | v :: vs, run, bw =>
      if v = 0 then encodeAc t vs (run + 1) bw
      else
        let (run, bw) := encodeZrl t run bw
        let s := bitCount v.natAbs
        let bw := bw.putSym t (run * 16 + s)
        encodeAc t vs 0 (bw.put (valueBits v) s)

/-- Entropy-codes the quantised coefficients `zz 0 .. zz 63`, given in
zigzag order; the new DC predictor is `zz 0`. -/
def encodeBlock (bw : BitWriter) (zz : Nat → Int) (dcPred : Int) (table : Bool) :
    BitWriter × Int :=
  let diff := zz 0 - dcPred
  let s := bitCount diff.natAbs
  let bw := bw.putSym (dcTable table).enc s
  let bw := bw.put (valueBits diff) s
  (encodeAc (acTable table).enc ((List.range' 1 63).map zz) 0 bw, zz 0)

/-- A dequantised coefficient, clamped to [-2048, 2047]. -/
def clampCoef (v : Int) : Int32 := .ofInt (min 2047 (max (-2048) v))

/-- What decoding a block leaves: `r` is `none` on bad data, `some false`
when only DC is present, `some true` when any AC is. -/
structure BlockOut where
  r : Option Bool
  br : BitReader
  pred : Int
  coef : Block Int32

/-- The AC loop from coefficient `k` on. Each turn moves `k` on, so 63
turns reach 64. -/
def decodeAc (t : HuffDec) (dq : Nat → Nat) :
    (fuel : Nat) → (k : Nat) → BitReader → Block Int32 → Bool →
      Option Bool × BitReader × Block Int32
  | 0, _, br, coef, hasAc => (some hasAc, br, coef)
  | fuel + 1, k, br, coef, hasAc =>
      if 64 ≤ k then (some hasAc, br, coef)
      else
        match huffDecode br t with
        | (none, br) => (none, br, coef)
        | (some rs, br) =>
            let r := rs / 16
            let s := rs % 16
            if s = 0 then
              if r ≠ 15 then (some hasAc, br, coef)             -- EOB
              else decodeAc t dq fuel (k + 16) br coef hasAc    -- ZRL
            else
              let k := k + r
              if 63 < k then (none, br, coef)
              else
                let (a, br) := br.get s
                let v := extendValue a s * dq k
                decodeAc t dq fuel (k + 1) br
                  (Function.update coef (zigzag k) (clampCoef v)) true

/-- Decodes one block into natural-order dequantised coefficients; `dq`
is the quant table in zigzag order. -/
def decodeBlock (br : BitReader) (table : Bool) (dq : Nat → Nat) (dcPred : Int) : BlockOut :=
  let coef : Block Int32 := fun _ => 0
  match huffDecode br (dcTable table).dec with
  | (none, br) => { r := none, br, pred := dcPred, coef }
  | (some s, br) =>
      if 11 < s then { r := none, br, pred := dcPred, coef }
      else
        let (v, br) := br.get s
        let pred := dcPred + (if s ≠ 0 then extendValue v s else 0)
        if pred < -2047 ∨ 2047 < pred then { r := none, br, pred, coef }
        else
          let coef := Function.update coef 0 (clampCoef (pred * dq 0))
          let (r, br, coef) := decodeAc (acTable table).dec dq 63 1 br coef false
          { r, br, pred, coef }

end Ncmips.Tjc
