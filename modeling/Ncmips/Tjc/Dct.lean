/-
The integer DCT pair of `tjc.h` (Loeffler-Ligtenberg-Moschytz, IJG
"islow": 13-bit constants, 2 extra bits between the passes) and the
reciprocal quantiser.

All arithmetic is `int32_t` and wraps. A pass of either transform is
one butterfly on eight numbers; the source writes it out once for
columns and once for rows, here both passes call the same definition
and differ in what they do before and after it.
-/
import Ncmips.Tjc.Format

namespace Ncmips.Tjc

-- ============================================================= constants

def kConstBits : Int32 := 13
def kPass1Bits : Int32 := 2
def fix_0_298631336 : Int32 := 2446
def fix_0_390180644 : Int32 := 3196
def fix_0_541196100 : Int32 := 4433
def fix_0_765366865 : Int32 := 6270
def fix_0_899976223 : Int32 := 7373
def fix_1_175875602 : Int32 := 9633
def fix_1_501321110 : Int32 := 12299
def fix_1_847759065 : Int32 := 15137
def fix_1_961570560 : Int32 := 16069
def fix_2_053119869 : Int32 := 16819
def fix_2_562915447 : Int32 := 20995
def fix_3_072711026 : Int32 := 25172

def descale (x n : Int32) : Int32 := (x + (1 <<< (n - 1))) >>> n

def clampU8 (v : Int32) : UInt8 :=
  if v < 0 then 0 else if 255 < v then 255 else v.toUInt32.toUInt8

-- =============================================================== forward

/-- The forward butterfly on the four sums `tmp0..3` and the four
differences `tmp4..7`, before scaling; output `i` is frequency `i`. -/
def fdctButterfly (tmp : Nat → Int32) (i : Nat) : Int32 :=
  let tmp10 := tmp 0 + tmp 3
  let tmp13 := tmp 0 - tmp 3
  let tmp11 := tmp 1 + tmp 2
  let tmp12 := tmp 1 - tmp 2
  let z1 := (tmp12 + tmp13) * fix_0_541196100
  let y1 := (tmp 4 + tmp 7) * -fix_0_899976223
  let y2 := (tmp 5 + tmp 6) * -fix_2_562915447
  let y3 := tmp 4 + tmp 6
  let y4 := tmp 5 + tmp 7
  let z5 := (y3 + y4) * fix_1_175875602
  let z3 := y3 * -fix_1_961570560 + z5
  let z4 := y4 * -fix_0_390180644 + z5
  match i with
  | 0 => tmp10 + tmp11
  | 4 => tmp10 - tmp11
  | 2 => z1 + tmp13 * fix_0_765366865
  | 6 => z1 - tmp12 * fix_1_847759065
  | 7 => tmp 4 * fix_0_298631336 + y1 + z3
  | 5 => tmp 5 * fix_2_053119869 + y2 + z4
  | 3 => tmp 6 * fix_3_072711026 + y2 + z3
  | _ => tmp 7 * fix_1_501321110 + y1 + z4

/-- Sums (0..3) and differences (4..7) of eight numbers; `bias` is the
level shift, taken off the sums. -/
def fdctInputs (s : Nat → Int32) (bias : Int32) (i : Nat) : Int32 :=
  match i with
  | 0 => s 0 + s 7 - bias
  | 1 => s 1 + s 6 - bias
  | 2 => s 2 + s 5 - bias
  | 3 => s 3 + s 4 - bias
  | 4 => s 3 - s 4
  | 5 => s 2 - s 5
  | 6 => s 1 - s 6
  | _ => s 0 - s 7

def fdctRow (src : Block UInt8) (y i : Nat) : Int32 :=
  let o := fdctButterfly (fdctInputs (fun x => (src (y * 8 + x)).toUInt32.toInt32) 256) i
  if i = 0 ∨ i = 4 then o * (1 <<< kPass1Bits) else descale o (kConstBits - kPass1Bits)

def fdctCol (ws : Block Int32) (x i : Nat) : Int32 :=
  let o := fdctButterfly (fdctInputs (fun y => ws (y * 8 + x)) 0) i
  if i = 0 ∨ i = 4 then descale o kPass1Bits else descale o (kConstBits + kPass1Bits)

/-- Forward DCT of 8x8 samples, natural order, scaled up by 8. -/
def fdct8x8 (src : Block UInt8) : Block Int32 :=
  let ws : Block Int32 := fun n => fdctRow src (n / 8) (n % 8)
  fun n => fdctCol ws (n % 8) (n / 8)

-- =============================================================== inverse

/-- The inverse butterfly on eight frequencies, before the descale;
output `i` is sample `i`. -/
def idctButterfly (c : Nat → Int32) (i : Nat) : Int32 :=
  let z1 := (c 2 + c 6) * fix_0_541196100
  let e2 := z1 - c 6 * fix_1_847759065
  let e3 := z1 + c 2 * fix_0_765366865
  let e0 := (c 0 + c 4) * (1 <<< kConstBits)
  let e1 := (c 0 - c 4) * (1 <<< kConstBits)
  let tmp10 := e0 + e3
  let tmp13 := e0 - e3
  let tmp11 := e1 + e2
  let tmp12 := e1 - e2
  let z5 := (c 7 + c 3 + (c 5 + c 1)) * fix_1_175875602
  let z1 := (c 7 + c 1) * -fix_0_899976223
  let z2 := (c 5 + c 3) * -fix_2_562915447
  let z3 := (c 7 + c 3) * -fix_1_961570560 + z5
  let z4 := (c 5 + c 1) * -fix_0_390180644 + z5
  let tmp0 := c 7 * fix_0_298631336 + (z1 + z3)
  let tmp1 := c 5 * fix_2_053119869 + (z2 + z4)
  let tmp2 := c 3 * fix_3_072711026 + (z2 + z3)
  let tmp3 := c 1 * fix_1_501321110 + (z1 + z4)
  match i with
  | 0 => tmp10 + tmp3
  | 7 => tmp10 - tmp3
  | 1 => tmp11 + tmp2
  | 6 => tmp11 - tmp2
  | 2 => tmp12 + tmp1
  | 5 => tmp12 - tmp1
  | 3 => tmp13 + tmp0
  | _ => tmp13 - tmp0

/-- Pass 1: a column, short cut when its AC values are all zero. -/
def idctCol (inp : Block Int32) (x i : Nat) : Int32 :=
  let c := fun k => inp (8 * k + x)
  if c 1 ||| c 2 ||| c 3 ||| c 4 ||| c 5 ||| c 6 ||| c 7 = 0 then
    c 0 * (1 <<< kPass1Bits)
  else descale (idctButterfly c i) (kConstBits - kPass1Bits)

/-- Pass 2: a row, removing the remaining scale and the level shift. -/
def idctRow (ws : Block Int32) (y i : Nat) : UInt8 :=
  let sh := kConstBits + kPass1Bits + 3
  let r := fun k => ws (y * 8 + k)
  if r 1 ||| r 2 ||| r 3 ||| r 4 ||| r 5 ||| r 6 ||| r 7 = 0 then
    clampU8 (descale (r 0 * (1 <<< kConstBits)) sh + 128)
  else clampU8 (descale (idctButterfly r i) sh + 128)

/-- Inverse DCT of dequantised natural-order coefficients. -/
def idct8x8 (inp : Block Int32) : Block UInt8 :=
  let ws : Block Int32 := fun n => idctCol inp (n % 8) (n / 8)
  fun n => idctRow ws (n / 8) (n % 8)

/-- For blocks whose AC coefficients are all zero. -/
def idct8x8Dc (dc : Int32) : Block UInt8 :=
  let ws := dc * (1 <<< kPass1Bits)
  fun _ => clampU8 (descale (ws * (1 <<< kConstBits)) (kConstBits + kPass1Bits + 3) + 128)

-- ============================================================= quantiser

/-- `quant_recip`: the reciprocal of a divisor, scaled by 2^40. -/
def quantRecip (d : UInt32) : UInt64 := ((1 : UInt64) <<< 40) / d.toUInt64 + 1

/-- `quant_div`: `v / d`, rounded half away from zero. -/
def quantDiv (v : Int32) (d : UInt32) (recip : UInt64) : Int32 :=
  let sign := v >>> 31
  let a := ((v ^^^ sign) - sign).toUInt32 + (d >>> 1)
  let q := ((a.toUInt64 * recip) >>> 40).toUInt32.toInt32
  (q ^^^ sign) - sign

end Ncmips.Tjc
