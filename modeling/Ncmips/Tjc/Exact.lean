/-
The integer transforms of `tjc.h` over unbounded integers, and every sum
and product they come to on the way.

The formulas are those of the transforms in words, written once more over
`Int`; `…Steps` lists the intermediates in the source's order.
-/
import Ncmips.Lib.Fits
import Ncmips.Tjc.Dct

namespace Ncmips.Tjc.Exact

/-- Rounded to the nearest, half upwards. -/
def descale (x : Int) (n : Nat) : Int := (x + 2 ^ (n - 1)) / 2 ^ n

-- =============================================================== forward

def fdctButterfly (tmp : Nat → Int) (i : Nat) : Int :=
  let tmp10 := tmp 0 + tmp 3
  let tmp13 := tmp 0 - tmp 3
  let tmp11 := tmp 1 + tmp 2
  let tmp12 := tmp 1 - tmp 2
  let z1 := (tmp12 + tmp13) * 4433
  let y1 := (tmp 4 + tmp 7) * -7373
  let y2 := (tmp 5 + tmp 6) * -20995
  let y3 := tmp 4 + tmp 6
  let y4 := tmp 5 + tmp 7
  let z5 := (y3 + y4) * 9633
  let z3 := y3 * -16069 + z5
  let z4 := y4 * -3196 + z5
  match i with
  | 0 => tmp10 + tmp11
  | 4 => tmp10 - tmp11
  | 2 => z1 + tmp13 * 6270
  | 6 => z1 - tmp12 * 15137
  | 7 => tmp 4 * 2446 + y1 + z3
  | 5 => tmp 5 * 16819 + y2 + z4
  | 3 => tmp 6 * 25172 + y2 + z3
  | _ => tmp 7 * 12299 + y1 + z4

def fdctSteps (tmp : Nat → Int) : List Int :=
  let tmp10 := tmp 0 + tmp 3
  let tmp13 := tmp 0 - tmp 3
  let tmp11 := tmp 1 + tmp 2
  let tmp12 := tmp 1 - tmp 2
  let z1 := (tmp12 + tmp13) * 4433
  let y1 := (tmp 4 + tmp 7) * -7373
  let y2 := (tmp 5 + tmp 6) * -20995
  let y3 := tmp 4 + tmp 6
  let y4 := tmp 5 + tmp 7
  let z5 := (y3 + y4) * 9633
  let z3 := y3 * -16069 + z5
  let z4 := y4 * -3196 + z5
  [tmp10, tmp13, tmp11, tmp12, tmp10 + tmp11, tmp10 - tmp11, tmp12 + tmp13, z1,
    tmp13 * 6270, z1 + tmp13 * 6270, tmp12 * 15137, z1 - tmp12 * 15137,
    tmp 4 + tmp 7, tmp 5 + tmp 6, y3, y4, y3 + y4, z5,
    tmp 4 * 2446, tmp 5 * 16819, tmp 6 * 25172, tmp 7 * 12299,
    y1, y2, y3 * -16069, y4 * -3196, z3, z4,
    tmp 4 * 2446 + y1, tmp 4 * 2446 + y1 + z3, tmp 5 * 16819 + y2, tmp 5 * 16819 + y2 + z4,
    tmp 6 * 25172 + y2, tmp 6 * 25172 + y2 + z3, tmp 7 * 12299 + y1, tmp 7 * 12299 + y1 + z4]

def fdctInputs (s : Nat → Int) (bias : Int) (i : Nat) : Int :=
  match i with
  | 0 => s 0 + s 7 - bias
  | 1 => s 1 + s 6 - bias
  | 2 => s 2 + s 5 - bias
  | 3 => s 3 + s 4 - bias
  | 4 => s 3 - s 4
  | 5 => s 2 - s 5
  | 6 => s 1 - s 6
  | _ => s 0 - s 7

def fdctInputSteps (s : Nat → Int) (bias : Int) : List Int :=
  [s 0 + s 7, s 1 + s 6, s 2 + s 5, s 3 + s 4] ++ (List.range 8).map (fdctInputs s bias)

def fdctRow (src : Block UInt8) (y i : Nat) : Int :=
  let o := fdctButterfly (fdctInputs (fun x => (src (y * 8 + x)).toNat) 256) i
  if i = 0 ∨ i = 4 then o * 4 else descale o 11

def fdctRowSteps (src : Block UInt8) (y : Nat) : List Int :=
  let s : Nat → Int := fun x => (src (y * 8 + x)).toNat
  fdctInputSteps s 256 ++ fdctSteps (fdctInputs s 256)
    ++ (List.range 8).map fun i =>
      let o := fdctButterfly (fdctInputs s 256) i
      if i = 0 ∨ i = 4 then o * 4 else o + 2 ^ 10

def fdctCol (ws : Block Int) (x i : Nat) : Int :=
  let o := fdctButterfly (fdctInputs (fun y => ws (y * 8 + x)) 0) i
  if i = 0 ∨ i = 4 then descale o 2 else descale o 15

def fdctColSteps (ws : Block Int) (x : Nat) : List Int :=
  let s : Nat → Int := fun y => ws (y * 8 + x)
  fdctInputSteps s 0 ++ fdctSteps (fdctInputs s 0)
    ++ (List.range 8).map fun i =>
      let o := fdctButterfly (fdctInputs s 0) i
      if i = 0 ∨ i = 4 then o + 2 ^ 1 else o + 2 ^ 14

def fdctRows (src : Block UInt8) : Block Int := fun n => fdctRow src (n / 8) (n % 8)

def fdct8x8 (src : Block UInt8) : Block Int := fun n => fdctCol (fdctRows src) (n % 8) (n / 8)

/-- No intermediate of `fdct8x8` overflows. -/
def FdctFits (src : Block UInt8) : Prop :=
  (∀ y < 8, ∀ v ∈ fdctRowSteps src y, Fits v)
    ∧ ∀ x < 8, ∀ v ∈ fdctColSteps (fdctRows src) x, Fits v

/-- `v / d`, rounded half away from zero. -/
def roundAway (v : Int) (d : Nat) : Int := v.sign * ((2 * v.natAbs + d) / (2 * d) : Nat)

-- =============================================================== inverse

def idctButterfly (c : Nat → Int) (i : Nat) : Int :=
  let z1 := (c 2 + c 6) * 4433
  let e2 := z1 - c 6 * 15137
  let e3 := z1 + c 2 * 6270
  let e0 := (c 0 + c 4) * 8192
  let e1 := (c 0 - c 4) * 8192
  let tmp10 := e0 + e3
  let tmp13 := e0 - e3
  let tmp11 := e1 + e2
  let tmp12 := e1 - e2
  let z5 := (c 7 + c 3 + (c 5 + c 1)) * 9633
  let z1 := (c 7 + c 1) * -7373
  let z2 := (c 5 + c 3) * -20995
  let z3 := (c 7 + c 3) * -16069 + z5
  let z4 := (c 5 + c 1) * -3196 + z5
  let tmp0 := c 7 * 2446 + (z1 + z3)
  let tmp1 := c 5 * 16819 + (z2 + z4)
  let tmp2 := c 3 * 25172 + (z2 + z3)
  let tmp3 := c 1 * 12299 + (z1 + z4)
  match i with
  | 0 => tmp10 + tmp3
  | 7 => tmp10 - tmp3
  | 1 => tmp11 + tmp2
  | 6 => tmp11 - tmp2
  | 2 => tmp12 + tmp1
  | 5 => tmp12 - tmp1
  | 3 => tmp13 + tmp0
  | _ => tmp13 - tmp0

def idctSteps (c : Nat → Int) : List Int :=
  let z1 := (c 2 + c 6) * 4433
  let e2 := z1 - c 6 * 15137
  let e3 := z1 + c 2 * 6270
  let e0 := (c 0 + c 4) * 8192
  let e1 := (c 0 - c 4) * 8192
  let z5 := (c 7 + c 3 + (c 5 + c 1)) * 9633
  let y1 := (c 7 + c 1) * -7373
  let y2 := (c 5 + c 3) * -20995
  let z3 := (c 7 + c 3) * -16069 + z5
  let z4 := (c 5 + c 1) * -3196 + z5
  [c 2 + c 6, z1, c 6 * 15137, e2, c 2 * 6270, e3, c 0 + c 4, c 0 - c 4, e0, e1,
    e0 + e3, e0 - e3, e1 + e2, e1 - e2,
    c 7 + c 1, c 5 + c 3, c 7 + c 3, c 5 + c 1, c 7 + c 3 + (c 5 + c 1), z5,
    c 7 * 2446, c 5 * 16819, c 3 * 25172, c 1 * 12299,
    y1, y2, (c 7 + c 3) * -16069, (c 5 + c 1) * -3196, z3, z4,
    y1 + z3, c 7 * 2446 + (y1 + z3), y2 + z4, c 5 * 16819 + (y2 + z4),
    y2 + z3, c 3 * 25172 + (y2 + z3), y1 + z4, c 1 * 12299 + (y1 + z4)]
    ++ (List.range 8).map (idctButterfly c)

/-- The short cut's test. -/
def AcZero (c : Nat → Int) : Prop :=
  c 1 = 0 ∧ c 2 = 0 ∧ c 3 = 0 ∧ c 4 = 0 ∧ c 5 = 0 ∧ c 6 = 0 ∧ c 7 = 0

instance (c : Nat → Int) : Decidable (AcZero c) := inferInstanceAs (Decidable (_ ∧ _))

def column (inp : Block Int) (x k : Nat) : Int := inp (8 * k + x)

def idctCol (inp : Block Int) (x i : Nat) : Int :=
  if AcZero (column inp x) then column inp x 0 * 4 else descale (idctButterfly (column inp x) i) 11

def idctColSteps (inp : Block Int) (x : Nat) : List Int :=
  if AcZero (column inp x) then [column inp x 0 * 4]
  else idctSteps (column inp x)
    ++ (List.range 8).map fun i => idctButterfly (column inp x) i + 2 ^ 10

def idctCols (inp : Block Int) : Block Int := fun n => idctCol inp (n % 8) (n / 8)

def row (ws : Block Int) (y k : Nat) : Int := ws (y * 8 + k)

/-- A sample before it is clamped. -/
def idctRow (ws : Block Int) (y i : Nat) : Int :=
  if AcZero (row ws y) then descale (row ws y 0 * 8192) 18 + 128
  else descale (idctButterfly (row ws y) i) 18 + 128

def idctRowSteps (ws : Block Int) (y : Nat) : List Int :=
  if AcZero (row ws y) then
    [row ws y 0 * 8192, row ws y 0 * 8192 + 2 ^ 17, descale (row ws y 0 * 8192) 18 + 128]
  else idctSteps (row ws y)
    ++ ((List.range 8).map fun i => idctButterfly (row ws y) i + 2 ^ 17)
    ++ (List.range 8).map fun i => descale (idctButterfly (row ws y) i) 18 + 128

def clampU8 (v : Int) : Int := max 0 (min 255 v)

def idct8x8 (inp : Block Int) : Block Int := fun n =>
  clampU8 (idctRow (idctCols inp) (n / 8) (n % 8))

/-- No intermediate of `idct8x8` overflows. -/
def IdctFits (inp : Block Int) : Prop :=
  (∀ x < 8, ∀ v ∈ idctColSteps inp x, Fits v)
    ∧ ∀ y < 8, ∀ v ∈ idctRowSteps (idctCols inp) y, Fits v

end Ncmips.Tjc.Exact
