/-
The OPL2 emulator, `sdk/opl.c`: the chip, its registers and the
renderer.

The tables that `opl_init` computes in floating point are a parameter.
The caller's sample buffers and gains are words of one memory, apart from
the chip but not from each other.
-/
import Mathlib.Logic.Function.Basic

namespace Ncmips.Opl

def oplChannels : Nat := 18
def envMax : Int32 := (511 : Int32) <<< (16 : Int32)

-- ================================================================== state

inductive Eg
  | off
  | attack
  | decay
  | sustain
  | release
  deriving DecidableEq, Repr

structure Op where
  phase : UInt32 := 0
  step : UInt32 := 0
  /-- Attenuation << 16. -/
  env : Int32 := envMax
  state : Eg := .off
  tl : Int32 := 0
  ar : Nat := 0
  dr : Nat := 0
  sl : Int32 := 0
  rr : Nat := 0
  egt : Nat := 0
  mult : Nat := 0
  wave : Nat := 0
  out : Int32 := 0
  prev : Int32 := 0

/-- A channel; `m` is `op[0]`, the modulator, and `k` is `op[1]`, the carrier. -/
structure Chan where
  m : Op := {}
  k : Op := {}
  fnum : Nat := 0
  block : Nat := 0
  key : Nat := 0
  fb : Nat := 0
  conn : Nat := 0

structure Chip where
  ch : Nat → Chan
  waveSelect : Bool

/-- What `opl_init` computes from the rate. -/
structure Tables where
  waveTab : Nat → UInt32 → Int32
  gainTab : Int32 → Int32
  attackStep : Nat → UInt32
  decayStep : Nat → UInt32
  stepK : UInt32

def oplReset : Chip := { ch := fun _ => {}, waveSelect := false }

-- ============================================================== registers

def multX2 : List UInt32 := [1, 2, 4, 6, 8, 10, 12, 14, 16, 18, 20, 20, 24, 24, 30, 30]

/-- Register offset to slot, -1 = none. -/
def slotOfOff : List Int :=
  [0, 1, 2, 3, 4, 5, -1, -1, 6, 7, 8, 9, 10, 11, -1, -1, 12, 13, 14, 15, 16, 17]

/-- Channel and operator of a register offset; `true` is the carrier. -/
def opOfOff (bank : Nat) (off : Int) : Option (Nat × Bool) :=
  if off < 0 ∨ off ≥ 0x16 ∨ slotOfOff.getD off.toNat (-1) < 0 then none
  else
    let s := (slotOfOff.getD off.toNat (-1)).toNat
    let k := s % 6
    some (bank * 9 + s / 6 * 3 + k % 3, k / 3 ≠ 0)

def Chip.setChan (chip : Chip) (c : Nat) (cc : Chan) : Chip :=
  { chip with ch := Function.update chip.ch c cc }

/-- Changes the operator that a register offset names, if any. -/
def Chip.onOp (chip : Chip) (bank : Nat) (off : Int) (f : Op → Op) : Chip :=
  match opOfOff bank off with
  | none => chip
  | some (c, false) => chip.setChan c { chip.ch c with m := f (chip.ch c).m }
  | some (c, true) => chip.setChan c { chip.ch c with k := f (chip.ch c).k }

def setStep (t : Tables) (c : Chan) : Chan :=
  let f := UInt32.ofNat c.fnum <<< UInt32.ofNat c.block
  let step (op : Op) : Op :=
    { op with step := ((f.toUInt64 * (multX2.getD op.mult 0 * t.stepK).toUInt64) >>> 10).toUInt32 }
  { c with m := step c.m, k := step c.k }

def keyOn (op : Op) : Op :=
  let op := { op with phase := 0 }
  if op.ar = 15 then { op with env := 0, state := .decay } else { op with state := .attack }

def keyOff (op : Op) : Op := if op.state ≠ .off then { op with state := .release } else op

/-- Registers 0xb0 to 0xb8 of a channel. -/
def writeKey (t : Tables) (c : Chan) (val : Nat) : Chan :=
  let c := { c with fnum := c.fnum &&& 0xff ||| (val &&& 3) <<< 8, block := val >>> 2 &&& 7 }
  let c := setStep t c
  let key := val >>> 5 &&& 1
  let c :=
    if key ≠ 0 ∧ c.key = 0 then { c with m := keyOn c.m, k := keyOn c.k }
    else if key = 0 ∧ c.key ≠ 0 then { c with m := keyOff c.m, k := keyOff c.k }
    else c
  { c with key }

/-- `opl_write`; the arguments are C ints. -/
def oplWrite (t : Tables) (chip : Chip) (reg val : BitVec 32) : Chip :=
  let bank := reg.toNat >>> 8 &&& 1
  let reg := reg.toNat &&& 0xff
  let val := val.toNat &&& 0xff
  if reg = 0x01 ∧ bank = 0 then { chip with waveSelect := val &&& 0x20 ≠ 0 }
  else
    match reg &&& 0xe0 with
    | 0x20 => chip.onOp bank (reg - 0x20 : Int) fun op =>
        { op with egt := val >>> 5 &&& 1, mult := val &&& 15 }
    | 0x40 => chip.onOp bank (reg - 0x40 : Int) fun op =>
        { op with tl := Int32.ofNat (val &&& 0x3f) * 4 }
    | 0x60 => chip.onOp bank (reg - 0x60 : Int) fun op => { op with ar := val >>> 4, dr := val &&& 15 }
    | 0x80 =>
        let sl : Int32 := if val >>> 4 = 15 then 511 else Int32.ofNat (val >>> 4) * 16
        chip.onOp bank (reg - 0x80 : Int) fun op => { op with sl := sl <<< 16, rr := val &&& 15 }
    | 0xe0 => chip.onOp bank (reg - 0xe0 : Int) fun op => { op with wave := val &&& 3 }
    | 0xa0 =>
        if 0xa0 ≤ reg ∧ reg ≤ 0xa8 then
          let c := bank * 9 + reg - 0xa0
          let cc := chip.ch c
          chip.setChan c (setStep t { cc with fnum := cc.fnum &&& 0x300 ||| val })
        else if 0xb0 ≤ reg ∧ reg ≤ 0xb8 then
          let c := bank * 9 + reg - 0xb0
          chip.setChan c (writeKey t (chip.ch c) val)
        else chip
    | 0xc0 =>
        if 0xc0 ≤ reg ∧ reg ≤ 0xc8 then
          let c := bank * 9 + reg - 0xc0
          chip.setChan c { chip.ch c with fb := val >>> 1 &&& 7, conn := val &&& 1 }
        else chip
    | _ => chip

-- =============================================================== operators

/-- `a - b` and `a + b` of an int and an unsigned. -/
def subU (a : Int32) (b : UInt32) : Int32 := (a.toUInt32 - b).toInt32
def addU (a : Int32) (b : UInt32) : Int32 := (a.toUInt32 + b).toInt32

def envStep (t : Tables) (op : Op) : Op :=
  let op :=
    match op.state with
    | .attack =>
        let op := { op with env := subU op.env (t.attackStep op.ar) }
        if op.env ≤ 0 then { op with env := 0, state := .decay } else op
    | .decay =>
        let op := { op with env := addU op.env (t.decayStep op.dr) }
        if op.env ≥ op.sl then { op with env := op.sl, state := .sustain } else op
    | .sustain =>
        -- percussive: keep fading
        if op.egt = 0 then { op with env := addU op.env (t.decayStep op.rr) } else op
    | .release => { op with env := addU op.env (t.decayStep op.rr) }
    | .off => op
  if op.env ≥ envMax then
    let op := { op with env := envMax }
    if op.state ≠ .attack then { op with state := .off } else op
  else op

/-- `op_calc` with the wave table `wave`: the output, and the operator. -/
def opCalc (t : Tables) (wave : UInt32 → Int32) (op : Op) (mod : Int32) : Int32 × Op :=
  let att := (op.env >>> 16) + op.tl
  let idx := ((op.phase >>> 22) + mod.toUInt32) &&& 1023
  let att := if att > 1023 then 1023 else att
  let out := (wave idx * t.gainTab att) >>> 12
  (out, envStep t { op with phase := op.phase + op.step })

-- ================================================================= render

/-- The caller's ints. -/
abbrev Mem := Nat → Int32

/-- `buf[i] += v`. -/
def addAt (mem : Mem) (a : Nat) (v : Int32) : Mem := Function.update mem a (mem a + v)

/-- The operators of a channel, copied to locals, and the samples. -/
structure Locals where
  m : Op
  k : Op
  mem : Mem

/-- Sample `i` of a channel. -/
def sample (t : Tables) (wm wk : UInt32 → Int32) (fbs conn : Nat) (gl gr : Int32)
    (left right : Nat) (s : Locals) (i : Nat) : Locals :=
  let fb := if fbs ≠ 0 then (s.m.out + s.m.prev) >>> Int32.ofNat fbs else 0
  let (mo, m) := opCalc t wm s.m fb
  let m := { m with prev := m.out }
  let m := { m with out := mo }
  let (ko, k) := if conn ≠ 0 then opCalc t wk s.k 0 else opCalc t wk s.k mo
  let out := if conn ≠ 0 then mo + ko else ko
  let mem := addAt s.mem (left + i) ((out * gl) >>> 8)
  { m, k, mem := addAt mem (right + i) ((out * gr) >>> 8) }

/-- One channel. -/
def renderChan (t : Tables) (left right : Nat) (n : Int) (panL panR : Nat) (s : Chip × Mem)
    (c : Nat) : Chip × Mem :=
  let (chip, mem) := s
  let cc := chip.ch c
  let gl := mem (panL + c)
  let gr := mem (panR + c)
  let fbs := if cc.fb ≠ 0 then 9 - cc.fb else 0
  if cc.k.state = .off ∧ (cc.conn = 0 ∨ cc.m.state = .off) then (chip, mem)
  else
    let wm := t.waveTab (if chip.waveSelect then cc.m.wave else 0)
    let wk := t.waveTab (if chip.waveSelect then cc.k.wave else 0)
    let s := (List.range n.toNat).foldl (sample t wm wk fbs cc.conn gl gr left right)
      { m := cc.m, k := cc.k, mem }
    (chip.setChan c { cc with m := s.m, k := s.k }, s.mem)

/-- Adds `n` samples of all channels to the buffers. -/
def oplRender (t : Tables) (chip : Chip) (left right : Nat) (n : Int) (panL panR : Nat)
    (mem : Mem) : Chip × Mem :=
  (List.range oplChannels).foldl (renderChan t left right n panL panR) (chip, mem)

end Ncmips.Opl
