/-
The BriMod bridge, esp32c3/bridge/bridge.ino: its register file and what
its I2C slave handlers do with it.

The registers are shared between the handlers and the bridge's main
loop; every access to more than one byte sits in a critical section, so
each function here is one step. `millis` stands for the tick count the
functions read, `tx` for the slave's transmit FIFO.
-/
import Mathlib.Tactic.Common
import Mathlib.Logic.Function.Basic

namespace Ncmips.Brimod

def replyMax : Nat := 8192
def cmdMax : Nat := 121

/-- SI4713 properties the box may set: the `prop` column of `si_table`. -/
def siTable : List UInt16 :=
  [0x2101, 0x2102, 0x2103, 0x2104, 0x2105, 0x2106, 0x2107, 0x2200, 0x2201, 0x2202, 0x2203,
   0x2204, 0x2205, 0x2C02, 0x2C03, 0x2C06]

def siIndex (prop : UInt16) : Option Nat := siTable.findIdx? (· == prop)

structure Bridge where
  regs : UInt8 → UInt8
  siVal : Nat → UInt16
  /-- `reply[0 .. reply_len)`. -/
  reply : List UInt8 := []
  replyOff : UInt16 := 0
  /-- `cmd_buf` up to its terminating 0. -/
  cmdBuf : List UInt8 := []
  pendingBell : UInt16 := 0
  timeSetValue : UInt32 := 0
  fmSaveMs : UInt32 := 0
  panelDirty : Bool := false
  fmDirty : Bool := false
  rdsDirty : Bool := false
  sipropDirty : Bool := false
  timeSetPending : Bool := false
  cmdPending : Bool := false
  restartPending : Bool := false
  millis : UInt32 := 0
  tx : List UInt8 := []

namespace Bridge

def lo (v : UInt16) : UInt8 := v.toUInt8
def hi (v : UInt16) : UInt8 := (v >>> 8).toUInt8

/-- `a | (b << 8)` -/
def le16 (a b : UInt8) : UInt16 := a.toUInt16 ||| (b.toUInt16 <<< 8)

def put8 (b : Bridge) (r v : UInt8) : Bridge :=
  { b with regs := Function.update b.regs r v }

def put16 (b : Bridge) (r : UInt8) (v : UInt16) : Bridge :=
  (b.put8 r (lo v)).put8 (r + 1) (hi v)

def get16 (b : Bridge) (r : UInt8) : UInt16 := le16 (b.regs r) (b.regs (r + 1))

def raiseEvent (b : Bridge) (ev : UInt16) : Bridge :=
  let b := b.put8 0x06 (b.regs 0x06 ||| lo ev)
  let b := b.put8 0x07 (b.regs 0x07 ||| hi ev)
  let mask := b.get16 0x08
  { b with pendingBell := b.pendingBell ||| (ev &&& mask) }

-- ==================================================== box link: I2C slave

def prepareRead (b : Bridge) (reg n : UInt8) : Bridge :=
  let n := if n > 32 then 32 else n.toNat
  if reg = 0xC8 then
    -- reply bytes; the offset moves on
    { b with
      tx := b.tx ++ (List.range n).map fun i => b.reply.getD (b.replyOff.toNat + i) 0
      replyOff := b.replyOff + UInt16.ofNat n }
  else
    { b with tx := b.tx ++ (List.range n).map fun i => b.regs (reg + UInt8.ofNat i) }

/-- The SI4713 property window, `0x90`. -/
def writeSiprop (b : Bridge) (d : List UInt8) : Bridge :=
  let d0 := d.getD 0 0
  let d1 := d.getD 1 0
  let k := siIndex (le16 d0 d1)
  let b := match k with
    | some k =>
        if 4 ≤ d.length then
          { b with
            siVal := Function.update b.siVal k (le16 (d.getD 2 0) (d.getD 3 0))
            sipropDirty := true
            fmSaveMs := b.millis ||| 1 }
        else b
    | none => b
  let v := match k with
    | some k => b.siVal k
    | none => 0xFFFF
  (((b.put8 0x90 d0).put8 0x91 d1).put8 0x92 (lo v)).put8 0x93 (hi v)

/-- Registers the box may write one by one. -/
def writable (r : UInt8) : Bool :=
  (0x08 ≤ r && r ≤ 0x0A) || r == 0x14 || r == 0x15 || (0x40 ≤ r && r ≤ 0x8F)
    || (0xA0 ≤ r && r ≤ 0xA4)

def writeReg (b : Bridge) (r v : UInt8) : Bridge :=
  if writable r then
    let b := b.put8 r v
    if 0xA0 ≤ r ∧ r ≤ 0xA4 then { b with panelDirty := true }
    else if 0x40 ≤ r ∧ r ≤ 0x45 then { b with fmDirty := true, fmSaveMs := b.millis ||| 1 }
    else if 0x46 ≤ r ∧ r ≤ 0x8F then { b with rdsDirty := true, fmSaveMs := b.millis ||| 1 }
    else if r = 0x0A then { b with panelDirty := true }
    else b
  else b

/-- The loop over the bytes written, up to the last register. -/
def writeRegs (b : Bridge) (r : Nat) : List UInt8 → Bridge
  | [] => b
  | v :: d => if r > 0xff then b else (b.writeReg (UInt8.ofNat r) v).writeRegs (r + 1) d

def handleWrite (b : Bridge) (reg : UInt8) (d : List UInt8) : Bridge :=
  if reg = 0x90 then
    if 2 ≤ d.length then b.writeSiprop d else b
  else if reg = 0xC0 then
    -- mailbox command; what the bridge takes of it ends at the first 0
    if b.regs 0xC0 ≠ 1 ∧ 0 < d.length then
      { b.put8 0xC0 1 with
        cmdBuf := (d.take cmdMax).takeWhile (· != 0)
        cmdPending := true }
    else b
  else if reg = 0xC8 then
    if 2 ≤ d.length then { b with replyOff := le16 (d.getD 0 0) (d.getD 1 0) } else b
  else if reg = 0xF0 then
    if 1 ≤ d.length ∧ d.getD 0 0 = 0xA5 then { b with restartPending := true } else b
  else if reg = 0x06 then
    -- write 1 to clear
    let b := b.put8 0x06 (b.regs 0x06 &&& ~~~(d.getD 0 0))
    if 2 ≤ d.length then b.put8 0x07 (b.regs 0x07 &&& ~~~(d.getD 1 0)) else b
  else if reg = 0x10 ∧ 4 ≤ d.length then
    { b with
      timeSetValue := (le16 (d.getD 0 0) (d.getD 1 0)).toUInt32
        ||| ((le16 (d.getD 2 0) (d.getD 3 0)).toUInt32 <<< 16)
      timeSetPending := true }
  else b.writeRegs reg.toNat d

/-- A write transaction of the box. The buffer holds `CMD_MAX + 8` bytes;
what comes beyond is dropped. -/
def onBoxReceive (b : Bridge) (msg : List UInt8) : Bridge :=
  let buf := msg.take (cmdMax + 8)
  match buf with
  | [] => b
  | r :: d =>
      if r = 0xFF then
        if 2 ≤ d.length then b.prepareRead (d.getD 0 0) (d.getD 1 0) else b
      else b.handleWrite r d

end Bridge

end Ncmips.Brimod
