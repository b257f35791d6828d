/-
The BriMod driver, sdk/brimod.c: the calls of the box, as programs that
do I2C transfers one after another.

A transfer answers with its error code, 0 or negative, and for a read
with the bytes. `sdkBrimod` says whether a bridge was found at start.
-/
import Ncmips.Lib.Program
import Ncmips.Brimod.Bridge

namespace Ncmips.Brimod

open Bridge

/-- A transfer on the front-panel bus to the bridge's address. -/
inductive Xfer where
  | write (b : List UInt8)
  | read (n : Nat)

structure Reply where
  r : Int := 0
  buf : List UInt8 := []

abbrev Driver := Prog Xfer Reply

def readMax : Nat := 32
def writeMax : Nat := 127

def regEvents : UInt8 := 0x06

def enodev : Int := -10
def eproto : Int := -14

/-- Read request, then the reply; a failed read is followed by one of a
single byte, which empties the bridge's FIFO. -/
def rawRead (reg : UInt8) (n : Nat) : Driver Reply :=
  if n < 1 ∨ n > readMax then pure { r := eproto }
  else do
    let q ← .ask (.write [0xff, reg, UInt8.ofNat n])
    if q.r ≠ 0 then pure { r := q.r }
    else
      let q ← .ask (.read n)
      if q.r ≠ 0 then
        let _ ← .ask (.read 1)
        pure q
      else pure q

def brimodRead (sdkBrimod : Bool) (reg : UInt8) (n : Nat) : Driver Reply :=
  if !sdkBrimod then pure { r := enodev } else rawRead reg n

def brimodWrite (sdkBrimod : Bool) (reg : UInt8) (d : List UInt8) : Driver Int :=
  if !sdkBrimod then pure enodev
  else if d.length > writeMax then pure eproto
  else do
    let q ← .ask (.write (reg :: d))
    pure q.r

def brimodEvents (sdkBrimod : Bool) : Driver Int := do
  let q ← brimodRead sdkBrimod regEvents 2
  let b0 := q.buf.getD 0 0
  let b1 := q.buf.getD 1 0
  if q.r < 0 then pure q.r
  else if b0 ||| b1 ≠ 0 then
    -- write 1 = clear
    let r ← brimodWrite sdkBrimod regEvents [b0, b1]
    if r < 0 then pure r else pure (le16 b0 b1).toNat
  else pure (le16 b0 b1).toNat

/-- A transfer that succeeds: a write runs the slave's handler, a read
takes its bytes from the transmit FIFO. -/
def answer (b : Bridge) : Xfer → Reply × Bridge
  | .write msg => ({}, b.onBoxReceive msg)
  | .read n => ({ buf := b.tx.take n }, { b with tx := b.tx.drop n })

-- ============================================ the two sides, interleaved

/-- The calls of the box around its event handling: `brimod_events`, and
the reads and writes of the other registers. -/
inductive Call where
  | events
  | read (reg : UInt8) (n : Nat)
  | write (reg : UInt8) (d : List UInt8) (h : reg ≠ regEvents)

def Call.prog (sdkBrimod : Bool) : Call → Driver Int
  | .events => brimodEvents sdkBrimod
  | .read reg n => do
      let q ← brimodRead sdkBrimod reg n
      pure q.r
  | .write reg d _ => brimodWrite sdkBrimod reg d

/-- What the bridge does by itself: it raises events, and its other tasks
(`put8`, `put16`, `set_present`, the sensors, the clock) do what they do
to everything but the event flags and the FIFO. -/
inductive Own : Bridge → Bridge → Prop
  | raise (b : Bridge) (ev : UInt16) : Own b (b.raiseEvent ev)
  | other {b b' : Bridge} (h6 : b'.regs 0x06 = b.regs 0x06) (h7 : b'.regs 0x07 = b.regs 0x07)
      (htx : b'.tx = b.tx) : Own b b'

/-- Box and bridge, all transfers succeeding. -/
def link (sdkBrimod : Bool) : Machine Xfer Reply Call Int Bridge where
  prog := Call.prog sdkBrimod
  answer := answer
  own := Own

end Ncmips.Brimod
