/-
The FM transmitter: `si_misc`, `si_apply_props`, `fm_apply`, `rds_apply`
and the main loop of esp32c3/bridge/bridge.ino, with the mailbox commands
FMDEFAULTS and FMSCAN and the settings that `setup` takes from flash.

The box's writes come from another task, so the main loop is a program
that does one access to what they share after another: a flag, a register,
a critical section, a command to the chip. Between any two of them the box
may write.

The chip is what it was told last. Its commands succeed, and what it
answers is up to it.
-/
import Ncmips.Brimod.Flash
import Ncmips.Brimod.Mailbox

namespace Ncmips.Brimod

open Bridge
open Libc (ch text lf)

-- =================================================================== the chip

/-- The tuning command that came last. -/
inductive Tuned where
  | nothing
  | tune (freq : UInt16)
  | measure (freq : UInt16)
deriving DecidableEq

/-- The last value sent, for everything that can be sent. -/
structure Sent where
  props : UInt16 → UInt16
  tuned : Tuned
  /-- Power and antenna capacitor. -/
  power : UInt8 × UInt8
  /-- Station name and RadioText by blocks of four characters. -/
  ps : UInt8 → List UInt8
  rt : UInt8 → List UInt8

def Sent.cmd (s : Sent) (c : List UInt8) : Sent :=
  let b := fun i => c.getD i 0
  if b 0 = 0x12 then { s with props := Function.update s.props (le16 (b 3) (b 2)) (le16 (b 5) (b 4)) }
  else if b 0 = 0x30 then { s with tuned := .tune (le16 (b 3) (b 2)) }
  else if b 0 = 0x31 then { s with power := (b 3, b 4) }
  else if b 0 = 0x32 then { s with tuned := .measure (le16 (b 3) (b 2)) }
  else if b 0 = 0x36 then { s with ps := Function.update s.ps (b 1) (c.drop 2) }
  else if b 0 = 0x35 ∧ b 1 &&& 0x80 = 0 then
    -- a group for the buffer, not for the FIFO
    { s with rt := Function.update s.rt (b 3 &&& 0x0F) (c.drop 4) }
  else s

-- ================================================================ the bridge

inductive Flag where
  | siprop
  | fm
  | rds

structure Radio where
  bridge : Bridge
  sent : Sent
  /-- What the chip answers to a command. -/
  resp : List UInt8 → List UInt8
  ctFifo : Bool := false
  lastRt : List UInt8 := List.replicate 64 0
  ab : UInt8 := 0

/-- One access of the main loop. -/
inductive Access where
  | dirty (f : Flag)
  | mark (f : Flag)
  /-- The critical section that copies the settings and clears the flag. -/
  | copy (f : Flag)
  | reg (r : UInt8)
  | val (k : Nat)
  | put (r v : UInt8)
  | event (ev : UInt16)
  | cmd (c : List UInt8)
  | fifo
  | setFifo (on : Bool)
  | text
  | setText (rt : List UInt8) (ab : UInt8)
  /-- `mailbox_poll` takes a command. -/
  | mail
  | rep (t : List UInt8)
  /-- The critical section of FMDEFAULTS. -/
  | defaults

structure Got where
  flag : Bool := false
  byte : UInt8 := 0
  word : UInt16 := 0
  bytes : List UInt8 := []
  words : List UInt16 := []

abbrev Main := Prog Access Got

/-- Registers that the main loop itself writes (`put8`). -/
def statusReg (r : UInt8) : Bool := r = 0x30 ∨ r = 0x31

def Bridge.isDirty (b : Bridge) : Flag → Bool
  | .siprop => b.sipropDirty
  | .fm => b.fmDirty
  | .rds => b.rdsDirty

def Bridge.setDirty (b : Bridge) (on : Bool) : Flag → Bridge
  | .siprop => { b with sipropDirty := on }
  | .fm => { b with fmDirty := on }
  | .rds => { b with rdsDirty := on }

def Radio.on (d : Radio) (b : Bridge) : Radio := { d with bridge := b }

def perform (d : Radio) : Access → Got × Radio
  | .dirty f => ({ flag := d.bridge.isDirty f }, d)
  | .mark f => ({}, d.on (d.bridge.setDirty true f))
  | .copy .siprop =>
      ({ words := d.bridge.settings.siprop }, d.on (d.bridge.setDirty false .siprop))
  | .copy .fm => ({ bytes := d.bridge.settings.fm }, d.on (d.bridge.setDirty false .fm))
  | .copy .rds => ({ bytes := d.bridge.settings.rds }, d.on (d.bridge.setDirty false .rds))
  | .reg r => ({ byte := d.bridge.regs r }, d)
  | .val k => ({ word := d.bridge.siVal k }, d)
  | .put r v => ({}, if statusReg r then d.on (d.bridge.put8 r v) else d)
  | .event ev => ({}, d.on (d.bridge.raiseEvent ev))
  | .cmd c => ({ bytes := d.resp c }, { d with sent := d.sent.cmd c })
  | .fifo => ({ flag := d.ctFifo }, d)
  | .setFifo on => ({}, { d with ctFifo := on })
  | .text => ({ byte := d.ab, bytes := d.lastRt }, d)
  | .setText rt ab => ({}, { d with lastRt := rt, ab := ab })
  | .mail =>
      if d.bridge.cmdPending then
        ({ bytes := d.bridge.cmdBuf },
          d.on { d.bridge with cmdPending := false, reply := [], replyOff := 0 })
      else ({}, d)
  | .rep t =>
      ({}, d.on { d.bridge with reply := (d.bridge.reply ++ t).take (replyMax - 1) })
  | .defaults => ({}, d.on d.bridge.fmDefaults)

-- ================================================================== commands

def evFm : UInt16 := 64
def presentSi : UInt8 := 8

def siCmd (c : List UInt8) : Main (List UInt8) := do
  let g ← .ask (.cmd c)
  pure g.bytes

def siProp (prop val : UInt16) : Main Unit := do
  let _ ← siCmd [0x12, 0x00, hi prop, lo prop, hi val, lo val]
  pure ()

/-- `regs[0x05] & P_SI` -/
def siPresent : Main Bool := do
  let g ← .ask (.reg 0x05)
  pure (g.byte &&& presentSi ≠ 0)

/-- Waits 5 ms between two tries, and 500 ms in all. -/
def siWaitTune : (turns : Nat) → Main (Option (List UInt8))
  | 0 => pure none
  | turns + 1 => do
      let st ← siCmd [0x14]
      if st.getD 0 0 &&& 1 ≠ 0 then do
        let status ← siCmd [0x33, 0x01]
        pure (some status)
      else siWaitTune turns

def tuneTurns : Nat := 100

/-- The place of PS misc in `si_table`. -/
def miscIndex : Nat := (siIndex 0x2C03).getD 0

/-- The stereo flag of PS misc. -/
def stereoFlag : UInt16 := 0x1000

def miscWith (v : UInt16) (flags : UInt8) : UInt16 :=
  if flags &&& 4 ≠ 0 then v &&& ~~~stereoFlag else v ||| stereoFlag

/-- PS misc with the stereo flag following the mono setting. -/
def siMisc : Main UInt16 := do
  let v ← .ask (.val miscIndex)
  let m ← .ask (.reg 0x43)
  pure (miscWith v.word m.byte)

/-- The loop over `si_table`. -/
def sendProps (v : List UInt16) : List Nat → Main Unit
  | [] => pure ()
  | k :: ks => do
      let prop := siTable.getD k 0
      let x ← if prop = 0x2C03 then siMisc else pure (v.getD k 0)
      siProp prop x
      sendProps v ks

def siApplyProps : Main Unit := do
  let v ← .ask (.copy .siprop)
  let present ← siPresent
  if present then do
    sendProps v.words (List.range siN)
    let _ ← .ask (.event evFm)
    pure ()
  else pure ()

def siUpdateStatus (s : List UInt8) : Main Unit := do
  let _ ← .ask (.put 0x30 (s.getD 7 0))
  let _ ← .ask (.put 0x31 (s.getD 6 0))
  pure ()

/-- A command that tunes, and the wait for it. -/
def siTune (c : List UInt8) : Main Unit := do
  let _ ← siCmd c
  let s ← siWaitTune tuneTurns
  match s with
  | some s => siUpdateStatus s
  | none => pure ()

/-- The SI4713 tunes in 50 kHz steps. -/
def freqOf (v : List UInt8) : UInt16 :=
  let freq := le16 (v.getD 0 0) (v.getD 1 0)
  freq - freq % 5

/-- The transmit bit is set, with a valid frequency. -/
def onAir (v : List UInt8) : Bool :=
  v.getD 3 0 &&& 1 ≠ 0 ∧ 7600 ≤ freqOf v ∧ freqOf v ≤ 10800

def powerOf (v : List UInt8) : UInt8 :=
  if v.getD 2 0 < 88 then 88 else if v.getD 2 0 > 115 then 115 else v.getD 2 0

def capOf (v : List UInt8) : UInt8 := if v.getD 4 0 > 191 then 0 else v.getD 4 0

/-- Bit 0 stereo pilot, bit 1 L-R, bit 2 RDS. -/
def componentsOf (v : List UInt8) : UInt16 :=
  (if v.getD 3 0 &&& 4 ≠ 0 then 0 else 0x0003) ||| (if v.getD 3 0 &&& 2 ≠ 0 then 0x0004 else 0)

/-- The RDS FIFO is for clock time. -/
def applyFifo (v : List UInt8) : Main Unit := do
  let fifo ← .ask .fifo
  let want : Bool := v.getD 5 0 &&& 1 ≠ 0
  if want ≠ fifo.flag then do
    let _ ← .ask (.setFifo want)
    siProp 0x2C07 (if want then 4 else 0)
    let _ ← .ask (.mark .rds)
    pure ()
  else pure ()

def fmApply : Main Unit := do
  let g ← .ask (.copy .fm)
  let v := g.bytes
  let present ← siPresent
  if present then do
    applyFifo v
    if onAir v then do
      siProp 0x2100 (componentsOf v)
      let misc ← siMisc
      siProp 0x2C03 misc
      siTune [0x30, 0x00, hi (freqOf v), lo (freqOf v)]
      siTune [0x31, 0x00, 0x00, powerOf v, capOf v]
    else do
      let _ ← siCmd [0x31, 0x00, 0x00, 0x00, 0x00]
      let _ ← siWaitTune tuneTurns
      pure ()
    let _ ← .ask (.event evFm)
    pure ()
  else pure ()

-- ======================================================================= RDS

def spaced0 (c : UInt8) : UInt8 := if c ≠ 0 then c else 0x20

def piOf (x : List UInt8) : UInt16 :=
  let pi := le16 (x.getD 0 0) (x.getD 1 0)
  if pi ≠ 0 then pi else 0x7A42

/-- Four characters from register `0x46 + i` on. -/
def chars (x : List UInt8) (i : Nat) : List UInt8 :=
  (List.range 4).map fun j => spaced0 (x.getD (i + j) 0)

def psBlock (x : List UInt8) (i : Nat) : List UInt8 := chars x (2 + 4 * i)
def rtBlock (x : List UInt8) (i : Nat) : List UInt8 := chars x (10 + 4 * i)

def sendPs (x : List UInt8) : List Nat → Main Unit
  | [] => pure ()
  | i :: is => do
      let _ ← siCmd (0x36 :: UInt8.ofNat i :: psBlock x i)
      sendPs x is

def sendRt (x : List UInt8) (ab : UInt8) : List Nat → Main Unit
  | [] => pure ()
  | i :: is => do
      let _ ← siCmd (0x35 :: (if i = 0 then 0x06 else 0x04) :: 0x20 :: (ab ||| UInt8.ofNat i)
        :: rtBlock x i)
      sendRt x ab is

/-- The A/B flag flips when the text changes. -/
def flipText (rt : List UInt8) : Main UInt8 := do
  let last ← .ask .text
  if rt ≠ last.bytes then do
    let _ ← .ask (.setText rt (last.byte ^^^ 0x10))
    pure (last.byte ^^^ 0x10)
  else pure last.byte

def rdsApply : Main Unit := do
  let g ← .ask (.copy .rds)
  let x := g.bytes
  let present ← siPresent
  if present then do
    let ab ← flipText ((List.range 64).map fun i => spaced0 (x.getD (10 + i) 0))
    siProp 0x2C01 (piOf x)
    sendPs x (List.range 2)
    sendRt x ab (List.range 16)
    let _ ← .ask (.event evFm)
    pure ()
  else pure ()

-- ==================================================================== mailbox

/-- The five quietest frequencies so far, with their noise. -/
def keepBest (f : UInt16) (noise : UInt8) (best : List (UInt16 × UInt8)) :
    List (UInt16 × UInt8) :=
  (best.takeWhile (fun b => b.2 ≤ noise) ++ (f, noise) :: best.dropWhile fun b => b.2 ≤ noise).take 5

def scanFrom : List Nat → List (UInt16 × UInt8) → Main (List (UInt16 × UInt8))
  | [], best => pure best
  | f :: fs, best => do
      let f := UInt16.ofNat f
      let _ ← siCmd [0x32, 0x00, hi f, lo f, 0x00]
      let s ← siWaitTune tuneTurns
      scanFrom fs (match s with
        | some s => keepBest f (s.getD 7 0) best
        | none => best)

/-- 87.5 to 108.0 MHz, every 100 kHz. -/
def scanFreqs : List Nat := (List.range 206).map fun i => 8750 + 10 * i

def scanText (best : List (UInt16 × UInt8)) : List UInt8 :=
  (best.takeWhile fun b => b.1 ≠ 0).flatMap fun b =>
    decimalNat b.1.toNat ++ sp :: (decimalNat b.2.toNat ++ [lf])

def fmScan : Main Unit := do
  let present ← siPresent
  if present then do
    let best ← scanFrom scanFreqs (List.replicate 5 (0, 255))
    let _ ← .ask (.rep (scanText best))
    let _ ← .ask (.mark .fm)                        -- back to the chosen frequency
    pure ()
  else do
    let _ ← .ask (.rep (text "no SI4713"))
    pure ()

/-- Of the commands, the two that have to do with the transmitter. -/
def mailboxRadio : Main Unit := do
  let g ← .ask .mail
  let c := ((arg g.bytes 0 false).takeWhile (· ≠ tab)).map toUpper
  if c = text "FMDEFAULTS" then do
    let _ ← .ask .defaults
    let _ ← .ask (.rep (text "OK"))
    pure ()
  else if c = text "FMSCAN" then fmScan
  else pure ()

/-- A part of the loop that waits for its flag. -/
def whenDirty (f : Flag) (p : Main Unit) : Main Unit := do
  let g ← .ask (.dirty f)
  if g.flag then p else pure ()

def loop : Main Unit := do
  whenDirty .siprop siApplyProps
  whenDirty .fm fmApply
  whenDirty .rds rdsApply
  mailboxRadio

-- ===================================================================== setup

/-- A list over registers. -/
def Bridge.load (b : Bridge) (r : Nat) : List UInt8 → Bridge
  | [] => b
  | v :: vs => (b.put8 (UInt8.ofNat r) v).load (r + 1) vs

/-- What `setup` does with the flash. -/
def setup (nvs : Settings) (b : Bridge) : Bridge :=
  let b := if nvs.fm.length = 6 then b.load 0x40 nvs.fm else b
  let b := if nvs.siprop.length = siN then { b with siVal := fun k => nvs.siprop.getD k 0 } else b
  let b := { b with sipropDirty := true }
  let b := if nvs.rds.length = 0x90 - 0x46 then { b.load 0x46 nvs.rds with rdsDirty := true } else b
  { b with fmDirty := true }

/-- The bridge apart from its transmitter's loop: the box writes registers,
and the rest of the main loop (sensors, clock, the other commands) changes
nothing that is sent to the chip, nor what was sent. -/
inductive Around : Radio → Radio → Prop
  | write (d : Radio) (reg : UInt8) (data : List UInt8) :
      Around d (d.on (d.bridge.handleWrite reg data))
  | rest {d d' : Radio} (hregs : ∀ r : UInt8, 0x40 ≤ r → r ≤ 0x8F → d'.bridge.regs r = d.bridge.regs r)
      (hval : d'.bridge.siVal = d.bridge.siVal)
      (hflags : ∀ f, d'.bridge.isDirty f = d.bridge.isDirty f)
      (hpresent : d'.bridge.regs 0x05 &&& presentSi = d.bridge.regs 0x05 &&& presentSi)
      (hsent : d'.sent = d.sent) (hfifo : d'.ctFifo = d.ctFifo) (hrt : d'.lastRt = d.lastRt)
      (hab : d'.ab = d.ab) : Around d d'

/-- One call is one turn of `loop`. -/
def radio : Machine Access Got Unit Unit Radio where
  prog := fun _ => loop
  answer := perform
  own := Around

end Ncmips.Brimod
