/-
The stick under the system, `sdk/runtime.c`: the host's side.

The host alone drives USB. Apps read and write whole sectors through
`raw_read` and `raw_write`, and see of the rest only `storage_gen` and
`storage_present`. `storage_poll` notices the stick going, and starts a
stick that was put in.

The bus is the host's environment. Each stick that is put in is an
insertion with a number of its own; a transfer answers only from the
insertion that was started last, while it is in.
-/
import Ncmips.Usbfat.File

namespace Ncmips.Sdk

open Usbfat (Req sub32)

-- =================================================================== the bus

/-- The socket. -/
structure Bus where
  /-- The insertion that is in. -/
  present : Option Nat := none
  /-- The insertion that U-Boot's driver was started on. -/
  up : Option Nat := none
  /-- Insertions so far. -/
  count : Nat := 0
  /-- The sectors of each. -/
  content : Nat → Nat → List UInt8

/-- The insertion that answers a transfer, if one does. -/
def Bus.answering (b : Bus) : Option Nat :=
  match b.present with
  | none => none
  | some i => if b.up = some i then some i else none

-- ================================================================== the host

structure Host where
  lost : Bool := false
  mounted : Bool := false
  mountedGen : Nat := 0
  /-- Bumped on every pull and put back. -/
  storageGen : Nat := 1
  /-- 1 mounted, 0 gone; `none` is −1, not known yet. -/
  stickOk : Option Bool := none
  since : Nat := 0

structure World where
  bus : Bus
  host : Host := {}
  /-- For each generation the insertion that was started last. -/
  started : Nat → Option Nat

def storagePresent (h : Host) : Bool := h.stickOk ≠ some false

/-- What `ufs_mount` comes to on the host's side. -/
inductive Mounting
  | ok
  | failed (lost : Bool)

/-- `mount`, with `sdk_hotplug`. -/
def mountHost (m : Mounting) (h : Host) : Bool × Host :=
  let h := if h.mounted ∧ h.mountedGen ≠ h.storageGen then { h with mounted := false } else h
  if h.mounted then (true, h)
  else if !storagePresent h then (false, h)
  else
    match m with
    | .ok => (true, { h with lost := false, mounted := true, mountedGen := h.storageGen })
    | .failed lost => (false, { h with lost })

/-- `lost_check` -/
def Host.lostCheck (h : Host) : Host := if h.lost then { h with mounted := false } else h

/-- How a transfer goes: done, if a stick answers, or not; a write that
fails may or may not mark the stick as lost. -/
inductive Transfer
  | done
  | failed (lost : Bool)

/-- `sdk_raw_read` -/
def rawRead (m : Mounting) (t : Transfer) (start count : Nat) (w : World) :
    Option (Nat × List UInt8) × World :=
  match mountHost m w.host with
  | (false, h) => (none, { w with host := h })
  | (true, h) =>
      match w.bus.answering, t, h.lost with
      | some i, .done, false =>
          (some (i, ((List.range count).map fun k => w.bus.content i (start + k)).flatten),
            { w with host := h })
      | _, _, _ => (none, { w with host := { h with lost := true }.lostCheck })

/-- `sdk_raw_write` -/
def rawWrite (m : Mounting) (t : Transfer) (sec : Nat) (data : List UInt8) (w : World) :
    Option (Nat × List UInt8) × World :=
  match mountHost m w.host with
  | (false, h) => (none, { w with host := h })
  | (true, h) =>
      match w.bus.answering, t, h.lost with
      | some i, .done, false =>
          (some (i, []),
            { w with
              host := h
              bus := { w.bus with
                content := Function.update w.bus.content i
                  (Function.update (w.bus.content i) sec data) } })
      | _, .failed lost, false => (none, { w with host := { h with lost }.lostCheck })
      | _, _, _ => (none, { w with host := { h with lost := true }.lostCheck })

/-- A transfer of the app's. -/
def rawTransfer (m : Mounting) (t : Transfer) : Req → World → Option (Nat × List UInt8) × World
  | .read start count => rawRead m t start count
  | .write sec data => rawWrite m t sec data

/-- What `ufs_remount` comes to: the driver is started on what is in, or it
fails and has been started on anything or nothing. -/
inductive Restart
  | ok
  | failed (up : Option Nat)

def settleMs : Nat := 800

/-- `sdk_storage_poll`, with the socket's status bit and the timer. -/
def storagePoll (now : Bool) (timer : Nat) (r : Restart) (w : World) : World :=
  let h := w.host
  let ok := h.stickOk.getD (now && h.mounted && !h.lost)
  let h := { h with stickOk := some ok }
  if ok ∧ (!now ∨ h.lost) then
    { w with
      host := { h with
        lost := true, mounted := false, stickOk := some false, since := 0
        storageGen := h.storageGen + 1 }
      started := Function.update w.started (h.storageGen + 1) (w.started h.storageGen) }
  else if ok ∨ !now then { w with host := { h with since := 0 } }
  else if h.since = 0 then { w with host := { h with since := timer ||| 1 } }
  else if sub32 timer h.since < settleMs then { w with host := h }
  else
    match r with
    | .ok =>
        { w with
          bus := { w.bus with up := w.bus.present }
          host := { h with
            lost := false, mounted := true, mountedGen := h.storageGen + 1
            storageGen := h.storageGen + 1, stickOk := some true, since := 0 }
          started := Function.update w.started (h.storageGen + 1) w.bus.present }
    | .failed up =>
        { w with
          bus := { w.bus with up }
          host := { h with lost := true, since := timer ||| 1 } }

end Ncmips.Sdk
