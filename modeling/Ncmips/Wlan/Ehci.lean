/-
The receive ring of ehci.h, the controller that fills it, and the driver's
loop over it in wlan.h.

The driver and the controller share the qTDs and the queue head; each
access of the driver to them is a transfer of its own, so that the
controller may do something between any two. Addresses of qTDs are counted
from `ehci_rxtds`, 32 bytes each.
-/
import Mathlib.Logic.Function.Basic
import Ncmips.Lib.Interference
import Ncmips.Lib.Words

namespace Ncmips.Wlan

open Words

def tdActive : Nat := 0x80
def tdHalted : Nat := 0x40
/-- Halted, buffer, babble, transaction, missed. -/
def tdErrmask : Nat := 0x7c
def tdPidIn : Nat := 0x100
def tdCerr3 : Nat := 0xc00
def tdToggle : Nat := 0x80000000
/-- Terminate bit of a link. -/
def tdT : Nat := 1
def ehciRxmax : Nat := 16

/-- `TD_BYTES` -/
def tdBytes (t : Nat) : Nat := (t / 2 ^ 16) &&& 0x7fff

def ehciPhys (p : Nat) : Nat := (p &&& 0x1fffffff) ||| 0x80000000

structure Td where
  next : Nat
  alt : Nat
  token : Nat
  buf : List Nat

structure Qh where
  /-- The qTD in the overlay. -/
  cur : Nat
  ov : Td

/-- What `ehci_rx_start` notes in `struct ehci`. -/
structure Rx where
  n : Nat
  size : Nat
  buf : Nat

structure Ring where
  tds : Nat → Td
  qh : Qh
  rxNext : Nat
  rxErrors : Nat
  /-- What the transfers that went well have written, and to where. -/
  completed : List (List Nat × Nat) := []
  /-- What `handle_rx` was given. -/
  returned : List (Nat × Nat) := []
  /-- The buffer that `handle_rx` is at work on. -/
  held : Option Nat := none

def tdLink (i : Nat) : Nat := 32 * i

/-- `td->buf` for the bytes at `data`. -/
def tdPages (data : Nat) : List Nat :=
  let p := ehciPhys data
  p :: (List.range 4).map fun i => u32 ((p &&& 0xfffff000) + 0x1000 * (i + 1))

/-- `h->rx_buf + i * h->rx_size` -/
def Rx.at (x : Rx) (i : Nat) : Nat := u32 (x.buf + i * x.size)

-- ==================================================================== driver

inductive Access where
  | token (i : Nat)
  | setToken (i v : Nat)
  /-- `next`, `alt` and `buf` of a qTD. -/
  | fill (i next : Nat) (buf : List Nat)
  | ovNext
  /-- `next` and `alt` of the overlay. -/
  | setOvNext (next : Nat)
  | ovToken
  | setOvToken (v : Nat)
  | rxNext
  | setRxNext (i : Nat)
  | rxError
  /-- `handle_rx` begins and ends. -/
  | handle (b n : Nat)
  | handled

open Prog (ask)

def ehciTdFill (i next token data len : Nat) : Prog Access Nat Unit := do
  let _ ← ask (.setToken i 0)
  let _ ← ask (.fill i next (tdPages data))
  let _ ← ask (.setToken i (token ||| u32 (len * 2 ^ 16) ||| tdCerr3))
  return ()

/-- Clears a halt and keeps the data toggle. -/
def ehciQhStart (first : Nat) : Prog Access Nat Unit := do
  let _ ← ask (.setOvNext (tdLink first))
  let tok ← ask .ovToken
  let _ ← ask (.setOvToken (tok &&& tdToggle))
  return ()

def ehciRxArm (x : Rx) (i : Nat) : Prog Access Nat Unit :=
  ehciTdFill i (tdLink ((i + 1) % x.n)) (tdActive ||| tdPidIn) (x.at i) x.size

/-- `for (i = 0; i < n; i++)`, from the number `i` on. -/
def armAll (x : Rx) : (left i : Nat) → Prog Access Nat Unit
  | 0, _ => return ()
  | left + 1, i => do
      ehciRxArm x i
      armAll x left (i + 1)

def ehciRxStart (x : Rx) : Prog Access Nat Bool := do
  if x.n > ehciRxmax ∨ x.n < 2 then return false
  else
    let _ ← ask (.setRxNext 0)
    armAll x x.n 0
    ehciQhStart 0
    return true

/-- The next completed buffer and its length. -/
def ehciRxGet (x : Rx) : Prog Access Nat (Option (Nat × Nat)) := do
  let i ← ask .rxNext
  let tok ← ask (.token i)
  if tok &&& tdActive ≠ 0 then return none
  else if tok &&& tdErrmask ≠ 0 then
    let _ ← ask .rxError
    ehciRxArm x i
    ehciQhStart i
    return none
  else return some (x.at i, sub32 x.size (tdBytes tok))

def ehciRxPut (x : Rx) : Prog Access Nat Unit := do
  let i ← ask .rxNext
  ehciRxArm x i
  let _ ← ask (.setRxNext ((i + 1) % x.n))
  let next ← ask .ovNext
  if next &&& tdT ≠ 0 then
    let tok ← ask .ovToken
    if tok &&& tdActive = 0 then ehciQhStart i else return ()
  else return ()

def pumpLoop (x : Rx) : (left k : Nat) → Prog Access Nat Nat
  | 0, k => return k
  | left + 1, k => do
      match ← ehciRxGet x with
      | none => return k
      | some (b, n) =>
          let _ ← ask (.handle b n)
          let _ ← ask .handled
          ehciRxPut x
          pumpLoop x left (k + 1)

/-- `wlan_rx_pump`, once the ring is on: its size is `WLAN_RX_RING`. -/
def wlanRxPump (x : Rx) : Prog Access Nat Nat := pumpLoop x x.n 0

-- ==================================================================== memory

namespace Ring

def setTd (r : Ring) (i : Nat) (td : Td) : Ring := { r with tds := Function.update r.tds i td }

def answer (r : Ring) : Access → Nat × Ring
  | .token i => ((r.tds i).token, r)
  | .setToken i v => (0, r.setTd i { r.tds i with token := v })
  | .fill i next buf => (0, r.setTd i { r.tds i with next := next, alt := tdT, buf := buf })
  | .ovNext => (r.qh.ov.next, r)
  | .setOvNext next => (0, { r with qh.ov.next := next, qh.ov.alt := tdT })
  | .ovToken => (r.qh.ov.token, r)
  | .setOvToken v => (0, { r with qh.ov.token := v })
  | .rxNext => (r.rxNext, r)
  | .setRxNext i => (0, { r with rxNext := i })
  | .rxError => (0, { r with rxErrors := u32 (r.rxErrors + 1) })
  | .handle b n => (0, { r with returned := r.returned ++ [(b, n)], held := some b })
  | .handled => (0, { r with held := none })

end Ring

-- ================================================================ controller

/-- Where the queue goes on: after a short transfer by the alternate link,
if there is one. -/
def Qh.goesTo (q : Qh) : Nat :=
  if tdBytes q.ov.token ≠ 0 ∧ q.ov.alt &&& tdT = 0 then q.ov.alt else q.ov.next

/-- A qTD is taken into the overlay, with the data toggle that is there. -/
def Qh.load (q : Qh) (i : Nat) (td : Td) : Qh :=
  { cur := i, ov := { td with token := (td.token &&& 0x7fffffff) ||| (q.ov.token &&& tdToggle) } }

/-- The transfer ends: the overlay's token is written back. -/
def Ring.writeBack (r : Ring) (tok : Nat) : Ring :=
  { r.setTd r.qh.cur { r.tds r.qh.cur with token := tok } with qh.ov.token := tok }

inductive Own : Ring → Ring → Prop
  /-- The next qTD is taken; an inactive one is left alone. -/
  | advance {r : Ring} {i : Nat} (hidle : r.qh.ov.token &&& tdActive = 0)
      (hgo : r.qh.ov.token &&& tdHalted = 0) (hlink : r.qh.goesTo = tdLink i)
      (hactive : (r.tds i).token &&& tdActive ≠ 0) :
      Own r { r with qh := r.qh.load i (r.tds i) }
  /-- A transfer of `count` bytes went well. -/
  | complete {r : Ring} {tok count : Nat} (hwork : r.qh.ov.token &&& tdActive ≠ 0)
      (hoff : tok &&& tdActive = 0) (hok : tok &&& tdErrmask = 0)
      (hcount : tdBytes tok + count = tdBytes r.qh.ov.token) :
      Own r { r.writeBack tok with completed := r.completed ++ [(r.qh.ov.buf, count)] }
  /-- A transfer ended with an error: the queue halts. -/
  | fail {r : Ring} {tok : Nat} (hwork : r.qh.ov.token &&& tdActive ≠ 0)
      (hoff : tok &&& tdActive = 0) (hhalt : tok &&& tdHalted ≠ 0) :
      Own r (r.writeBack tok)

/-- The driver's loop at the ring: `wlan_rx_pump`, again and again. -/
def receiver (x : Rx) : Machine Access Nat Unit Nat Ring where
  prog _ := wlanRxPump x
  answer := Ring.answer
  own := Own

end Ncmips.Wlan
