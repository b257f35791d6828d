/-
The scan for networks: what `handle_frame` of `wlan.h` hears of a beacon or
a probe response, and the list that `net/netsvc.c` makes of it.

A name's buffer holds the bytes that were copied, and a NUL behind them;
what is kept here are the bytes.
-/
import Mathlib

namespace Ncmips.Net

-- ================================================================= a beacon

inductive Security where
  | openNet | wepWpa1 | wpa2Psk | rsnOther
  deriving DecidableEq

/-- The elements that are wholly within the frame, by id and contents. -/
def elements : List UInt8 → List (UInt8 × List UInt8)
  | id :: n :: rest =>
      if n.toNat ≤ rest.length then
        (id, rest.take n.toNat) :: elements (rest.drop n.toNat)
      else []
  | _ => []
termination_by l => l.length
decreasing_by
  have hdrop : (rest.drop n.toNat).length = rest.length - n.toNat := List.length_drop
  show (rest.drop n.toNat).length < (id :: n :: rest).length
  rw [hdrop, List.length_cons, List.length_cons]
  omega

def leWord (b : List UInt8) (i : Nat) : Nat := (b.getD i 0).toNat + (b.getD (i + 1) 0).toNat * 2 ^ 8

/-- An RSN element with at least 20 bytes: whether a key can be a PSK. -/
def rsnSecurity (b : List UInt8) : Security :=
  let npw := leWord b 6
  let a := 8 + 4 * npw
  if a + 6 ≤ b.length then
    let nakm := leWord b a
    let psk := (List.range nakm).any fun k =>
      a + 6 + 4 * k ≤ b.length ∧ (b.drop (a + 2 + 4 * k)).take 4 = [0x00, 0x0f, 0xac, 2]
    if psk then .wpa2Psk else .rsnOther
  else .rsnOther

/-- What the elements say so far. -/
structure Heard where
  name : Option (List UInt8) := none
  ch : Nat := 0
  sec : Security

def hearElement (h : Heard) (ie : UInt8 × List UInt8) : Heard :=
  if ie.1 = 0 ∧ ie.2.length ≤ 32 then { h with name := some ie.2 }
  else if ie.1 = 3 ∧ ie.2.length = 1 then { h with ch := (ie.2.getD 0 0).toNat }
  else if ie.1 = 48 ∧ ie.2.length ≥ 20 then { h with sec := rsnSecurity ie.2 }
  else h

/-- What `wlan_scan_cb` is called with. -/
structure Found where
  name : List UInt8
  ch : Nat
  rssi : Int
  sec : Security

/-- `handle_frame` during a scan for all: a beacon or a probe response with a
name. -/
def scanFrame (f : List UInt8) (rssi : Int) : Option Found :=
  let fc := (f.getD 0 0).toNat
  let type := fc / 4 % 4
  let sub := fc / 16 % 16
  if type = 0 ∧ (sub = 5 ∨ sub = 8) ∧ f.length ≥ 36 then
    let sec := if f.getD 34 0 &&& 0x10 ≠ 0 then Security.wepWpa1 else .openNet
    let h := (elements (f.drop 36)).foldl hearElement { sec }
    match h.name with
    | some (c :: cs) => if c ≠ 0 then some ⟨c :: cs, h.ch, rssi, h.sec⟩ else none
    | _ => none
  else none

-- ================================================================= the list

/-- `struct net_ap` -/
structure NetAp where
  ssid : List UInt8
  rssi : Int
  channel : Nat
  security : Security

/-- The name as a C string, as it is compared and shown. -/
def NetAp.shown (e : NetAp) : List UInt8 := e.ssid.takeWhile (· ≠ 0)

/-- The entry with this name, with the stronger signal. -/
def raiseEntry (x : Found) : List NetAp → Option (List NetAp)
  | [] => none
  | e :: es =>
      if e.shown = x.name then
        some ((if x.rssi > e.rssi then { e with rssi := x.rssi, channel := x.ch } else e) :: es)
      else (raiseEntry x es).map (e :: ·)

def scanFound (max : Nat) (es : List NetAp) (x : Found) : List NetAp :=
  match raiseEntry x es with
  | some es => es
  | none => if es.length < max then es ++ [⟨x.name, x.rssi, x.ch, x.sec⟩] else es

/-- The list of one scan, in the order in which the names were seen. -/
def scanList (max : Nat) (found : List Found) : List NetAp := found.foldl (scanFound max) []

/-- An entry moves up past weaker ones; the list is from its end. -/
def moveUp (t : NetAp) : List NetAp → List NetAp
  | [] => [t]
  | e :: es => if e.rssi < t.rssi then e :: moveUp t es else t :: e :: es

/-- Strongest first. -/
def strongestFirst (es : List NetAp) : List NetAp :=
  (es.foldl (fun sorted t => moveUp t sorted) []).reverse

/-- The frames that `wlan_scan` gets, each with its RSSI. -/
def doScan (max : Nat) (frames : List (List UInt8 × Int)) : List NetAp :=
  strongestFirst (scanList max (frames.filterMap fun f => scanFrame f.1 f.2))

end Ncmips.Net
