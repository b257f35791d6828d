/-
The TCP client of `netstack.h`: connecting, writing and reading over
`wlan_poll`.

What arrives is given in advance, one list of frames for each call of
`wlan_poll`; after the last one nothing arrives any more. What the
callback got is kept beside the stack. `tcp_progress_fn` is left out: it
is a call of the application's that has no part in the connection.
-/
import Ncmips.Lib.Hands
import Ncmips.Net.Netstack

namespace Ncmips.Net

open Words Prog

/-- A frame that `net_rx` is called with. -/
structure Frame where
  src : Mac
  type : Nat
  data : List UInt8

/-- The bytes of its payload. -/
def Frame.answer (f : Frame) : Act → UInt8
  | .read i => f.data.getD i 0
  | _ => 0

/-- The bytes that `tcp_data_fn` gets. -/
def Frame.give (f : Frame) : Act → List UInt8
  | .data off n => (f.data.drop off).take n
  | _ => []

/-- The stack, what `tcp_data_fn` got since the connection was opened, and
what is to arrive. -/
structure Client where
  net : Stack
  data : List UInt8 := []
  coming : List (List Frame) := []

variable (wlanSend : List Sent → Bool)

/-- `net_rx` of one frame: names and options are shorter than 2^16 bytes. -/
def Client.receive (c : Client) (f : Frame) : Client :=
  let p := netRx wlanSend (2 ^ 16) f.src f.type f.data.length c.net
  match outcome f.answer p with
  | .ok n => { c with net := n, data := c.data ++ handed f.answer f.give p }
  | .error _ => c

/-- `wlan_poll(ms, net_rx)` -/
def wlanPoll (c : Client) : Client :=
  match c.coming with
  | [] => c
  | frames :: coming => { frames.foldl (Client.receive wlanSend) c with coming }

/-- A segment is sent, outside of `net_rx`. -/
def Client.send (seq flags : Nat) (d : List UInt8) (c : Client) : Bool × Client :=
  match outcome (fun _ => 0) (tcpSeg wlanSend seq flags d c.net) with
  | .ok (ok, n) => (ok, { c with net := n })
  | .error _ => (false, c)

def tcpAckFlush (c : Client) : Client :=
  if c.net.ackDue ≠ 0 ∧ c.net.tcpState ≠ .closed then
    let c := (c.send wlanSend c.net.sndNxt tfAck []).2
    { c with net := { c.net with ackDue := 0 } }
  else c

-- ================================================================== connect

/-- `for (w = 0; w < 10 && tcp_state == TCP_SYN_SENT; w++)` -/
def synWait : Nat → Client → Client
  | 0, c => c
  | w + 1, c => if c.net.tcpState = .synSent then synWait w (wlanPoll wlanSend c) else c

/-- `for (t = 0; t < 5 && tcp_state == TCP_SYN_SENT; t++)` -/
def synTries (isn : Nat) : Nat → Client → Client
  | 0, c => c
  | t + 1, c =>
      if c.net.tcpState = .synSent then
        let (ok, c) := c.send wlanSend isn tfSyn []
        synTries isn t (if ok then synWait wlanSend 10 c else wlanPoll wlanSend c)
      else c

/-- `rand` and `isn` are what `net_rand` returned. -/
def tcpConnect (ip port rand isn : Nat) (c : Client) : Int × Client :=
  let c := synTries wlanSend isn 5
    { c with
      data := []
      net := { c.net with
        dataFn := true
        tcpRip := ip
        tcpRport := port
        tcpLport := 49152 + (rand &&& 0x3fff)
        sndUna := isn
        sndNxt := u32 (isn + 1)
        rcvNxt := 0
        rxBytes := 0
        dup := 0
        ackDue := 0
        tcpState := .synSent } }
  (if c.net.tcpState = .established then 0 else -1, c)

-- ==================================================================== write

/-- `for (w = 0; w < 10 && tcp_snd_una != seq + n; w++)` -/
def ackWait (after : Nat) : Nat → Client → Client
  | 0, c => c
  | w + 1, c => if c.net.sndUna = after then c else ackWait after w (wlanPoll wlanSend c)

/-- `for (t = 0; t < 6 && tcp_snd_una != seq + n; t++)` -/
def pieceTries (seq : Nat) (d : List UInt8) : Nat → Client → Client
  | 0, c => c
  | t + 1, c =>
      if c.net.sndUna = u32 (seq + d.length) then c
      else
        let c := if c.net.tcpState = .established then
            (c.send wlanSend seq (tfAck ||| tfPsh) d).2
          else c
        pieceTries seq d t (ackWait wlanSend (u32 (seq + d.length)) 10 c)

/-- One piece of what is written, to when it is acknowledged or given up. -/
def sendPiece (d : List UInt8) (c : Client) : Client :=
  let seq := c.net.sndNxt
  pieceTries wlanSend seq d 6
    { c with net := { c.net with sndNxt := u32 (seq + d.length) } }

def tcpWrite (d : List UInt8) (c : Client) : Int × Client :=
  if d = [] then (0, c)
  else if c.net.tcpState ≠ .established then (-1, c)
  else
    let piece := d.take tcpMss
    let after := u32 (c.net.sndNxt + piece.length)
    let c := sendPiece wlanSend piece c
    if c.net.sndUna ≠ after ∧ seqDiff c.net.sndUna after < 0 then (-1, c)
    else tcpWrite (d.drop tcpMss) c
termination_by d.length
decreasing_by
  next hd _ _ =>
    have hpos := List.length_pos_iff.2 hd
    rw [List.length_drop]
    unfold tcpMss
    omega

-- ===================================================================== read

/-- `while (tcp_state == TCP_ESTABLISHED && idle < idle_ms)`, cut short after
`turns`. -/
def readLoop (idleMs : Nat) : (turns last idle : Nat) → Client → Client
  | 0, _, _, c => c
  | turns + 1, last, idle, c =>
      if c.net.tcpState = .established ∧ idle < idleMs then
        let c := tcpAckFlush wlanSend (wlanPoll wlanSend c)
        if c.net.rxBytes ≠ last then readLoop idleMs turns c.net.rxBytes 0 c
        else readLoop idleMs turns last (u32 (idle + 50)) c
      else c

def tcpReadAll (idleMs turns : Nat) (c : Client) : Client :=
  let c := readLoop wlanSend idleMs turns c.net.rxBytes 0 c
  { c with net := { c.net with dataFn := false } }

/-- What an application does with its connection. -/
inductive Use where
  | poll
  | write (d : List UInt8)
  | flush
  | read (idleMs turns : Nat)

def Use.run (c : Client) : Use → Client
  | poll => wlanPoll wlanSend c
  | write d => (tcpWrite wlanSend d c).2
  | flush => tcpAckFlush wlanSend c
  | read idleMs turns => tcpReadAll wlanSend idleMs turns c

/-- A connection from when it is opened. -/
def session (ip port rand isn : Nat) (uses : List Use) (c : Client) : Client :=
  uses.foldl (Use.run wlanSend) (tcpConnect wlanSend ip port rand isn c).2

end Ncmips.Net
