/-
Minimal IPv4, `netstack.h`: from a received frame to what it changes and
sends.

A byte of the frame is read by its offset. That a buffer is filled, and
that received data is handed on, are requests too: of how many bytes, and
which of the frame's.
-/
import Ncmips.Lib.Meets
import Ncmips.Lib.Words

namespace Ncmips.Net

open Words

inductive Act where
  /-- A byte of the frame. -/
  | read (i : Nat)
  /-- `n` bytes from the start of a buffer of `cap` are written. -/
  | build (cap n : Nat)
  /-- `tcp_data_fn` gets `n` bytes of the frame from `off` on. -/
  | data (off n : Nat)

/-- A function of the receive path, which may be cut short. -/
abbrev Rx := Prog.Turns Act UInt8 Unit

abbrev Mac := Vector UInt8 6

/-- A frame that was handed to `wlan_send`. -/
structure Sent where
  dst : Mac
  type : Nat
  data : List UInt8

inductive Dhcp where
  | off | selecting | requesting | bound
  deriving DecidableEq

inductive Tcp where
  | closed | synSent | established | finWait | done
  deriving DecidableEq

/-- The stack's variables, and all that it sent so far, the last one first. -/
structure Stack where
  mac : Mac
  ip : Nat := 0
  mask : Nat := 0
  gw : Nat := 0
  dns : Nat := 0
  dhcpServer : Nat := 0
  lease : Nat := 0
  pings : Nat := 0
  arpReplies : Nat := 0
  ipRx : Nat := 0
  arpCache : List (Nat × Mac) := []
  arpNext : Nat := 0
  ipId : Nat := 0
  /-- `udp_hook` is `net_udp_rx`. -/
  udpHook : Bool := false
  dhcpState : Dhcp := .off
  dhcpXid : Nat := 0
  dhcpOfferIp : Nat := 0
  dnsId : Nat := 0
  dnsPort : Nat := 0
  dnsResult : Nat := 0
  dnsDone : Bool := false
  tcpState : Tcp := .closed
  tcpRip : Nat := 0
  tcpRport : Nat := 0
  tcpLport : Nat := 0
  sndUna : Nat := 0
  sndNxt : Nat := 0
  rcvNxt : Nat := 0
  rxBytes : Nat := 0
  dup : Nat := 0
  ackDue : Nat := 0
  dataFn : Bool := false
  sent : List Sent := []

-- ================================================================== helpers

def be16Bytes (v : Nat) : List UInt8 := [.ofNat (v / 2 ^ 8), .ofNat v]

def be32Bytes (v : Nat) : List UInt8 :=
  [.ofNat (v / 2 ^ 24), .ofNat (v / 2 ^ 16), .ofNat (v / 2 ^ 8), .ofNat v]

def byte (i : Nat) : Rx Nat := do
  let b ← (liftM (Prog.ask (.read i) : Prog Act UInt8 UInt8) : Rx UInt8)
  pure b.toNat

def be16 (i : Nat) : Rx Nat := do
  let a ← byte i
  let b ← byte (i + 1)
  pure (a * 2 ^ 8 + b)

def getBe32 (i : Nat) : Rx Nat := do
  let a ← be16 i
  let b ← be16 (i + 2)
  pure (a * 2 ^ 16 + b)

/-- `memcpy` of a MAC. -/
def macAt (i : Nat) : Rx Mac := do
  let a ← byte i
  let b ← byte (i + 1)
  let c ← byte (i + 2)
  let d ← byte (i + 3)
  let e ← byte (i + 4)
  let f ← byte (i + 5)
  pure #v[.ofNat a, .ofNat b, .ofNat c, .ofNat d, .ofNat e, .ofNat f]

/-- `n` bytes of the frame. -/
def bytesAt (i : Nat) : Nat → Rx (List UInt8)
  | 0 => pure []
  | n + 1 => do
      let b ← byte i
      let bs ← bytesAt (i + 1) n
      pure (.ofNat b :: bs)

def build (cap n : Nat) : Rx Unit := do
  let _ ← (liftM (Prog.ask (.build cap n) : Prog Act UInt8 UInt8) : Rx UInt8)
  pure ()

def giveData (off n : Nat) : Rx Unit := do
  let _ ← (liftM (Prog.ask (.data off n) : Prog Act UInt8 UInt8) : Rx UInt8)
  pure ()

/-- `while (sum >> 16)` -/
def csumFold (sum : Nat) : Nat :=
  if sum / 2 ^ 16 = 0 then sum else csumFold (sum % 2 ^ 16 + sum / 2 ^ 16)
termination_by sum
decreasing_by omega

def csumWords : List UInt8 → Nat → Nat
  | a :: b :: bs, sum => csumWords bs (u32 (sum + (a.toNat * 2 ^ 8 + b.toNat)))
  | [a], sum => u32 (sum + a.toNat * 2 ^ 8)
  | [], sum => sum

def netCsum (p : List UInt8) (sum : Nat) : Nat := csumFold (csumWords p sum)

/-- `~sum & 0xffff` -/
def csumField (sum : Nat) : List UInt8 := be16Bytes (2 ^ 16 - 1 - sum % 2 ^ 16)

-- ====================================================================== ARP

def arpEntries : Nat := 8

def bcast : Mac := .replicate 6 0xff

def arpLearn (ip : Nat) (m : Mac) (n : Stack) : Stack :=
  match n.arpCache.findIdx? fun e => e.1 = ip with
  | some i => { n with arpCache := n.arpCache.set i (ip, m) }
  | none =>
      { n with
        arpCache := n.arpCache.set n.arpNext (ip, m)
        arpNext := (n.arpNext + 1) % arpEntries }

def arpLookup (ip : Nat) (n : Stack) : Option Mac :=
  if ip = 0 then none else (n.arpCache.find? fun e => e.1 = ip).map (·.2)

variable (wlanSend : List Sent → Bool)

/-- `wlan_send`: 0 or not, by what was sent so far. -/
def wlanOut (dst : Mac) (type : Nat) (data : List UInt8) (n : Stack) : Bool × Stack :=
  let sent := { dst, type, data } :: n.sent
  (wlanSend sent, { n with sent })

def arpSend (op : Nat) (tmac : Mac) (tip : Nat) (n : Stack) : Rx Stack := do
  let a := be16Bytes 1 ++ be16Bytes 0x0800 ++ [6, 4] ++ be16Bytes op ++ n.mac.toList
    ++ be32Bytes n.ip ++ (if op = 1 then List.replicate 6 0 else tmac.toList) ++ be32Bytes tip
  build 28 a.length
  pure (wlanOut wlanSend (if op = 1 then bcast else tmac) 0x0806 a n).2

def arpRx (p len : Nat) (n : Stack) : Rx Stack := do
  if len < 28 then pure n
  else
    let hw ← be16 p
    let proto ← be16 (p + 2)
    if hw ≠ 1 ∨ proto ≠ 0x0800 then pure n
    else
      let op ← be16 (p + 6)
      let sip ← getBe32 (p + 14)
      let tip ← getBe32 (p + 24)
      let m ← macAt (p + 8)
      let n := if sip ≠ 0 then arpLearn sip m n else n
      if op = 1 ∧ n.ip ≠ 0 ∧ tip = n.ip then
        let n ← arpSend wlanSend 2 m sip n
        pure { n with arpReplies := u32 (n.arpReplies + 1) }
      else pure n

-- ===================================================================== IPv4

/-- Where a packet goes first. -/
def route (dst : Nat) (n : Stack) : Nat :=
  if n.mask ≠ 0 ∧ dst &&& n.mask ≠ n.ip &&& n.mask then n.gw else dst

/-- `ip_send`; `false` is -1, or what `wlan_send` returned. -/
def ipSend (dst proto : Nat) (payload : List UInt8) (n : Stack) : Rx (Bool × Stack) := do
  if payload.length > 1480 then pure (false, n)
  else
    match if dst = 0xffffffff then some bcast else arpLookup (route dst n) n with
    | none =>
        let n ← arpSend wlanSend 1 (.replicate 6 0) (route dst n) n
        pure (false, n)
    | some dmac =>
        let front := [0x45, 0] ++ be16Bytes (20 + payload.length) ++ be16Bytes (n.ipId % 2 ^ 16)
          ++ be16Bytes 0 ++ [64, .ofNat proto]
        let back := be32Bytes n.ip ++ be32Bytes dst
        let sum := netCsum (front ++ [0, 0] ++ back) 0
        let pkt := front ++ csumField sum ++ back ++ payload
        build 1500 pkt.length
        pure (wlanOut wlanSend dmac 0x0800 pkt { n with ipId := u32 (n.ipId + 1) })

def udpSend (dst sport dport : Nat) (d : List UInt8) (n : Stack) : Rx (Bool × Stack) := do
  if d.length > 1472 then pure (false, n)
  else
    let u := be16Bytes sport ++ be16Bytes dport ++ be16Bytes (8 + d.length) ++ be16Bytes 0 ++ d
    build 1480 u.length
    ipSend wlanSend dst 17 u n

-- ===================================================================== DHCP

/-- `NET_HOSTNAME` -/
def hostname : List UInt8 := [0x6e, 0x63, 0x77, 0x69, 0x66, 0x69]

def dhcpParams : List UInt8 := [1, 3, 6, 15, 51, 54]

def dhcpSend (type : Nat) (n : Stack) : Rx Stack := do
  let head := [1, 1, 6, 0] ++ be32Bytes n.dhcpXid ++ [0, 0] ++ be16Bytes 0x8000
    ++ List.replicate 16 0 ++ n.mac.toList ++ List.replicate 202 0 ++ be32Bytes 0x63825363
  let asked := if type = 3 then [50, 4] ++ be32Bytes n.dhcpOfferIp ++ [54, 4] ++ be32Bytes n.dhcpServer
    else []
  let opts := [53, 1, .ofNat type] ++ [61, 7, 1] ++ n.mac.toList
    ++ [12, .ofNat hostname.length] ++ hostname ++ asked
    ++ [55, .ofNat dhcpParams.length] ++ dhcpParams ++ [255]
  let d := head ++ opts
  build 300 d.length
  let (_, n) ← udpSend wlanSend 0xffffffff 68 67 (d ++ List.replicate (300 - d.length) 0) n
  pure n

/-- The options that are looked at. -/
structure Options where
  type : Nat := 0
  mask : Nat := 0
  gw : Nat := 0
  dns : Nat := 0
  server : Nat := 0
  lease : Nat := 0

/-- An option `code` of `l` bytes, with its value at `i`. -/
def dhcpOption (code l i : Nat) (a : Options) : Rx Options := do
  if code = 53 ∧ l ≥ 1 then
    let v ← byte i
    pure { a with type := v }
  else if code ∈ [1, 3, 6, 54, 51] ∧ l ≥ 4 then
    let v ← getBe32 i
    pure (match code with
      | 1 => { a with mask := v }
      | 3 => { a with gw := v }
      | 6 => { a with dns := v }
      | 54 => { a with server := v }
      | _ => { a with lease := v })
  else pure a

/-- `while (o + 2 <= end && o[0] != 255)` -/
def dhcpOptions (p len : Nat) : (turns : Nat) → (o : Nat) → Options → Rx Options
  | 0, _, _ => throw ()
  | turns + 1, o, a => do
      if o + 2 ≤ len then
        let code ← byte (p + o)
        if code = 255 then pure a
        else if code = 0 then dhcpOptions p len turns (o + 1) a
        else
          let l ← byte (p + o + 1)
          if o + 2 + l > len then pure a
          else
            let a ← dhcpOption code l (p + o + 2) a
            dhcpOptions p len turns (o + 2 + l) a
      else pure a

def dhcpRx (turns p len : Nat) (n : Stack) : Rx Stack := do
  if len < 244 then pure n
  else
    let op ← byte p
    let xid ← getBe32 (p + 4)
    let magic ← getBe32 (p + 236)
    let m ← macAt (p + 28)
    if op ≠ 2 ∨ xid ≠ n.dhcpXid ∨ magic ≠ 0x63825363 ∨ m ≠ n.mac then pure n
    else
      let a ← dhcpOptions p len turns 240 {}
      let yours ← getBe32 (p + 16)
      if a.type = 2 ∧ n.dhcpState = .selecting then
        dhcpSend wlanSend 3
          { n with dhcpOfferIp := yours, dhcpServer := a.server, dhcpState := .requesting }
      else if a.type = 5 ∧ n.dhcpState = .requesting then
        pure { n with
          ip := yours, mask := a.mask, gw := a.gw, dns := a.dns, lease := a.lease,
          dhcpState := .bound }
      else if a.type = 6 then dhcpSend wlanSend 1 { n with dhcpState := .selecting }
      else pure n

-- ===================================================================== ICMP

def icmpRx (src p len : Nat) (n : Stack) : Rx Stack := do
  if len < 8 then pure n
  else
    let type ← byte p
    if type ≠ 8 ∨ len > 1480 then pure n
    else
      let r ← bytesAt p len
      let blank := [0, r.getD 1 0, 0, 0] ++ r.drop 4
      let r := [0, r.getD 1 0] ++ csumField (netCsum blank 0) ++ r.drop 4
      build 1480 r.length
      let (ok, n) ← ipSend wlanSend src 1 r n
      pure (if ok then { n with pings := u32 (n.pings + 1) } else n)

-- ====================================================================== DNS

/-- A name, from `p` to behind it. -/
def dnsName (d len : Nat) : (turns : Nat) → (p : Nat) → Rx Nat
  | 0, _ => throw ()
  | turns + 1, p => do
      if p < len then
        let b ← byte (d + p)
        if b = 0 then pure (u32 (p + 1))
        else if b &&& 0xc0 = 0xc0 then pure (u32 (p + 2))
        else dnsName d len turns (u32 (p + (1 + b)))
      else pure (u32 (p + 1))

/-- The questions are skipped. -/
def dnsQuestions (d len turns : Nat) : (q : Nat) → (p : Nat) → Rx Nat
  | 0, p => pure p
  | q + 1, p => do
      let p ← dnsName d len turns p
      dnsQuestions d len turns q (u32 (p + 4))

/-- The address of the first A record. -/
def dnsAnswers (d len turns : Nat) : (an : Nat) → (p : Nat) → Rx (Option Nat)
  | 0, _ => pure none
  | an + 1, p => do
      if u32 (p + 12) ≤ len then
        let p ← dnsName d len turns p
        if u32 (p + 10) > len then pure none
        else
          let type ← be16 (d + p)
          let rdlen ← be16 (d + p + 8)
          let p := u32 (p + 10)
          if type = 1 ∧ rdlen = 4 ∧ u32 (p + 4) ≤ len then
            let a ← getBe32 (d + p)
            pure (some a)
          else dnsAnswers d len turns an (u32 (p + rdlen))
      else pure none

def dnsRx (turns d len : Nat) (n : Stack) : Rx Stack := do
  if len < 12 then pure n
  else
    let id ← be16 d
    let flags ← byte (d + 2)
    if id ≠ n.dnsId ∨ flags &&& 0x80 = 0 then pure n
    else
      let n := { n with dnsDone := true }
      let rcode ← byte (d + 3)
      if rcode &&& 15 ≠ 0 then pure n
      else
        let q ← be16 (d + 4)
        let an ← be16 (d + 6)
        let p ← dnsQuestions d len turns q 12
        let a ← dnsAnswers d len turns an p
        pure (match a with
          | some a => { n with dnsResult := a }
          | none => n)

def netUdpRx (turns sport dport d len : Nat) (n : Stack) : Rx Stack :=
  if sport = 53 ∧ dport = n.dnsPort then dnsRx turns d len n else pure n

-- ====================================================================== TCP

def tcpMss : Nat := 1400
def tcpWindow : Nat := 65535

def tfFin : Nat := 1
def tfSyn : Nat := 2
def tfRst : Nat := 4
def tfPsh : Nat := 8
def tfAck : Nat := 16

/-- `tcp_seg`; `false` is -1. -/
def tcpSeg (seq flags : Nat) (d : List UInt8) (n : Stack) : Rx (Bool × Stack) := do
  let hl := if flags &&& tfSyn ≠ 0 then 24 else 20
  if hl + d.length > 1480 then pure (false, n)
  else
    let front := be16Bytes n.tcpLport ++ be16Bytes n.tcpRport ++ be32Bytes seq
      ++ be32Bytes (if flags &&& tfAck ≠ 0 then n.rcvNxt else 0)
      ++ [.ofNat (hl / 4 * 2 ^ 4), .ofNat flags] ++ be16Bytes tcpWindow
    let mss := if flags &&& tfSyn ≠ 0 then [2, 4] ++ be16Bytes tcpMss else []
    let ph := be32Bytes n.ip ++ be32Bytes n.tcpRip ++ [0, 6] ++ be16Bytes (hl + d.length)
    let sum := netCsum (front ++ [0, 0] ++ [0, 0] ++ mss ++ d) (netCsum ph 0)
    let s := front ++ csumField sum ++ [0, 0] ++ mss ++ d
    build 1480 s.length
    ipSend wlanSend n.tcpRip 6 s n

/-- `(int) (a - b)` -/
def seqDiff (a b : Nat) : Int := s32 (sub32 a b)

/-- What acknowledges more of what was sent. -/
def tcpAcked (flags ack : Nat) (n : Stack) : Stack :=
  if flags &&& tfAck ≠ 0 ∧ seqDiff ack n.sndUna > 0 ∧ seqDiff ack n.sndNxt ≤ 0 then
    { n with sndUna := ack }
  else n

/-- A segment's data, at `i`. -/
def tcpData (seq i dlen : Nat) (n : Stack) : Rx Stack := do
  if dlen = 0 then pure n
  else if seq = n.rcvNxt then
    if n.dataFn then giveData i dlen
    pure { n with
      rcvNxt := u32 (n.rcvNxt + dlen)
      rxBytes := u32 (n.rxBytes + dlen)
      ackDue := u32 (n.ackDue + 1) }
  else pure { n with dup := u32 (n.dup + 1), ackDue := u32 (n.ackDue + 2) }

/-- A FIN that is next. -/
def tcpFin (seq flags dlen : Nat) (n : Stack) : Rx Stack := do
  if flags &&& tfFin ≠ 0 ∧ u32 (seq + dlen) = n.rcvNxt then
    let n := { n with rcvNxt := u32 (n.rcvNxt + 1) }
    if n.tcpState = .established then
      let (_, n) ← tcpSeg wlanSend n.sndNxt (tfFin ||| tfAck) [] n
      pure { n with sndNxt := u32 (n.sndNxt + 1), tcpState := .done }
    else pure { n with tcpState := .done }
  else pure n

/-- One acknowledgement for two full segments; others at once. -/
def tcpAck (flags dlen : Nat) (n : Stack) : Rx Stack := do
  if flags &&& tfFin ≠ 0 ∨ n.ackDue ≥ 2 ∨ (dlen ≠ 0 ∧ dlen < tcpMss) then
    let (_, n) ← tcpSeg wlanSend n.sndNxt tfAck [] n
    pure { n with ackDue := 0 }
  else pure n

/-- A segment with its header read. -/
def tcpSegment (seq ack flags i dlen : Nat) (n : Stack) : Rx Stack := do
  if flags &&& tfRst ≠ 0 then pure { n with tcpState := .done }
  else if n.tcpState = .synSent then
    if flags &&& (tfSyn ||| tfAck) = tfSyn ||| tfAck ∧ ack = n.sndNxt then
      let n := { n with rcvNxt := u32 (seq + 1), sndUna := ack, tcpState := .established }
      let (_, n) ← tcpSeg wlanSend n.sndNxt tfAck [] n
      pure n
    else pure n
  else
    let n ← tcpData seq i dlen (tcpAcked flags ack n)
    let n ← tcpFin wlanSend seq flags dlen n
    tcpAck wlanSend flags dlen n

def tcpRx (src p len : Nat) (n : Stack) : Rx Stack := do
  if len < 20 then pure n
  else
    let sport ← be16 p
    let dport ← be16 (p + 2)
    if src ≠ n.tcpRip ∨ sport ≠ n.tcpRport ∨ dport ≠ n.tcpLport ∨ n.tcpState = .closed then pure n
    else
      let hi ← byte (p + 12)
      let hl := hi / 2 ^ 4 * 4
      if hl < 20 ∨ hl > len then pure n
      else
        let seq ← getBe32 (p + 4)
        let ack ← getBe32 (p + 8)
        let flags ← byte (p + 13)
        tcpSegment wlanSend seq ack flags (p + hl) (len - hl) n

-- ================================================================== receive

/-- `dip` is not ours. -/
def notForUs (dip : Nat) (n : Stack) : Bool :=
  dip ≠ n.ip ∧ dip ≠ 0xffffffff ∧ ¬(n.mask ≠ 0 ∧ dip = n.ip ||| (2 ^ 32 - 1 - n.mask))

def udpRx (turns p len : Nat) (n : Stack) : Rx Stack := do
  if len < 8 then pure n
  else
    let sport ← be16 p
    let dport ← be16 (p + 2)
    let ulen ← be16 (p + 4)
    if ulen < 8 ∨ ulen > len then pure n
    else if dport = 68 ∧ sport = 67 then dhcpRx wlanSend turns (p + 8) (ulen - 8) n
    else if n.udpHook then netUdpRx turns sport dport (p + 8) (ulen - 8) n
    else pure n

/-- An IPv4 packet's payload, `len` bytes at `p`. -/
def ipRx (turns proto sip p len : Nat) (n : Stack) : Rx Stack :=
  if proto = 1 then icmpRx wlanSend sip p len n
  else if proto = 6 then tcpRx wlanSend sip p len n
  else if proto = 17 then udpRx wlanSend turns p len n
  else pure n

def netRx (turns : Nat) (src : Mac) (type len : Nat) (n : Stack) : Rx Stack := do
  if type = 0x0806 then arpRx wlanSend 0 len n
  else if type ≠ 0x0800 ∨ len < 20 then pure n
  else
    let vhl ← byte 0
    if vhl / 2 ^ 4 ≠ 4 then pure n
    else
      let ihl := vhl % 2 ^ 4 * 4
      let tot ← be16 2
      if ihl < 20 ∨ tot < ihl ∨ tot > len then pure n
      else
        let head ← bytesAt 0 ihl
        if netCsum head 0 % 2 ^ 16 ≠ 0xffff then pure n
        else
          let frag ← be16 6
          if frag &&& 0x3fff ≠ 0 then pure n
          else
            let proto ← byte 9
            let sip ← getBe32 12
            let dip ← getBe32 16
            if notForUs dip n ∧ ¬(n.dhcpState ≠ .bound ∧ proto = 17) then pure n
            else
              let n := { n with ipRx := u32 (n.ipRx + 1) }
              let n := if sip ≠ 0 then arpLearn sip src n else n
              ipRx wlanSend turns proto sip ihl (tot - ihl) n

end Ncmips.Net
