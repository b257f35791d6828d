/-
The WPA2 station of `wlan.h`: from a received transfer to what it changes
and sends, and joining a network.

A received transfer lies in memory that is read by its offset: code that
reads past a frame reads what is there. The chip is what it is told: every
frame sent, key table entry, security setting and channel is put on a
list, and so is each call of a callback. The counters that nothing here
reads are left out, and so are the results of the chip's transfers.
-/
import Ncmips.Net.Scan
import Ncmips.Wpa.KeyWrap
import Ncmips.Wpa.Pmk
import Ncmips.Lib.Words

namespace Ncmips.Wlan

open Words Wpa

-- =================================================================== memory

abbrev Mem := Nat → UInt8

abbrev Mac := Vector UInt8 6

def bytes (m : Mem) (p n : Nat) : List UInt8 := (List.range n).map fun i => m (p + i)

def macAt (m : Mem) (p : Nat) : Mac := .ofFn fun i => m (p + i)

def be16 (m : Mem) (p : Nat) : Nat := (m p).toNat * 2 ^ 8 + (m (p + 1)).toNat

def le16 (m : Mem) (p : Nat) : Nat := (m p).toNat + (m (p + 1)).toNat * 2 ^ 8

def le32 (m : Mem) (p : Nat) : Nat := le16 m p + le16 m (p + 2) * 2 ^ 16

def putBe16 (v : Nat) : List UInt8 := [.ofNat (v / 2 ^ 8), .ofNat v]

/-- `memcmp (a, b, n) < 0` of as many bytes. -/
def memcmpLt : List UInt8 → List UInt8 → Bool
  | a :: as, b :: bs => if a = b then memcmpLt as bs else a < b
  | _, _ => false

-- ================================================================== the state

inductive State where
  | scan | auth | assoc | fourWay | done | fail | idle | scanAll
  deriving DecidableEq

/-- What the chip and the callbacks are given. -/
inductive Out where
  /-- `rtl_tx_mgmt` -/
  | mgmt (frame : List UInt8)
  /-- `wlan_tx`; `sec`: the chip encrypts. -/
  | data (frame : List UInt8) (sec : Bool)
  /-- All of the key table is cleared. -/
  | clearCam
  /-- An entry of the key table. -/
  | cam (entry keyid : Nat) (group : Bool) (addr : Mac) (key : List UInt8)
  /-- `SECURITY_CFG` -/
  | security (on : Bool)
  | channel (ch : Nat)
  /-- `wlan_scan_cb` -/
  | found (net : Net.Found)
  /-- `wlan_rx_cb` with the data at `p` of the transfer. -/
  | received (dst src : Mac) (type p : Nat) (data : List UInt8)

structure Station where
  mac : Mac
  bssid : Mac
  seq : Nat := 0
  state : State := .idle
  apChannel : Nat := 0
  /-- The first `ssid_len` bytes. -/
  ssid : List UInt8 := []
  psk : List UInt8 := []
  /-- `ap_rates`, as far as its length says. -/
  apRates : List UInt8 := [0, 0]
  apXrates : List UInt8 := [0, 0]
  apRsnOk : Bool := false
  keysOn : Bool := false
  pn : Nat := 1
  pmk : List UInt8 := List.replicate 32 0
  ptk : List UInt8 := List.replicate 48 0
  anonce : List UInt8 := List.replicate 32 0
  snonce : List UInt8 := List.replicate 32 0
  gtk : List UInt8 := List.replicate 32 0
  gtkLen : Nat := 0
  gtkId : Nat := 0
  /-- `kd` and what lies behind it. -/
  kd : Mem := fun _ => 0
  inv : UInt8 → UInt8 := fun _ => 0
  rekeys : Nat := 0
  frameRssi : Int := 0
  rssi : Int := -100
  /-- `wlan_scan_cb`, `wlan_rx_cb` are set. -/
  scanCb : Bool := false
  rxCb : Bool := false
  /-- How often the cycle counter was read. -/
  ticks : Nat := 0
  out : List Out := []

def Station.emit (o : Out) (s : Station) : Station := { s with out := o :: s.out }

-- ================================================================== sending

/-- A 24-byte header. -/
def hdr (fc : Nat) (a1 a2 a3 : Mac) (s : Station) : List UInt8 × Station :=
  ([.ofNat fc, .ofNat (fc / 2 ^ 8), 0, 0] ++ a1.toList ++ a2.toList ++ a3.toList
      ++ [.ofNat (s.seq * 2 ^ 4), .ofNat (s.seq * 2 ^ 4 / 2 ^ 8)],
    { s with seq := (s.seq + 1) % 2 ^ 12 })

def bcast : Mac := .replicate 6 0xff

def sendMgmt (fc : Nat) (a1 a3 : Mac) (body : List UInt8) (s : Station) : Station :=
  let (h, s) := hdr fc a1 s.mac a3 s
  s.emit (.mgmt (h ++ body))

def probeRates : List UInt8 :=
  [0x01, 0x08, 0x82, 0x84, 0x8b, 0x96, 0x0c, 0x12, 0x18, 0x24, 0x32, 0x04, 0x30, 0x48, 0x60, 0x6c]

def sendProbeFor (name : List UInt8) (s : Station) : Station :=
  sendMgmt 0x0040 bcast bcast ([0, .ofNat name.length] ++ name ++ probeRates) s

def sendProbe (s : Station) : Station := sendProbeFor s.ssid s

def sendDeauth (s : Station) : Station := sendMgmt 0x00c0 s.bssid s.bssid [3, 0] s

def sendAuth (s : Station) : Station := sendMgmt 0x00b0 s.bssid s.bssid [0, 0, 1, 0, 0, 0] s

def rsnIe : List UInt8 :=
  [0x30, 20, 0x01, 0x00, 0x00, 0x0f, 0xac, 0x04, 0x01, 0x00, 0x00, 0x0f, 0xac, 0x04,
    0x01, 0x00, 0x00, 0x0f, 0xac, 0x02, 0x00, 0x00]

def sendAssoc (s : Station) : Station :=
  sendMgmt 0x0000 s.bssid s.bssid
    ([0x31, 0x04, 10, 0, 0, .ofNat s.ssid.length] ++ s.ssid ++ s.apRates
      ++ (if s.apXrates.getD 1 0 ≠ 0 then s.apXrates else []) ++ rsnIe) s

def llc : List UInt8 := [0xaa, 0xaa, 0x03, 0, 0, 0]

/-- The CCMP header of packet `pn`, key id 0. -/
def ccmpHeader (pn : Nat) : List UInt8 :=
  [.ofNat pn, .ofNat (pn / 2 ^ 8), 0, 0x20, .ofNat (pn / 2 ^ 16), .ofNat (pn / 2 ^ 24), 0, 0]

/-- `wlan_send`; `false` is -1. -/
def wlanSend (dst : Mac) (type : Nat) (data : List UInt8) (s : Station) : Bool × Station :=
  let h := (hdr (if s.keysOn then 0x4108 else 0x0108) s.bssid s.mac dst s).1
  let s := (hdr (if s.keysOn then 0x4108 else 0x0108) s.bssid s.mac dst s).2
  if data.length > 1500 then (false, s)
  else if s.keysOn then
    (true, Station.emit (.data (h ++ ccmpHeader s.pn ++ llc ++ putBe16 type ++ data) true)
      { s with pn := u32 (s.pn + 1) })
  else (true, s.emit (.data (h ++ llc ++ putBe16 type ++ data) false))

-- ==================================================================== EAPOL

def ekInfo : Nat := 5
def ekReplay : Nat := 9
def ekNonce : Nat := 17
def ekMic : Nat := 81
def ekDlen : Nat := 97
def ekData : Nat := 99

def kiVer2 : Nat := 0x0002
def kiPairwise : Nat := 0x0008
def kiAck : Nat := 0x0080
def kiMic : Nat := 0x0100
def kiSecure : Nat := 0x0200
def kiEnc : Nat := 0x1000

/-- The states on the stack hold nothing that matters. -/
def hmacSha1 (key data : List UInt8) : List UInt8 :=
  (hmacSha1Run (hmacSha1Init (.replicate 64 0) key) data none none none).1

/-- A key frame of ours, its MIC with the first 16 bytes of `ptk`. -/
def eapolFrame (ptk : List UInt8) (info : Nat) (replay nonce data : List UInt8) : List UInt8 :=
  let front := [2, 3] ++ putBe16 (ekData + data.length - 4) ++ [2] ++ putBe16 info ++ [0, 0]
    ++ replay ++ nonce ++ List.replicate 32 0
  let back := putBe16 data.length ++ data
  front ++ (hmacSha1 (ptk.take 16) (front ++ List.replicate 16 0 ++ back)).take 16 ++ back

/-- `nonce` is 32 zeros where the pointer is 0. -/
def sendEapol (info : Nat) (replay nonce data : List UInt8) (s : Station) : Station :=
  let (h, s) := hdr 0x0108 s.bssid s.mac s.bssid s
  let e := eapolFrame s.ptk info replay nonce data
  if s.keysOn then (wlanSend s.bssid 0x888e e s).2
  else s.emit (.mgmt (h ++ llc ++ putBe16 0x888e ++ e))

def noNonce : List UInt8 := List.replicate 32 0

/-- `"Pairwise key expansion"` -/
def ptkLabel : List UInt8 :=
  [0x50, 0x61, 0x69, 0x72, 0x77, 0x69, 0x73, 0x65, 0x20, 0x6b, 0x65, 0x79, 0x20,
    0x65, 0x78, 0x70, 0x61, 0x6e, 0x73, 0x69, 0x6f, 0x6e]

/-- The pairwise key of the parts that go into it. -/
def ptkOf (pmk : List UInt8) (mac bssid : Mac) (anonce snonce : List UInt8) : List UInt8 :=
  let addrs := if memcmpLt bssid.toList mac.toList then bssid.toList ++ mac.toList
    else mac.toList ++ bssid.toList
  let nonces := if memcmpLt anonce snonce then anonce ++ snonce else snonce ++ anonce
  wpaPrf (.replicate 64 0) pmk ptkLabel (addrs ++ nonces) 48

def derivePtk (s : Station) : Station :=
  { s with ptk := ptkOf s.pmk s.mac s.bssid s.anonce s.snonce }

/-- A key frame with its MIC taken out. -/
def blankMic (m : Mem) (e : Nat) : Mem := fun i => if e + ekMic ≤ i ∧ i < e + ekMic + 16 then 0 else m i

/-- The MIC of the key frame at `e`, `elen` bytes, is right. -/
def micOk (ptk : List UInt8) (m : Mem) (e elen : Nat) : Bool :=
  bytes m (e + ekMic) 16 = (hmacSha1 (ptk.take 16) (bytes (blankMic m e) e elen)).take 16

/-- `while (i + 2 <= n)` -/
def findGtk (k : Mem) (n i : Nat) (s : Station) : Station :=
  if i + 2 ≤ n then
    let len := (k (i + 1)).toNat
    let s := if k i = 0xdd ∧ len ≥ 6 ∧ k (i + 2) = 0x00 ∧ k (i + 3) = 0x0f ∧ k (i + 4) = 0xac ∧
        k (i + 5) = 0x01 ∧ len - 6 ≤ 32 then
        { s with
          gtkId := (k (i + 6)).toNat % 4
          gtkLen := len - 6
          gtk := bytes k (i + 8) (len - 6) ++ s.gtk.drop (len - 6) }
      else s
    if k i = 0xdd ∧ len = 0 then s else findGtk k n (i + 2 + len) s
  else s
termination_by n - i

/-- 16 bytes of `key`. -/
def camWrite (entry keyid : Nat) (group : Bool) (key : List UInt8) (s : Station) : Station :=
  s.emit (.cam entry keyid group s.bssid (key.take 16))

def wlanInstallKeys (s : Station) : Station :=
  let s := (s.emit .clearCam)
  let s := camWrite 0 0 false (s.ptk.drop 32) s
  let s := if s.gtkLen ≥ 16 ∧ s.gtkId ≠ 0 then camWrite s.gtkId s.gtkId true s.gtk s else s
  { s.emit (.security true) with keysOn := true }

/-- `cycles` is what the counter shows, reading by reading. -/
def snonceOf (cycles : Nat → Nat) (pmk : List UInt8) (mac : Mac) (ticks : Nat) : List UInt8 :=
  let c := cycles ticks
  let front := pmk.take 16 ++ mac.toList
    ++ [.ofNat c, .ofNat (c / 2 ^ 8), .ofNat (c / 2 ^ 16), .ofNat (c / 2 ^ 24)]
  let c' := cycles (ticks + 1)
  hmacSha1 ((pmk.drop 16).take 16) (front ++ [1])
    ++ (hmacSha1 ((pmk.drop 16).take 16) (front ++ [2, .ofNat c'])).take 12

def newSnonce (cycles : Nat → Nat) (s : Station) : Station :=
  { s with snonce := snonceOf cycles s.pmk s.mac s.ticks, ticks := s.ticks + 2 }

/-- `(info & KI_ENC) && dlen >= 24 && dlen <= sizeof(kd) + 8 && !(dlen & 7)` -/
def wrapped (info dlen : Nat) : Bool := info &&& kiEnc ≠ 0 ∧ dlen ≥ 24 ∧ dlen ≤ 264 ∧ dlen % 8 = 0

/-- The second 16 bytes of `ptk`. -/
def kekOf (ptk : List UInt8) : Block := .ofFn fun i => ptk.getD (16 + i) 0

/-- The key data at `e` into `kd`, if it is wrapped; whether `aes_unwrap`
said that it is whole. -/
def unwrapKd (m : Mem) (e info dlen : Nat) (s : Station) : Bool × Station :=
  if wrapped info dlen then
    let r := aesUnwrap s.inv (kekOf s.ptk) (bytes m (e + ekData) dlen) (dlen / 8 - 1)
    (r.1 = 0, { s with
      kd := fun i => if i < r.2.1.length then r.2.1.getD i 0 else s.kd i
      inv := r.2.2 })
  else (false, s)

/-- A group key update while the keys are in use. -/
def camGroup (s : Station) : Station :=
  if s.gtkLen ≥ 16 ∧ s.gtkId ≠ 0 ∧ s.keysOn then camWrite s.gtkId s.gtkId true s.gtk s else s

/-- Message 1 of the group handshake. -/
def groupMessage (m : Mem) (e info dlen : Nat) (s : Station) : Station :=
  let r := unwrapKd m e info dlen s
  let s := if r.1 then camGroup (findGtk r.2.kd (dlen - 8) 0 { r.2 with gtkLen := 0 }) else r.2
  let s := sendEapol (kiVer2 ||| kiMic ||| kiSecure) (bytes m (e + ekReplay) 8) noNonce [] s
  { s with rekeys := s.rekeys + 1 }

/-- Message 1 of the 4-way handshake. -/
def messageOne (cycles : Nat → Nat) (m : Mem) (e : Nat) (s : Station) : Station :=
  let s := if s.keysOn then newSnonce cycles s else s
  let s := derivePtk { s with anonce := bytes m (e + ekNonce) 32 }
  sendEapol (kiVer2 ||| kiPairwise ||| kiMic) (bytes m (e + ekReplay) 8) s.snonce rsnIe s

/-- New keys for a connection that has some. -/
def rekey (s : Station) : Station :=
  let s := wlanInstallKeys s
  { s with pn := 1, rekeys := s.rekeys + 1 }

/-- Message 3 with a right MIC. -/
def messageThree (m : Mem) (e info dlen : Nat) (s : Station) : Station :=
  let r := unwrapKd m e info dlen s
  let s := if r.1 then findGtk r.2.kd (dlen - 8) 0 r.2 else r.2
  let s := sendEapol (kiVer2 ||| kiPairwise ||| kiMic ||| kiSecure) (bytes m (e + ekReplay) 8) noNonce
    [] s
  let s := if s.keysOn then rekey s else s
  { s with state := .done }

variable (cycles : Nat → Nat)

def handleEapol (m : Mem) (e len : Nat) (s : Station) : Station :=
  if len < ekData ∨ m (e + 1) ≠ 3 ∨ m (e + 4) ≠ 2 then s
  else
    let elen := 4 + be16 m (e + 2)
    if elen > len then s
    else
      let info := be16 m (e + ekInfo)
      let dlen := be16 m (e + ekDlen)
      if info &&& 7 ≠ 2 then { s with state := .fail }
      else if info &&& kiPairwise = 0 ∧ info &&& (kiAck ||| kiMic) = kiAck ||| kiMic then
        if micOk s.ptk m e elen then groupMessage m e info dlen s else s
      else if info &&& (kiPairwise ||| kiAck ||| kiMic) = kiPairwise ||| kiAck then
        messageOne cycles m e s
      else if info &&& (kiPairwise ||| kiAck ||| kiMic) = kiPairwise ||| kiAck ||| kiMic then
        if micOk s.ptk m e elen then messageThree m e info dlen s else { s with state := .fail }
      else s

-- ===================================================================== frames

/-- A data frame of `len` bytes at `f`, its header `h` bytes. -/
def handleData (m : Mem) (f len h : Nat) (decrypted : Bool) (s : Station) : Station :=
  if m (f + 1) &&& 0x02 = 0 ∨ m (f + 1) &&& 0x01 ≠ 0 then s
  else
    let secured : Bool := m (f + 1) &&& 0x40 ≠ 0
    if secured ∧ (¬decrypted ∨ len < h + 24) then s
    else
      let p := if secured then f + h + 8 else f + h
      let n := if secured then len - h - 16 else sub32 len h
      if n < 8 ∨ m p ≠ 0xaa ∨ m (p + 1) ≠ 0xaa ∨ m (p + 2) ≠ 0x03 then s
      else if macAt m (f + 16) = s.mac then s
      else if be16 m (p + 6) = 0x888e then handleEapol cycles m (p + 8) (n - 8) s
      else if s.rxCb then
        s.emit (.received (macAt m (f + 4)) (macAt m (f + 16)) (be16 m (p + 6)) (p + 8)
          (bytes m (p + 8) (n - 8)))
      else s

/-- What a beacon or a probe response says, while the network is looked for. -/
structure Beacon where
  hit : Bool := false
  ch : Nat := 0
  rsn : Bool := false

/-- One element: `id` and its contents. -/
def beaconElement (r : Beacon × Station) (ie : UInt8 × List UInt8) : Beacon × Station :=
  let (b, s) := r
  if ie.1 = 0 ∧ ie.2 = s.ssid then ({ b with hit := true }, s)
  else if ie.1 = 1 ∧ ie.2.length ≤ 16 then (b, { s with apRates := 1 :: .ofNat ie.2.length :: ie.2 })
  else if ie.1 = 50 ∧ ie.2.length ≤ 16 then (b, { s with apXrates := 50 :: .ofNat ie.2.length :: ie.2 })
  else if ie.1 = 3 ∧ ie.2.length = 1 then ({ b with ch := (ie.2.getD 0 0).toNat }, s)
  else if ie.1 = 48 then ({ b with rsn := true }, s)
  else (b, s)

def handleBeacon (m : Mem) (f len : Nat) (s : Station) : Station :=
  let (b, s) := (Net.elements (bytes m (f + 36) (len - 36))).foldl beaconElement ({}, s)
  if b.hit then
    { s with bssid := macAt m (f + 16), apChannel := b.ch, apRsnOk := b.rsn, state := .auth }
  else s

/-- A management frame for us, `sub` not a beacon's. -/
def handleMgmt (m : Mem) (f len sub : Nat) (s : Station) : Station :=
  if sub = 11 ∧ s.state = .auth ∧ len ≥ 30 then
    if le16 m (f + 28) ≠ 0 then { s with state := .fail } else sendAssoc { s with state := .assoc }
  else if sub = 1 ∧ s.state = .assoc ∧ len ≥ 30 then
    { s with state := if le16 m (f + 26) ≠ 0 then .fail else .fourWay }
  else if (sub = 12 ∨ sub = 10) ∧ macAt m (f + 10) = s.bssid ∧ s.state ≠ .idle ∧ s.state ≠ .scanAll ∧
      s.state ≠ .scan then
    { s with state := .fail }
  else s

/-- The signal of our access point, smoothed. -/
def heardAp (m : Mem) (f : Nat) (s : Station) : Station :=
  if s.state = .done ∧ macAt m (f + 10) = s.bssid ∧ s.frameRssi > -100 then
    { s with rssi := Int.tdiv (s.rssi * 7 + s.frameRssi) 8 }
  else s

/-- A received frame of `len` bytes at `f`. -/
def handleFrame (m : Mem) (f len : Nat) (decrypted : Bool) (s : Station) : Station :=
  if len < 24 then s
  else
    let s := heardAp m f s
    let fc := le16 m f
    let type := fc / 2 ^ 2 % 2 ^ 2
    let sub := fc / 2 ^ 4 % 2 ^ 4
    let h := if sub / 2 ^ 3 % 2 = 1 then 26 else 24
    let beacon : Bool := type = 0 ∧ (sub = 5 ∨ sub = 8) ∧ len ≥ 36
    if beacon ∧ s.state = .scanAll ∧ s.scanCb then
      match Net.scanFrame (bytes m f len) s.frameRssi with
      | some found => s.emit (.found found)
      | none => s
    else if beacon ∧ s.state = .scan then handleBeacon m f len s
    else if type = 2 ∧ s.state = .done ∧ macAt m (f + 10) = s.bssid ∧
        (macAt m (f + 4) = s.mac ∨ m (f + 4) &&& 1 ≠ 0) then
      handleData cycles m f len h decrypted s
    else if macAt m (f + 4) ≠ s.mac then s
    else if type = 0 then handleMgmt m f len sub s
    else if type = 2 ∧ fc / 2 ^ 14 % 2 = 0 then
      if len ≥ h + 8 + ekData ∧ m (f + h) = 0xaa ∧ m (f + h + 1) = 0xaa ∧ m (f + h + 6) = 0x88 ∧
          m (f + h + 7) = 0x8e then
        handleEapol cycles m (f + h + 8) (len - h - 8) s
      else s
    else s

/-- The signal of a frame from its PHY status at `ps`. -/
def phyRssi (m : Mem) (ps rate : Nat) : Int :=
  if rate < 4 then
    let lna := (m (ps + 5)).toNat / 2 ^ 5
    let vga : Int := (m (ps + 5)).toNat % 2 ^ 5
    if lna = 7 then if vga ≤ 27 then -100 + 2 * (27 - vga) else -100
    else if lna = 5 then -74 + 2 * (21 - vga)
    else if lna = 3 then -60 + 2 * (20 - vga)
    else if lna = 1 then -44 + 2 * (19 - vga)
    else -100
  else (m (ps + 4)).toNat / 2 - 110

/-- A transfer's packet: where it is, its parts, and how long all of it is. -/
structure Packet where
  frame : Nat
  len : Nat
  total : Nat
  w0 : Nat
  w2 : Nat

/-- The packet whose descriptor is at `off`. -/
def packetAt (m : Mem) (off : Nat) : Packet :=
  let w0 := le32 m off
  let pktlen := w0 % 2 ^ 14
  let drvinfo := w0 / 2 ^ 16 % 2 ^ 4 * 8
  let shift := w0 / 2 ^ 24 % 2 ^ 2
  { frame := off + 24 + drvinfo + shift
    len := pktlen
    total := 24 + drvinfo + shift + pktlen
    w0
    w2 := le32 m (off + 8) }

/-- The chip decrypted the packet. -/
def Packet.decrypted (p : Packet) : Bool := p.w0 / 2 ^ 20 % 2 ^ 3 ≠ 0 ∧ p.w0 / 2 ^ 27 % 2 = 0

/-- A packet that is a whole frame. -/
def handlePacket (m : Mem) (off : Nat) (p : Packet) (s : Station) : Station :=
  if p.w0 / 2 ^ 14 % 2 ^ 2 = 0 ∧ p.w2 / 2 ^ 28 % 2 = 0 then
    let rssi := if p.w0 / 2 ^ 26 % 2 = 1 ∧ p.w0 / 2 ^ 16 % 2 ^ 4 * 8 ≥ 8 then
        phyRssi m (off + 24) (le32 m (off + 12) % 2 ^ 7)
      else -100
    handleFrame cycles m p.frame p.len p.decrypted { s with frameRssi := rssi }
  else s

/-- `while (off + 24 <= len)` -/
def rxLoop (m : Mem) (len off : Nat) (s : Station) : Station :=
  if off + 24 ≤ len then
    let p := packetAt m off
    if p.len = 0 ∨ off + p.total > len then s
    else rxLoop m len (off + (p.total + 127) / 2 ^ 7 * 2 ^ 7) (handlePacket cycles m off p s)
  else s
termination_by len - off
decreasing_by
  have htotal : 24 ≤ (packetAt m off).total := by
    simp only [packetAt]
    omega
  omega

/-- A transfer that was received: memory from its buffer on, and its length. -/
structure Transfer where
  mem : Mem
  len : Nat

def handleRx (t : Transfer) (s : Station) : Station := rxLoop cycles t.mem t.len 0 s

-- ==================================================================== joining

/-- `wlan_rx_pump`: what one call finds, at most 8 transfers. -/
def Station.wlanRxPump (ts : List Transfer) (s : Station) : Station :=
  (ts.take 8).foldl (fun s t => handleRx cycles t s) s

/-- `wlan_listen`: what each of its pumps finds while the time lasts. -/
def wlanListen (pumps : List (List Transfer)) (untilChange : Bool) (s : Station) : Station :=
  let s0 := s.state
  pumps.foldl (fun s ts => if untilChange ∧ s.state ≠ s0 then s else Station.wlanRxPump cycles ts s) s

def wlanKeysOff (s : Station) : Station :=
  if s.keysOn then { (s.emit (.security false)).emit .clearCam with keysOn := false } else s

def rtlSetChannel (ch : Nat) (s : Station) : Station := s.emit (.channel ch)

/-- What the air has for each call of `wlan_listen`. -/
abbrev Air := Nat → List (List Transfer)

/-- All channels, each listened to once, from the `k`th call on. -/
def wlanScan (air : Air) (s : Station) : Station :=
  let s := { wlanKeysOff s with scanCb := true, state := .scanAll }
  let s := (List.range 13).foldl (fun s i =>
    wlanListen cycles (air i) false (sendProbeFor [] (rtlSetChannel (i + 1) s))) s
  { s with state := .idle, scanCb := false }

/-- Two rounds over the channels, while the network is not found; what is
heard on channel `ch` of round `r` is call `13 * r + ch - 1`. -/
def findNetwork (air : Air) (s : Station) : Station :=
  (List.range 26).foldl (fun s i =>
    if s.state = .scan then
      wlanListen cycles (air i) true (sendProbe (rtlSetChannel (i % 13 + 1) s))
    else s) s

/-- `for (tries = 0; tries < 3 && state == S_AUTH; tries++)` -/
def authenticate (air : Air) (s : Station) : Station :=
  (List.range 3).foldl (fun s i =>
    if s.state = .auth then wlanListen cycles (air (27 + i)) true (sendAuth s) else s) s

/-- `for (tries = 0; tries < 3 && state == S_ASSOC; tries++)` -/
def associate (air : Air) (s : Station) : Station :=
  (List.range 3).foldl (fun s i =>
    if s.state = .assoc then
      wlanListen cycles (air (30 + i)) true (if i ≠ 0 then sendAssoc s else s)
    else s) s

/-- `wlan_listen (3000, 1)`, twice if nothing changes. -/
def fourWayHandshake (air : Air) (s : Station) : Station :=
  if s.state = .fourWay then
    let s := wlanListen cycles (air 33) true s
    if s.state = .fourWay then wlanListen cycles (air 34) true s else s
  else s

/-- The state in which the network is looked for. -/
def prepare (name pass : List UInt8) (s : Station) : Station :=
  let s := wlanKeysOff s
  let s := { s with ssid := name.take 32, psk := pass.take 63 }
  let s := newSnonce cycles { s with pmk := wpaPmk (.replicate 64 0) s.psk s.ssid }
  { s with apXrates := [s.apXrates.getD 0 0, 0], gtkLen := 0, state := .scan }

/-- A network was found: from the channel on to the end of the handshake. -/
def join (air : Air) (s : Station) : Station :=
  let s := if s.apChannel ≠ 0 then rtlSetChannel s.apChannel s else s
  let s := wlanListen cycles (air 26) false (sendDeauth { s with state := .scan })
  fourWayHandshake cycles air (associate cycles air (authenticate cycles air { s with state := .auth }))

/-- `name` and `pass` without their NULs; what is heard in its calls of
`wlan_listen` is numbered as they stand in the text. -/
def wlanConnect (air : Air) (name pass : List UInt8) (s : Station) : Int × Station :=
  if (pass.take 63).length < 8 then
    (-1, { wlanKeysOff s with ssid := name.take 32, psk := pass.take 63, state := .idle })
  else
    let s := findNetwork cycles air (prepare cycles name pass s)
    if s.state ≠ .auth then (-1, { s with state := .idle })
    else if ¬s.apRsnOk then (-1, { s with state := .idle })
    else
      let s := join cycles air s
      if s.state ≠ .done then (-1, { s with state := .idle })
      else (0, { s with rssi := if s.frameRssi > -100 then s.frameRssi else -70 })

/-- `wlan_poll`: 0 or -1. -/
def wlanPoll (pumps : List (List Transfer)) (s : Station) : Int × Station :=
  let s := wlanListen cycles pumps false { s with rxCb := true }
  (if s.state = .done then 0 else -1, s)

-- ====================================================================== calls

/-- A call from outside, with what it hears. -/
inductive Call where
  | send (dst : Mac) (type : Nat) (data : List UInt8)
  | pump (ts : List Transfer)
  | poll (pumps : List (List Transfer))
  | scan (air : Air)
  | connect (air : Air) (name pass : List UInt8)
  | installKeys

def Station.call (s : Station) : Call → Station
  | .send dst type data => (wlanSend dst type data s).2
  | .pump ts => Station.wlanRxPump cycles ts s
  | .poll pumps => (wlanPoll cycles pumps s).2
  | .scan air => wlanScan cycles air s
  | .connect air name pass => (wlanConnect cycles air name pass s).2
  | .installKeys => wlanInstallKeys s

def Station.calls (cs : List Call) (s : Station) : Station := cs.foldl (Station.call cycles) s

end Ncmips.Wlan
