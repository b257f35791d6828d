/-
What a received frame can do to the station.

`Core` is what decides about a connection: addresses, state and the keys
that are derived. Sending, unwrapping and the group key leave it alone, so
a key frame does one of four things to it (`eapol_core`), and a frame one
of five (`frame_core`): every invariant over received frames is a case
split on these.
-/
import Ncmips.Wlan.Station

namespace Ncmips.Wlan

open Words Wpa

/-- What decides about a connection. -/
structure Core where
  mac : Mac
  bssid : Mac
  state : State
  keysOn : Bool
  pmk : List UInt8
  ptk : List UInt8
  snonce : List UInt8
  ticks : Nat

def Station.core (s : Station) : Core where
  mac := s.mac
  bssid := s.bssid
  state := s.state
  keysOn := s.keysOn
  pmk := s.pmk
  ptk := s.ptk
  snonce := s.snonce
  ticks := s.ticks

variable {cycles : Nat → Nat} {m : Mem} {s : Station}

-- ================================================================== sending

theorem wlanSend_core (dst : Mac) (type : Nat) (data : List UInt8) (s : Station) :
    (wlanSend dst type data s).2.core = s.core := by
  unfold wlanSend hdr
  dsimp only
  split
  · rfl
  · split
    · rfl
    · rfl

theorem sendEapol_core (info : Nat) (replay nonce data : List UInt8) (s : Station) :
    (sendEapol info replay nonce data s).core = s.core := by
  unfold sendEapol hdr
  dsimp only
  split
  · exact wlanSend_core _ _ _ _
  · rfl

theorem findGtk_core (k : Mem) (n i : Nat) (s : Station) : (findGtk k n i s).core = s.core := by
  induction hn : n - i using Nat.strongRecOn generalizing i s with
  | ind r ih =>
      rw [findGtk]
      split
      · extract_lets len found
        have hfound : found.core = s.core := by
          unfold found
          split
          · rfl
          · rfl
        split
        · exact hfound
        · exact (ih _ (by omega) _ found rfl).trans hfound
      · rfl

theorem unwrapKd_core (m : Mem) (e info dlen : Nat) (s : Station) :
    (unwrapKd m e info dlen s).2.core = s.core := by
  unfold unwrapKd
  split
  · rfl
  · rfl

theorem camGroup_core (s : Station) : (camGroup s).core = s.core := by
  unfold camGroup
  split
  · rfl
  · rfl

-- =============================================================== a key frame

theorem groupMessage_core (m : Mem) (e info dlen : Nat) (s : Station) :
    (groupMessage m e info dlen s).core = s.core := by
  have hunwrap := unwrapKd_core m e info dlen s
  unfold groupMessage
  extract_lets r src opened sent
  have hopened : opened.core = s.core := by
    unfold opened
    split
    · exact (camGroup_core _).trans ((findGtk_core _ _ _ _).trans hunwrap)
    · exact hunwrap
  exact (sendEapol_core _ _ _ _ opened).trans hopened

theorem wlanInstallKeys_core (s : Station) :
    (wlanInstallKeys s).core = { s.core with keysOn := true } := by
  unfold wlanInstallKeys
  extract_lets cleared pairwise group
  have hgroup : group.core = s.core := by
    unfold group
    split
    · rfl
    · rfl
  exact congrArg (fun c : Core => { c with keysOn := true }) hgroup

theorem rekey_core (s : Station) (hkeys : s.keysOn) : (rekey s).core = s.core := by
  have hinstall := wlanInstallKeys_core s
  have hon : s.core = { s.core with keysOn := true } := by
    rw [← hkeys]
    rfl
  exact hinstall.trans hon.symm

theorem messageThree_core (m : Mem) (e info dlen : Nat) (s : Station) :
    (messageThree m e info dlen s).core = { s.core with state := .done } := by
  have hunwrap := unwrapKd_core m e info dlen s
  unfold messageThree
  extract_lets r opened sent installed
  have hopened : opened.core = s.core := by
    unfold opened
    split
    · exact (findGtk_core _ _ _ _).trans hunwrap
    · exact hunwrap
  have hsent : sent.core = s.core := (sendEapol_core _ _ _ _ opened).trans hopened
  have hinstalled : installed.core = s.core := by
    unfold installed
    split
    · next hkeys => exact (rekey_core sent hkeys).trans hsent
    · exact hsent
  exact congrArg (fun c : Core => { c with state := .done }) hinstalled

/-- Message 2 sends a new nonce if there are keys. -/
def Core.renonce (cycles : Nat → Nat) (c : Core) : Core :=
  if c.keysOn then { c with snonce := snonceOf cycles c.pmk c.mac c.ticks, ticks := c.ticks + 2 }
  else c

/-- With the key from the access point's nonce. -/
def Core.derive (anonce : List UInt8) (c : Core) : Core :=
  { c with ptk := ptkOf c.pmk c.mac c.bssid anonce c.snonce }

theorem messageOne_core (cycles : Nat → Nat) (m : Mem) (e : Nat) (s : Station) :
    (messageOne cycles m e s).core
      = (s.core.renonce cycles).derive (bytes m (e + ekNonce) 32) := by
  unfold messageOne Core.renonce
  dsimp only
  rw [sendEapol_core]
  split
  · next hkeys =>
    have hon : s.core.keysOn = true := hkeys
    rw [if_pos hon]
    rfl
  · next hkeys =>
    have hoff : ¬s.core.keysOn = true := hkeys
    rw [if_neg hoff]
    rfl

/-- The kinds of a key frame at `e`. -/
def keyInfo (m : Mem) (e : Nat) : Nat := be16 m (e + ekInfo)

def keyLen (m : Mem) (e : Nat) : Nat := 4 + be16 m (e + 2)

/-- A message 1: a nonce of the access point's, without a MIC. -/
def IsMessageOne (m : Mem) (e : Nat) : Prop :=
  keyInfo m e &&& 7 = 2 ∧ keyInfo m e &&& (kiPairwise ||| kiAck ||| kiMic) = kiPairwise ||| kiAck

/-- A message 3: one with a MIC. -/
def IsMessageThree (m : Mem) (e : Nat) : Prop :=
  keyInfo m e &&& 7 = 2 ∧
    keyInfo m e &&& (kiPairwise ||| kiAck ||| kiMic) = kiPairwise ||| kiAck ||| kiMic

/-- What a key frame at `e` does to a connection. -/
inductive EapolEffect (cycles : Nat → Nat) (m : Mem) (e len : Nat) (c : Core) : Core → Prop
  | same : EapolEffect cycles m e len c c
  | fail : EapolEffect cycles m e len c { c with state := .fail }
  | one (hlen : ekData ≤ len ∧ keyLen m e ≤ len) (hkind : IsMessageOne m e) :
      EapolEffect cycles m e len c ((c.renonce cycles).derive (bytes m (e + ekNonce) 32))
  | three (hlen : ekData ≤ len ∧ keyLen m e ≤ len) (hkind : IsMessageThree m e)
      (hmic : micOk c.ptk m e (keyLen m e)) :
      EapolEffect cycles m e len c { c with state := .done }

theorem eapol_core (cycles : Nat → Nat) (m : Mem) (e len : Nat) (s : Station) :
    EapolEffect cycles m e len s.core (handleEapol cycles m e len s).core := by
  unfold handleEapol
  split
  · exact .same
  · next hkey =>
    simp only [not_or, Nat.not_lt] at hkey
    dsimp only
    split
    · exact .same
    · next helen =>
      have hlen : ekData ≤ len ∧ keyLen m e ≤ len := ⟨hkey.1, Nat.le_of_not_lt helen⟩
      split
      · exact .fail
      · next hver =>
        rw [not_not] at hver
        split
        · split
          · rw [groupMessage_core]
            exact .same
          · exact .same
        · split
          · next hone =>
            rw [messageOne_core]
            exact .one hlen ⟨hver, hone⟩
          · split
            · next hthree =>
              split
              · next hmic =>
                rw [messageThree_core]
                exact .three hlen ⟨hver, hthree⟩ hmic
              · exact .fail
            · exact .same

-- ==================================================================== a frame

/-- A data frame that ends before its own header, as a QoS one can. -/
def Runt (m : Mem) (f len : Nat) : Prop := len < 26 ∧ (m f).toNat / 2 ^ 7 = 1

/-- `n` bytes at `e` are in the frame, behind its header and the LLC's. -/
structure InFrame (f len e n : Nat) : Prop where
  behind : f + 32 ≤ e
  within : e + n ≤ f + len

/-- The header of a data frame. -/
theorem handleFrame_header (m : Mem) (f h : Nat)
    (hh : h = if le16 m f / 2 ^ 4 % 2 ^ 4 / 2 ^ 3 % 2 = 1 then 26 else 24) :
    h = 24 ∨ (h = 26 ∧ (m f).toNat / 2 ^ 7 = 1) := by
  have hbyte := (m f).toNat_lt
  split at hh
  · next hqos =>
    unfold le16 at hqos
    exact .inr ⟨hh, by omega⟩
  · exact .inl hh

/-- What a frame of `len` bytes at `f` does to a connection. -/
inductive FrameEffect (cycles : Nat → Nat) (m : Mem) (f len : Nat) (c : Core) : Core → Prop
  | same : FrameEffect cycles m f len c c
  | found (hstate : c.state = .scan) (b : Mac) :
      FrameEffect cycles m f len c { c with bssid := b, state := .auth }
  | answer (st : State) (hst : st = .fail ∨ (c.state = .auth ∧ st = .assoc) ∨
        (c.state = .assoc ∧ st = .fourWay)) :
      FrameEffect cycles m f len c { c with state := st }
  | key (e n : Nat) (hin : InFrame f len e n ∨ (c.state = .done ∧ Runt m f len)) {c' : Core}
      (hkey : EapolEffect cycles m e n c c') : FrameEffect cycles m f len c c'

theorem sendMgmt_core (fc : Nat) (a1 a3 : Mac) (body : List UInt8) (s : Station) :
    (sendMgmt fc a1 a3 body s).core = s.core := rfl

theorem heardAp_core (m : Mem) (f : Nat) (s : Station) : (heardAp m f s).core = s.core := by
  unfold heardAp
  split
  · rfl
  · rfl

theorem beaconElement_eq (r : Beacon × Station) (ie : UInt8 × List UInt8) :
    ∃ rates xrates, (beaconElement r ie).2 = { r.2 with apRates := rates, apXrates := xrates } := by
  unfold beaconElement
  dsimp only
  split
  · exact ⟨_, _, rfl⟩
  · split
    · exact ⟨_, _, rfl⟩
    · split
      · exact ⟨_, _, rfl⟩
      · split
        · exact ⟨_, _, rfl⟩
        · split
          · exact ⟨_, _, rfl⟩
          · exact ⟨_, _, rfl⟩

/-- The elements of a beacon are about rates, as far as the station goes. -/
theorem beaconElements_eq (ies : List (UInt8 × List UInt8)) (r : Beacon × Station) :
    ∃ rates xrates, (ies.foldl beaconElement r).2
      = { r.2 with apRates := rates, apXrates := xrates } := by
  induction ies generalizing r with
  | nil => exact ⟨_, _, rfl⟩
  | cons ie ies ih =>
      obtain ⟨rates, xrates, hone⟩ := beaconElement_eq r ie
      obtain ⟨rates', xrates', hall⟩ := ih (beaconElement r ie)
      refine ⟨rates', xrates', ?_⟩
      rw [List.foldl_cons, hall, hone]

theorem handleBeacon_core (m : Mem) (f len : Nat) (s : Station) (hstate : s.state = .scan) :
    FrameEffect cycles m f len s.core (handleBeacon m f len s).core := by
  obtain ⟨rates, xrates, hread⟩ :=
    beaconElements_eq (Net.elements (bytes m (f + 36) (len - 36))) ({}, s)
  unfold handleBeacon
  dsimp only
  rw [hread]
  split
  · exact .found hstate _
  · exact .same

theorem handleMgmt_core (m : Mem) (f len sub : Nat) (s : Station) :
    FrameEffect cycles m f len s.core (handleMgmt m f len sub s).core := by
  unfold handleMgmt
  split
  · next hauth =>
    split
    · exact .answer .fail (.inl rfl)
    · exact .answer .assoc (.inr (.inl ⟨hauth.2.1, rfl⟩))
  · split
    · next hassoc =>
      by_cases hstatus : le16 m (f + 26) ≠ 0
      · rw [if_pos hstatus]
        exact .answer .fail (.inl rfl)
      · rw [if_neg hstatus]
        exact .answer .fourWay (.inr (.inr ⟨hassoc.2.1, rfl⟩))
    · split
      · exact .answer .fail (.inl rfl)
      · exact .same

/-- The data of a frame whose header is `h` bytes, if it has that many. -/
theorem handleData_core (m : Mem) (f len h : Nat) (decrypted : Bool) (s : Station)
    (hdone : s.state = .done) (hh : h = 24 ∨ (h = 26 ∧ (m f).toNat / 2 ^ 7 = 1))
    (hlen : 24 ≤ len) (hbound : len < 2 ^ 32) :
    FrameEffect cycles m f len s.core (handleData cycles m f len h decrypted s).core := by
  unfold handleData
  split
  · exact .same
  · extract_lets secured p n
    split
    · exact .same
    · next hsecured =>
      split
      · exact .same
      · next hllc =>
        split
        · exact .same
        · split
          · refine .key (p + 8) (n - 8) ?_ (eapol_core cycles m (p + 8) (n - 8) s)
            by_cases hrunt : len < h
            · exact .inr ⟨hdone, by omega, by omega⟩
            · refine .inl ?_
              have hsub : sub32 len h = len - h := sub32_of_le (by omega) hbound
              have hn : ¬n < 8 := fun hn => hllc (.inl hn)
              unfold n at hn ⊢
              unfold p
              split at hn
              · next hs =>
                rw [if_pos hs, if_pos hs]
                exact ⟨by omega, by omega⟩
              · next hs =>
                rw [if_neg hs, if_neg hs]
                exact ⟨by omega, by omega⟩
          · split
            · exact .same
            · exact .same

theorem frame_core (cycles : Nat → Nat) (m : Mem) (f len : Nat) (decrypted : Bool) (s : Station)
    (hbound : len < 2 ^ 32) :
    FrameEffect cycles m f len s.core (handleFrame cycles m f len decrypted s).core := by
  unfold handleFrame
  split
  · exact .same
  · next hlen =>
    rw [← heardAp_core m f s]
    extract_lets s1 fc type sub h beacon
    have hh := handleFrame_header m f h rfl
    split
    · split
      · exact .same
      · exact .same
    · split
      · next hscan => exact handleBeacon_core m f len s1 hscan.2
      · split
        · next hdata => exact handleData_core m f len h decrypted s1 hdata.2.1 hh (by omega) hbound
        · split
          · exact .same
          · split
            · exact handleMgmt_core m f len sub s1
            · split
              · split
                · exact .key _ _ (.inl ⟨by omega, by omega⟩) (eapol_core cycles m _ _ s1)
                · exact .same
              · exact .same

end Ncmips.Wlan
