/-
What a connection has seen when it is there.

`wlan_connect` says 0 only if a message 3 was in one of the frames that it
received, and its MIC was right under a pairwise key that the station had:
the one from before the call, or one from the passphrase, a message 1 of
this call and the nonce made in it (`wlanConnect_proven`). `Joining` is
what every frame keeps until then.
-/
import Ncmips.Wlan.Proofs.Handshake

namespace Ncmips.Wlan

open Words Wpa

variable {cycles : Nat → Nat}

-- ============================================================ the evidence

/-- What a call has to do with: the transfers it gets and what it was
started with. -/
structure Joint where
  received : Transfer → Prop
  mac : Mac
  pmk : List UInt8
  snonce : List UInt8
  /-- The pairwise key from before. -/
  before : List UInt8

variable (j : Joint)

/-- A pairwise key from a message 1. -/
structure Joint.Derived (ptk : List UInt8) (t : Transfer) (f len e : Nat) (bssid : Mac) : Prop where
  received : j.received t
  frame : Frame t f len
  place : InFrame f len e ekData ∨ Runt t.mem f len
  kind : IsMessageOne t.mem e
  ptk : ptk = ptkOf j.pmk j.mac bssid (bytes t.mem (e + ekNonce) 32) j.snonce

/-- A pairwise key that the station can have. -/
def Joint.Key (ptk : List UInt8) : Prop :=
  ptk = j.before ∨ ∃ t f len e bssid, j.Derived ptk t f len e bssid

/-- A message 3, wholly in a frame, with a right MIC under `ptk`. -/
structure Joint.Verified (ptk : List UInt8) (t : Transfer) (f len e : Nat) : Prop where
  received : j.received t
  frame : Frame t f len
  place : InFrame f len e (keyLen t.mem e)
  kind : IsMessageThree t.mem e
  mic : micOk ptk t.mem e (keyLen t.mem e)

def Joint.Proven : Prop := ∃ ptk, j.Key ptk ∧ ∃ t f len e, j.Verified ptk t f len e

-- ============================================================ the invariant

/-- While a network is joined. -/
structure Joining (c : Core) : Prop where
  mac : c.mac = j.mac
  pmk : c.pmk = j.pmk
  snonce : c.snonce = j.snonce
  off : c.keysOn = false
  key : j.Key c.ptk
  done : c.state = .done → j.Proven

variable {j}

theorem Joining.state {c : Core} (h : Joining j c) (st : State) (hst : st = .done → j.Proven) :
    Joining j { c with state := st } :=
  { h with done := hst }

theorem Joining.eapol {c c' : Core} (h : Joining j c) {t : Transfer} (ht : j.received t) {f len e n : Nat}
    (hf : Frame t f len) (hin : InFrame f len e n ∨ (c.state = .done ∧ Runt t.mem f len))
    (heffect : EapolEffect cycles t.mem e n c c') : Joining j c' := by
  cases heffect with
  | same => exact h
  | fail => exact h.state _ nofun
  | one hlen hkind =>
      have hkept : c.renonce cycles = c := if_neg (by rw [h.off]; exact Bool.false_ne_true)
      rw [hkept]
      refine { h with key := .inr ⟨t, f, len, e, c.bssid, ht, hf, ?_, hkind, ?_⟩ }
      · exact hin.imp (fun hin => ⟨hin.behind, by have := hin.within; omega⟩) (·.2)
      · unfold Core.derive
        rw [h.pmk, h.mac, h.snonce]
  | three hlen hkind hmic =>
      refine h.state _ fun _ => ?_
      rcases hin with hin | ⟨hdone, -⟩
      · exact ⟨c.ptk, h.key, t, f, len, e, ht, hf,
          ⟨hin.behind, by have := hin.within; omega⟩, hkind, hmic⟩
      · exact h.done hdone

theorem Joining.frame {c c' : Core} (h : Joining j c) {t : Transfer} (ht : j.received t) {f len : Nat}
    (hf : Frame t f len) (heffect : FrameEffect cycles t.mem f len c c') : Joining j c' := by
  cases heffect with
  | same => exact h
  | found hstate b => exact { h with done := nofun }
  | answer st hst =>
      refine h.state st fun hdone => ?_
      rcases hst with rfl | ⟨-, rfl⟩ | ⟨-, rfl⟩ <;> exact absurd hdone nofun
  | key e n hin hkey => exact h.eapol ht hf hin hkey

theorem joining_kept : Kept cycles j.received fun s => Joining j s.core where
  signal _ _ hs := hs
  frame t ht f len decrypted hf s hs :=
    hs.frame ht hf.toFrame (frame_core cycles t.mem f len decrypted s (by have := hf.short; omega))

-- =============================================================== wlan_connect

theorem wlanKeysOff_core (s : Station) : (wlanKeysOff s).core = { s.core with keysOn := false } := by
  unfold wlanKeysOff
  split
  · rfl
  · next hkeys =>
    rw [Bool.not_eq_true] at hkeys
    rw [← hkeys]
    rfl

theorem sendAssoc_core (s : Station) : (sendAssoc s).core = s.core := rfl

/-- What is heard in the first 35 calls of `wlan_listen`. -/
def Air.received (air : Air) (t : Transfer) : Prop := ∃ k < 35, ∃ ts ∈ air k, t ∈ ts.take 8

/-- A call of `wlan_connect` from `s`. -/
def Station.joint (cycles : Nat → Nat) (air : Air) (name pass : List UInt8) (s : Station) : Joint where
  received := air.received
  mac := s.mac
  pmk := wpaPmk (.replicate 64 0) (pass.take 63) (name.take 32)
  snonce := snonceOf cycles (wpaPmk (.replicate 64 0) (pass.take 63) (name.take 32)) s.mac s.ticks
  before := s.ptk

theorem prepare_joining (cycles : Nat → Nat) (air : Air) (name pass : List UInt8) (s : Station) :
    Joining (s.joint cycles air name pass) (prepare cycles name pass s).core := by
  have hoff := wlanKeysOff_core s
  unfold prepare
  extract_lets off named
  have hmac : off.mac = s.mac := congrArg Core.mac hoff
  have hptk : off.ptk = s.ptk := congrArg Core.ptk hoff
  have hkeys : off.keysOn = false := congrArg Core.keysOn hoff
  have hticks : off.ticks = s.ticks := congrArg Core.ticks hoff
  exact
    { mac := hmac
      pmk := rfl
      snonce := by
        show snonceOf cycles _ off.mac off.ticks = _
        rw [hmac, hticks]
        rfl
      off := hkeys
      key := .inl hptk
      done := nofun }

variable {air : Air}

theorem Joining.listen {j : Joint} (hj : j.received = air.received) {k : Nat} (hk : k < 35)
    (untilChange : Bool) {s : Station} (h : Joining j s.core) :
    Joining j (wlanListen cycles (air k) untilChange s).core :=
  joining_kept.listen (fun ts hts _ ht => hj ▸ ⟨k, hk, ts, hts, ht⟩) untilChange h

theorem findNetwork_joining {j : Joint} (hj : j.received = air.received) {s : Station}
    (h : Joining j s.core) : Joining j (findNetwork cycles air s).core := by
  unfold findNetwork
  refine List.foldlRecOn (motive := fun s : Station => Joining j s.core) _ _ h fun s hs i hi => ?_
  split
  · have hi := List.mem_range.1 hi
    exact Joining.listen hj (k := i) (by omega) true hs
  · exact hs

theorem authenticate_joining {j : Joint} (hj : j.received = air.received) {s : Station}
    (h : Joining j s.core) : Joining j (authenticate cycles air s).core := by
  unfold authenticate
  refine List.foldlRecOn (motive := fun s : Station => Joining j s.core) _ _ h fun s hs i hi => ?_
  split
  · have hi := List.mem_range.1 hi
    exact Joining.listen hj (k := 27 + i) (by omega) true hs
  · exact hs

theorem associate_joining {j : Joint} (hj : j.received = air.received) {s : Station}
    (h : Joining j s.core) : Joining j (associate cycles air s).core := by
  unfold associate
  refine List.foldlRecOn (motive := fun s : Station => Joining j s.core) _ _ h fun s hs i hi => ?_
  split
  · have hi := List.mem_range.1 hi
    refine Joining.listen hj (k := 30 + i) (by omega) true ?_
    split
    · exact hs
    · exact hs
  · exact hs

theorem fourWayHandshake_joining {j : Joint} (hj : j.received = air.received) {s : Station}
    (h : Joining j s.core) : Joining j (fourWayHandshake cycles air s).core := by
  unfold fourWayHandshake
  split
  · extract_lets first
    have hfirst : Joining j first.core := h.listen hj (by omega) true
    split
    · exact hfirst.listen hj (by omega) true
    · exact hfirst
  · exact h

theorem join_joining {j : Joint} (hj : j.received = air.received) {s : Station}
    (h : Joining j s.core) : Joining j (join cycles air s).core := by
  unfold join
  extract_lets tuned quiet
  have htuned : Joining j tuned.core := by
    unfold tuned
    split
    · exact h
    · exact h
  have hquiet : Joining j quiet.core := by
    refine Joining.listen hj (by omega) false ?_
    exact htuned.state .scan nofun
  exact fourWayHandshake_joining hj (associate_joining hj (authenticate_joining hj
    (hquiet.state .auth nofun)))

/-- A connection is there only with a message 3 that proves it, and its key
is from before or from a message 1 of the call. -/
theorem wlanConnect_proven (cycles : Nat → Nat) (air : Air) (name pass : List UInt8) (s : Station)
    (h : (wlanConnect cycles air name pass s).1 = 0) :
    (s.joint cycles air name pass).Proven
      ∧ (s.joint cycles air name pass).Key (wlanConnect cycles air name pass s).2.ptk := by
  unfold wlanConnect at h ⊢
  by_cases hshort : (pass.take 63).length < 8
  · rw [if_pos hshort] at h
    exact absurd h (show (-1 : Int) ≠ 0 by decide)
  · rw [if_neg hshort] at h ⊢
    dsimp only at h ⊢
    have hfound : Joining (s.joint cycles air name pass)
        (findNetwork cycles air (prepare cycles name pass s)).core :=
      findNetwork_joining rfl (prepare_joining cycles air name pass s)
    generalize findNetwork cycles air (prepare cycles name pass s) = found at h hfound ⊢
    split at h
    · exact absurd h (show (-1 : Int) ≠ 0 by decide)
    · next hauth =>
      split at h
      · exact absurd h (show (-1 : Int) ≠ 0 by decide)
      · next hrsn =>
        split at h
        · exact absurd h (show (-1 : Int) ≠ 0 by decide)
        · next hdone =>
          rw [not_not] at hdone
          have hjoined : Joining (s.joint cycles air name pass) (join cycles air found).core :=
            join_joining rfl hfound
          generalize join cycles air found = joined at hdone hjoined ⊢
          rw [if_neg hauth, if_neg hrsn, if_neg (not_not_intro hdone)]
          exact ⟨hjoined.done hdone, hjoined.key⟩

-- ========================================== a connection without a message 1

/-- One packet: the descriptor has its length and nothing else. -/
def oneFrame (frame : List UInt8) : Transfer where
  mem i := (([UInt8.ofNat frame.length, 0] : List UInt8) ++ List.replicate 22 0 ++ frame).getD i 0
  len := 24 + frame.length

def ourMac : Mac := .replicate 6 2

def theirMac : Mac := .replicate 6 4

/-- A beacon of the network "n", with an RSN element. -/
def nBeacon : List UInt8 :=
  [0x80, 0, 0, 0] ++ bcast.toList ++ theirMac.toList ++ theirMac.toList ++ List.replicate 14 0
    ++ [0, 1, 0x6e, 48, 0]

/-- A message 3 with its MIC under a key of zeros, from before any message 1. -/
def zeroThird : List UInt8 :=
  [0x08, 0x02, 0, 0] ++ ourMac.toList ++ theirMac.toList ++ theirMac.toList ++ [0, 0]
    ++ llc ++ putBe16 0x888e
    ++ eapolFrame (.replicate 48 0) (kiVer2 ||| kiPairwise ||| kiAck ||| kiMic) (.replicate 8 0)
      noNonce []

def zeroAir : Air := fun k =>
  if k = 0 then [[oneFrame nBeacon]] else if k = 27 then [[oneFrame zeroThird]] else []

theorem micOk_zeroThird : micOk (.replicate 48 0) (oneFrame zeroThird).mem 56 99 = true := by
  have haccept := eapolFrame_accepted (show (List.replicate 8 (0 : UInt8)).length = 8 from rfl)
    (show noNonce.length = 32 from rfl) (.replicate 48 0) (kiVer2 ||| kiPairwise ||| kiAck ||| kiMic) []
  refine (micOk_moved (fun i => ?_) _ _).trans haccept
  have hfront := sent_behind ([UInt8.ofNat zeroThird.length, 0] ++ List.replicate 22 0 ++ ([0x08, 0x02, 0, 0]
    ++ ourMac.toList ++ theirMac.toList ++ theirMac.toList ++ [0, 0] ++ llc ++ putBe16 0x888e))
    (eapolFrame (.replicate 48 0) (kiVer2 ||| kiPairwise ||| kiAck ||| kiMic) (.replicate 8 0) noNonce []) i
  rw [Nat.zero_add, ← hfront, List.append_assoc]
  rfl

theorem handleEapol_zeroThird {s : Station} (hptk : s.ptk = .replicate 48 0) :
    handleEapol cycles (oneFrame zeroThird).mem 56 99 s
      = messageThree (oneFrame zeroThird).mem 56 (kiVer2 ||| kiPairwise ||| kiAck ||| kiMic) 0 s := by
  have hlength : be16 (oneFrame zeroThird).mem (56 + 2) = 95 := by decide +kernel
  have hinfo : be16 (oneFrame zeroThird).mem (56 + ekInfo) = kiVer2 ||| kiPairwise ||| kiAck ||| kiMic := by
    decide +kernel
  have hdlen : be16 (oneFrame zeroThird).mem (56 + ekDlen) = 0 := by decide +kernel
  unfold handleEapol
  rw [if_neg (by decide +kernel)]
  dsimp only
  rw [hlength, hinfo, hdlen, if_neg (by decide), if_neg (by decide), if_neg (by decide), if_neg (by decide),
    if_pos (by decide), hptk, if_pos micOk_zeroThird]

theorem handleFrame_zeroThird {s : Station} (hmac : s.mac = ourMac) (hptk : s.ptk = .replicate 48 0)
    (hdone : s.state ≠ .done) :
    handleFrame cycles (oneFrame zeroThird).mem 24 131 false s
      = messageThree (oneFrame zeroThird).mem 56 (kiVer2 ||| kiPairwise ||| kiAck ||| kiMic) 0 s := by
  have hap : heardAp (oneFrame zeroThird).mem 24 s = s := if_neg fun h => hdone h.1
  have hfc : le16 (oneFrame zeroThird).mem 24 = 0x0208 := by decide +kernel
  have hforUs : macAt (oneFrame zeroThird).mem (24 + 4) = ourMac := by decide +kernel
  have hllc : (oneFrame zeroThird).mem (24 + 24) = 0xaa ∧ (oneFrame zeroThird).mem (24 + 24 + 1) = 0xaa
      ∧ (oneFrame zeroThird).mem (24 + 24 + 6) = 0x88 ∧ (oneFrame zeroThird).mem (24 + 24 + 7) = 0x8e := by
    decide +kernel
  unfold handleFrame
  rw [if_neg (by decide), hap]
  extract_lets heard fc type sub h beacon
  have hfc' : fc = 0x0208 := hfc
  have htype : type = 2 := by
    unfold type
    rw [hfc']
    rfl
  have hclear : fc / 2 ^ 14 % 2 = 0 := by
    rw [hfc']
    rfl
  have hh : h = 24 := by
    unfold h sub
    rw [hfc']
    rfl
  have hbeacon : ¬beacon = true := by
    unfold beacon
    rw [htype]
    exact fun h => absurd (of_decide_eq_true h).1 (by decide)
  rw [if_neg fun h => hbeacon h.1, if_neg fun h => hbeacon h.1, if_neg fun h => hdone h.2.1,
    if_neg (not_not_intro (hforUs.trans hmac.symm)), if_neg (by rw [htype]; decide),
    if_pos ⟨htype, hclear⟩, hh, if_pos ⟨by decide, hllc⟩]
  exact handleEapol_zeroThird hptk

/-- Any station of `ourMac` with the zeros takes it, if it is not done yet. -/
theorem handleRx_zeroThird {s : Station} (hmac : s.mac = ourMac) (hptk : s.ptk = .replicate 48 0)
    (hdone : s.state ≠ .done) :
    handleRx cycles (oneFrame zeroThird) s
      = messageThree (oneFrame zeroThird).mem 56 (kiVer2 ||| kiPairwise ||| kiAck ||| kiMic) 0
          { s with frameRssi := -100 } := by
  have hlen : (oneFrame zeroThird).len = 155 := by decide +kernel
  have hdesc : packetAt (oneFrame zeroThird).mem 0
      = { frame := 24, len := 131, total := 155, w0 := 131, w2 := 0 } := by
    have hw0 : le32 (oneFrame zeroThird).mem 0 = 131 := by decide +kernel
    have hw2 : le32 (oneFrame zeroThird).mem (0 + 8) = 0 := by decide +kernel
    unfold packetAt
    rw [hw0, hw2]
    rfl
  unfold handleRx
  rw [rxLoop, hlen, hdesc, if_pos (by decide)]
  dsimp only
  rw [if_neg (by decide), rxLoop, if_neg (by decide)]
  unfold handlePacket
  rw [if_pos (by decide)]
  exact handleFrame_zeroThird hmac hptk hdone

theorem authenticate_zeroThird {s : Station} (hmac : s.mac = ourMac) (hptk : s.ptk = .replicate 48 0)
    (hstate : s.state = .auth) : (authenticate cycles zeroAir s).state = .done := by
  have hdone : (sendAuth s).state ≠ .done := fun h => absurd (hstate.symm.trans h) nofun
  have hheard : wlanListen cycles (zeroAir 27) true (sendAuth s)
      = handleRx cycles (oneFrame zeroThird) (sendAuth s) := if_neg fun h => h.2 rfl
  have hfirst : (wlanListen cycles (zeroAir 27) true (sendAuth s)).state = .done := by
    rw [hheard, handleRx_zeroThird (s := sendAuth s) hmac hptk hdone]
    rfl
  have hrest : ¬(wlanListen cycles (zeroAir 27) true (sendAuth s)).state = .auth := by
    rw [hfirst]
    exact State.noConfusion
  unfold authenticate
  rw [show List.range 3 = [0, 1, 2] from rfl, List.foldl_cons, List.foldl_cons, List.foldl_cons, List.foldl_nil,
    if_pos hstate, if_neg hrest, if_neg hrest]
  exact hfirst

theorem associate_done {air : Air} {s : Station} (hdone : s.state = .done) : associate cycles air s = s := by
  have hassoc : ¬s.state = .assoc := by
    rw [hdone]
    exact State.noConfusion
  unfold associate
  rw [show List.range 3 = [0, 1, 2] from rfl, List.foldl_cons, List.foldl_cons, List.foldl_cons, List.foldl_nil,
    if_neg hassoc, if_neg hassoc, if_neg hassoc]

theorem join_zeroThird {s : Station} (hmac : s.mac = ourMac) (hptk : s.ptk = .replicate 48 0) :
    (join cycles zeroAir s).state = .done := by
  unfold join
  extract_lets tuned heard
  have hkept : heard.mac = ourMac ∧ heard.ptk = .replicate 48 0 := by
    have htuned : tuned.mac = ourMac ∧ tuned.ptk = .replicate 48 0 := by
      unfold tuned
      split <;> exact ⟨hmac, hptk⟩
    exact htuned
  have hdone := @authenticate_zeroThird cycles { heard with state := .auth } hkept.1 hkept.2 rfl
  rw [associate_done hdone]
  unfold fourWayHandshake
  rw [if_neg (by rw [hdone]; exact State.noConfusion)]
  exact hdone

theorem wlanConnect_zeroThird {name pass : List UInt8} {s : Station} (hpass : 8 ≤ (pass.take 63).length)
    (hfound : (findNetwork cycles zeroAir (prepare cycles name pass s)).state = .auth
      ∧ (findNetwork cycles zeroAir (prepare cycles name pass s)).apRsnOk = true)
    (hmac : (findNetwork cycles zeroAir (prepare cycles name pass s)).mac = ourMac)
    (hptk : (findNetwork cycles zeroAir (prepare cycles name pass s)).ptk = .replicate 48 0) :
    (wlanConnect cycles zeroAir name pass s).1 = 0 := by
  have hdone := @join_zeroThird cycles _ hmac hptk
  unfold wlanConnect
  rw [if_neg (by omega)]
  dsimp only
  rw [if_neg (not_not_intro hfound.1), if_neg (not_not_intro hfound.2), if_neg (not_not_intro hdone)]

/-- The station as it is after `wlan_up`: its pairwise key is 48 zeros, and
that is a key it takes a message 3 under. -/
theorem wlanConnect_proven_zero :
    let s : Station := { mac := ourMac, bssid := .replicate 6 0 }
    let r := wlanConnect (fun _ => 0) zeroAir [0x6e] (.replicate 8 0x61) s
    r.1 = 0 ∧ (s.joint (fun _ => 0) zeroAir [0x6e] (.replicate 8 0x61)).Proven ∧
      (s.joint (fun _ => 0) zeroAir [0x6e] (.replicate 8 0x61)).Key r.2.ptk := by
  have h : (wlanConnect (fun _ => 0) zeroAir [0x6e] (.replicate 8 0x61)
      { mac := ourMac, bssid := .replicate 6 0 }).1 = 0 :=
    wlanConnect_zeroThird (by decide) (by decide +kernel) (by decide +kernel) (by decide +kernel)
  exact ⟨h, wlanConnect_proven _ _ _ _ _ h⟩

end Ncmips.Wlan
