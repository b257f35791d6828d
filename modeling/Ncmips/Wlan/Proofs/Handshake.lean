/-
The 4-way handshake completes: an access point with the same passphrase
takes the station's answers, and both end up with the same keys.

A message of the access point is any frame that has what the message has to
have; a message of the station is looked at as the access point does.
-/
import Ncmips.Wlan.Ap
import Ncmips.Wlan.Proofs.Link
import Ncmips.Wpa.Proofs.Hmac
import Ncmips.Wpa.Proofs.Unwrap

namespace Ncmips.Wlan

open Words Wpa

variable {cycles : Nat → Nat} {m : Mem} {s : Station}

-- ====================================================================== bytes

theorem bytes_getElem? (m : Mem) (p n i : Nat) :
    (bytes m p n)[i]? = if i < n then some (m (p + i)) else none := by
  unfold bytes
  rw [List.getElem?_map]
  split
  · next h => rw [List.getElem?_range h, Option.map_some]
  · next h => rw [List.getElem?_eq_none (by rw [List.length_range]; omega), Option.map_none]

theorem bytes_add (m : Mem) (p a b : Nat) : bytes m p (a + b) = bytes m p a ++ bytes m (p + a) b := by
  unfold bytes
  rw [List.range_add, List.map_append, List.map_map]
  congr 1
  refine List.map_congr_left fun i _ => ?_
  rw [Function.comp_apply, Nat.add_assoc]

theorem bytes_sent (pre l post : List UInt8) :
    bytes (sent (pre ++ l ++ post)) pre.length l.length = l := by
  refine List.ext_getElem? fun i => ?_
  rw [bytes_getElem?]
  split
  · next h =>
    unfold sent
    rw [List.append_assoc, List.getD_append_right _ _ _ _ (by omega), Nat.add_sub_cancel_left,
      List.getD_append _ _ _ _ h, List.getD_eq_getElem _ _ h, List.getElem?_eq_getElem h]
  · next h => rw [List.getElem?_eq_none (by omega)]

theorem bytes_congr {m m' : Mem} {p n : Nat} (h : ∀ i < n, m (p + i) = m' (p + i)) :
    bytes m p n = bytes m' p n :=
  List.map_congr_left fun i hi => h i (List.mem_range.1 hi)

theorem bytes_congr' {m m' : Mem} {p p' n : Nat} (h : ∀ i, m (p + i) = m' (p' + i)) :
    bytes m p n = bytes m' p' n :=
  List.map_congr_left fun i _ => h i

theorem bytes_cons {k : Mem} {i n : Nat} {b : UInt8} {l : List UInt8}
    (h : bytes k i (n + 1) = b :: l) : k i = b ∧ bytes k (i + 1) n = l := by
  rw [Nat.add_comm, bytes_add] at h
  obtain ⟨hhead, htail⟩ := List.cons.inj h
  exact ⟨hhead, htail⟩

-- ========================================================= a key frame of ours

theorem hmacSha1_length (key data : List UInt8) : (hmacSha1 key data).length = 20 := by
  unfold hmacSha1
  rw [hmacSha1Run_eq]
  exact hmac_sha1Sum_length _

theorem mic_length (key data : List UInt8) : ((hmacSha1 key data).take 16).length = 16 := by
  rw [List.length_take, hmacSha1_length]
  rfl

/-- The part of a key frame before its MIC. -/
def eapolFront (info : Nat) (replay nonce data : List UInt8) : List UInt8 :=
  [2, 3] ++ putBe16 (ekData + data.length - 4) ++ [2] ++ putBe16 info ++ [0, 0]
    ++ replay ++ nonce ++ List.replicate 32 0

/-- The part behind it. -/
def eapolBack (data : List UInt8) : List UInt8 := putBe16 data.length ++ data

theorem eapolFrame_eq (ptk : List UInt8) (info : Nat) (replay nonce data : List UInt8) :
    eapolFrame ptk info replay nonce data = eapolFront info replay nonce data
      ++ (hmacSha1 (ptk.take 16) (eapolFront info replay nonce data ++ List.replicate 16 0
        ++ eapolBack data)).take 16 ++ eapolBack data := rfl

theorem eapolFront_length {replay nonce : List UInt8} (hreplay : replay.length = 8)
    (hnonce : nonce.length = 32) (info : Nat) (data : List UInt8) :
    (eapolFront info replay nonce data).length = 81 := by
  simp [eapolFront, putBe16, hreplay, hnonce]

/-- A key frame with its MIC taken out. -/
theorem bytes_blankMic (front mic back : List UInt8) (hfront : front.length = 81)
    (hmic : mic.length = 16) :
    bytes (blankMic (sent (front ++ mic ++ back)) 0) 0 (front ++ mic ++ back).length
      = front ++ List.replicate 16 0 ++ back := by
  have hlen : (front ++ mic ++ back).length = 81 + 16 + back.length := by
    rw [List.length_append, List.length_append, hfront, hmic]
  rw [hlen, bytes_add, bytes_add]
  refine congrArg₂ _ (congrArg₂ _ ?_ ?_) ?_
  · have hread := bytes_sent [] front (mic ++ back)
    rw [List.nil_append, ← List.append_assoc, hfront] at hread
    refine (bytes_congr fun i hi => ?_).trans hread
    exact if_neg (by unfold ekMic; omega)
  · have hzero : bytes (fun _ => 0) (0 + 81) 16 = List.replicate 16 0 := rfl
    refine (bytes_congr fun i hi => ?_).trans hzero
    exact if_pos (by unfold ekMic; omega)
  · have hread := bytes_sent (front ++ mic) back []
    rw [List.append_nil, List.length_append, hfront, hmic] at hread
    rw [Nat.zero_add]
    refine (bytes_congr fun i hi => ?_).trans hread
    exact if_neg (by unfold ekMic; omega)

/-- The access point takes what the station sends. -/
theorem eapolFrame_accepted {replay nonce : List UInt8} (hreplay : replay.length = 8)
    (hnonce : nonce.length = 32) (ptk : List UInt8) (info : Nat) (data : List UInt8) :
    apAccepts ptk (eapolFrame ptk info replay nonce data) := by
  have hfront := eapolFront_length hreplay hnonce info data
  rw [eapolFrame_eq]
  set front := eapolFront info replay nonce data with hf
  set mic := (hmacSha1 (ptk.take 16) (front ++ List.replicate 16 0 ++ eapolBack data)).take 16
    with hm
  have hmic : mic.length = 16 := mic_length _ _
  have hread : bytes (sent (front ++ mic ++ eapolBack data)) (0 + ekMic) 16 = mic := by
    have hsent := bytes_sent front mic (eapolBack data)
    rw [hfront, hmic] at hsent
    exact hsent
  unfold apAccepts micOk
  rw [hread, bytes_blankMic front mic _ hfront hmic]
  exact decide_eq_true hm

/-- What is behind `front` is read as if it were alone. -/
theorem sent_behind (front e : List UInt8) (i : Nat) : sent (front ++ e) (front.length + i) = sent e i := by
  unfold sent
  rw [List.getD_append_right _ _ _ _ (by omega), Nat.add_sub_cancel_left]

/-- The frame around a key frame. -/
def around (mac : Mac) : List UInt8 :=
  [0x08, 0x02, 0, 0] ++ mac.toList ++ List.replicate 14 0 ++ llc ++ putBe16 0x888e

theorem around_length (mac : Mac) : (around mac).length = 32 := by
  simp [around, llc, putBe16]

theorem sent_around (mac : Mac) (e : List UInt8) (i : Nat) :
    sent (around mac ++ e) (32 + i) = sent e (0 + i) := by
  rw [Nat.zero_add, ← sent_behind (around mac) e i, around_length]

theorem bytes_around (mac : Mac) (e : List UInt8) (p n : Nat) :
    bytes (sent (around mac ++ e)) (0 + 24 + 8 + p) n = bytes (sent e) (0 + p) n :=
  bytes_congr' fun i => by
    rw [Nat.add_assoc (0 + 24 + 8), Nat.add_assoc 0 p]
    exact sent_around mac e (p + i)

/-- A key frame is one where it is sent, too. -/
theorem KeyFrame.around {mac : Mac} {e data : List UInt8} {info : Nat} (h : KeyFrame (sent e) 0 info data) :
    KeyFrame (sent (around mac ++ e)) (0 + 24 + 8) info data := by
  have hat := sent_around mac e
  exact
    { type := (hat 1).trans h.type
      descriptor := (hat 4).trans h.descriptor
      length := (congrArg₂ (fun a b : UInt8 => a.toNat * 2 ^ 8 + b.toNat) (hat 2) (hat 3)).trans h.length
      info := (congrArg₂ (fun a b : UInt8 => a.toNat * 2 ^ 8 + b.toNat) (hat 5) (hat 6)).trans h.info
      dlen := (congrArg₂ (fun a b : UInt8 => a.toNat * 2 ^ 8 + b.toNat) (hat 97) (hat 98)).trans h.dlen
      data := (bytes_around mac e ekData data.length).trans h.data }

/-- Where a frame lies does not matter. -/
theorem micOk_moved {m m' : Mem} {e e' : Nat} (h : ∀ i, m (e + i) = m' (e' + i)) (ptk : List UInt8)
    (elen : Nat) : micOk ptk m e elen = micOk ptk m' e' elen := by
  have hmic : bytes m (e + ekMic) 16 = bytes m' (e' + ekMic) 16 := by
    refine bytes_congr' fun i => ?_
    rw [Nat.add_assoc, Nat.add_assoc]
    exact h (ekMic + i)
  have hblank : bytes (blankMic m e) e elen = bytes (blankMic m' e') e' elen := by
    refine bytes_congr' fun i => ?_
    unfold blankMic
    by_cases hi : ekMic ≤ i ∧ i < ekMic + 16
    · rw [if_pos (by omega), if_pos (by omega)]
    · rw [if_neg (by omega), if_neg (by omega)]
      exact h i
  unfold micOk
  rw [hmic, hblank]

end Ncmips.Wlan
