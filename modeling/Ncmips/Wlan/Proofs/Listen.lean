/-
What received frames keep, whole transfers and calls of `wlan_listen` keep.

`Kept T P`: a frame of a transfer in `T` keeps `P`. A frame is always
within its transfer, behind the descriptor, whatever the descriptors say.
-/
import Ncmips.Wlan.Proofs.Station

namespace Ncmips.Wlan

open Words Wpa

variable {cycles : Nat → Nat} {T : Transfer → Prop} {P : Station → Prop}

/-- The `len` bytes at `f` are a frame of the transfer. -/
structure Frame (t : Transfer) (f len : Nat) : Prop where
  behind : 24 ≤ f
  within : f + len ≤ t.len
  short : len < 2 ^ 14

/-- With what the chip said of it. -/
structure Received (t : Transfer) (f len : Nat) (decrypted : Bool) : Prop extends Frame t f len where
  descriptor : ∃ off, f = (packetAt t.mem off).frame ∧ len = (packetAt t.mem off).len ∧
    decrypted = (packetAt t.mem off).decrypted

theorem packetAt_received (t : Transfer) (off : Nat) (h : off + (packetAt t.mem off).total ≤ t.len) :
    Received t (packetAt t.mem off).frame (packetAt t.mem off).len (packetAt t.mem off).decrypted := by
  refine ⟨?_, off, rfl, rfl, rfl⟩
  unfold packetAt at h ⊢
  dsimp only at h ⊢
  exact ⟨by omega, by omega, Nat.mod_lt _ (by decide)⟩

/-- What a frame of a transfer in `T` keeps, and the signal it came with. -/
structure Kept (cycles : Nat → Nat) (T : Transfer → Prop) (P : Station → Prop) : Prop where
  signal : ∀ s rssi, P s → P { s with frameRssi := rssi }
  frame : ∀ t, T t → ∀ f len decrypted, Received t f len decrypted → ∀ s, P s →
    P (handleFrame cycles t.mem f len decrypted s)

theorem Kept.packet (hP : Kept cycles T P) {t : Transfer} (ht : T t) {off : Nat}
    (hoff : off + (packetAt t.mem off).total ≤ t.len) {s : Station} (hs : P s) :
    P (handlePacket cycles t.mem off (packetAt t.mem off) s) := by
  unfold handlePacket
  split
  · exact hP.frame t ht _ _ _ (packetAt_received t off hoff) _ (hP.signal _ _ hs)
  · exact hs

theorem Kept.loop (hP : Kept cycles T P) {t : Transfer} (ht : T t) (off : Nat) {s : Station}
    (hs : P s) : P (rxLoop cycles t.mem t.len off s) := by
  induction hn : t.len - off using Nat.strongRecOn generalizing off s with
  | ind r ih =>
      rw [rxLoop]
      split
      · next hoff =>
        extract_lets p
        split
        · exact hs
        · next hwhole =>
          simp only [not_or, Nat.not_lt] at hwhole
          have htotal : 24 ≤ p.total := by
            simp only [p, packetAt]
            omega
          exact ih _ (by omega) _ (hP.packet ht hwhole.2 hs) rfl
      · exact hs

theorem Kept.handleRx (hP : Kept cycles T P) {t : Transfer} (ht : T t) {s : Station} (hs : P s) :
    P (handleRx cycles t s) :=
  hP.loop ht 0 hs

theorem Kept.pump (hP : Kept cycles T P) {ts : List Transfer} (hts : ∀ t ∈ ts.take 8, T t)
    {s : Station} (hs : P s) : P (Station.wlanRxPump cycles ts s) := by
  unfold Station.wlanRxPump
  exact List.foldlRecOn _ _ hs fun s hs t ht => hP.handleRx (hts t ht) hs

theorem Kept.listen (hP : Kept cycles T P) {pumps : List (List Transfer)}
    (hpumps : ∀ ts ∈ pumps, ∀ t ∈ ts.take 8, T t) (untilChange : Bool) {s : Station} (hs : P s) :
    P (wlanListen cycles pumps untilChange s) := by
  unfold wlanListen
  refine List.foldlRecOn _ _ hs fun s hs ts hts => ?_
  split
  · exact hs
  · exact hP.pump (hpumps ts hts) hs

end Ncmips.Wlan
