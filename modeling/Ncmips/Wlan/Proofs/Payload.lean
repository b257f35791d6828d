/-
What reaches the receive callback.

Every payload is a part of a frame that was received in this call: from
our access point, for us, and opened by the chip if it was protected
(`wlanListen_payload`). It is within its frame unless that is a QoS frame
shorter than its header, whose length wraps around.
-/
import Ncmips.Wlan.Proofs.Link

namespace Ncmips.Wlan

open Words Relation

variable {cycles : Nat → Nat}

/-- What is told is put before what was told. -/
theorem Link.Step.told {R : Allowed} {l l' : Link} (h : Link.Step R l l') :
    ∃ new, l'.out = new ++ l.out ∧
      ∀ dst src type p data, .received dst src type p data ∈ new → R dst src type p data := by
  cases h with
  | tell o ho =>
      refine ⟨[o], rfl, fun dst src type p data hmem => ?_⟩
      obtain rfl := List.mem_singleton.1 hmem
      exact ho
  | send hon h rest hh => exact ⟨[_], rfl, fun _ _ _ _ _ hmem => absurd (List.mem_singleton.1 hmem) nofun⟩
  | learn id hid => exact ⟨[], rfl, fun _ _ _ _ _ hmem => absurd hmem List.not_mem_nil⟩
  | group hon hid a key =>
      exact ⟨[_], rfl, fun _ _ _ _ _ hmem => absurd (List.mem_singleton.1 hmem) nofun⟩
  | install pn hpn a key cams hcams =>
      refine ⟨.security true :: (cams ++ [.cam 0 0 false a key, .clearCam]), by simp,
        fun dst src type p data hmem => ?_⟩
      rcases List.mem_cons.1 hmem with heq | hmem
      · cases heq
      · rcases List.mem_append.1 hmem with hcam | htail
        · obtain ⟨key', heq, -⟩ := hcams _ hcam
          cases heq
        · simp at htail
  | off =>
      refine ⟨[.clearCam, .security false], rfl, fun dst src type p data hmem => ?_⟩
      simp at hmem

theorem Links.told {R : Allowed} {l l' : Link} (h : Links R l l') :
    ∃ new, l'.out = new ++ l.out ∧
      ∀ dst src type p data, .received dst src type p data ∈ new → R dst src type p data := by
  induction h with
  | refl => exact ⟨[], rfl, fun _ _ _ _ _ hmem => absurd hmem List.not_mem_nil⟩
  | tail _ hlast ih =>
      obtain ⟨old, hold, hR⟩ := ih
      obtain ⟨new, hnew, hR'⟩ := hlast.told
      refine ⟨new ++ old, by rw [hnew, hold, List.append_assoc], fun dst src type p data hmem => ?_⟩
      rcases List.mem_append.1 hmem with hmem | hmem
      · exact hR' _ _ _ _ _ hmem
      · exact hR _ _ _ _ _ hmem

/-- Frames never lead back to the search for the network, and outside it the
access point stays the same. -/
theorem FrameEffect.keeps {m : Mem} {f len : Nat} {c c' : Core} (h : FrameEffect cycles m f len c c') :
    c'.mac = c.mac ∧ (c.state ≠ .scan → c'.state ≠ .scan ∧ c'.bssid = c.bssid) := by
  cases h with
  | same => exact ⟨rfl, fun hstate => ⟨hstate, rfl⟩⟩
  | found hstate b => exact ⟨rfl, fun hno => absurd hstate hno⟩
  | answer st hst =>
      refine ⟨rfl, fun _ => ⟨?_, rfl⟩⟩
      rcases hst with rfl | ⟨-, rfl⟩ | ⟨-, rfl⟩ <;> exact nofun
  | key e n hin hkey =>
      cases hkey with
      | same => exact ⟨rfl, fun hstate => ⟨hstate, rfl⟩⟩
      | fail => exact ⟨rfl, fun _ => ⟨nofun, rfl⟩⟩
      | three hlen hkind hmic => exact ⟨rfl, fun _ => ⟨nofun, rfl⟩⟩
      | one hlen hkind =>
          have hrenonce : (c.renonce cycles).mac = c.mac ∧ (c.renonce cycles).state = c.state ∧
              (c.renonce cycles).bssid = c.bssid := by
            unfold Core.renonce
            split
            · exact ⟨rfl, rfl, rfl⟩
            · exact ⟨rfl, rfl, rfl⟩
          exact ⟨hrenonce.1, fun hstate => ⟨hrenonce.2.1.symm ▸ hstate, hrenonce.2.2⟩⟩

theorem Payload.congr {m : Mem} {f len : Nat} {decrypted : Bool} {c c' : Core} {dst src : Mac}
    {type p : Nat} {data : List UInt8} (h : Payload m f len decrypted c dst src type p data)
    (hmac : c'.mac = c.mac) (hbssid : c'.bssid = c.bssid) :
    Payload m f len decrypted { c' with state := .done } dst src type p data :=
  { h with
    done := rfl
    fromAp := h.fromAp.trans hbssid.symm
    forUs := hmac ▸ h.forUs
    src := hmac ▸ h.src }

/-- What was given to `wlan_rx_cb` since `s₀`, from transfers in `T`. -/
structure Given (T : Transfer → Prop) (s₀ s : Station) : Prop where
  told : ∃ new, s.out = new ++ s₀.out ∧ ∀ dst src type p data, .received dst src type p data ∈ new →
    s.state ≠ .scan ∧ ∃ t, T t ∧ ∃ f len decrypted, Received t f len decrypted ∧
      Payload t.mem f len decrypted { s.core with state := .done } dst src type p data

theorem given_kept (cycles : Nat → Nat) (T : Transfer → Prop) (s₀ : Station) :
    Kept cycles T (Given T s₀) where
  signal _ _ hs := ⟨hs.told⟩
  frame t ht f len decrypted hf s hs := by
    have hbound : len < 2 ^ 32 := by
      have := hf.short
      omega
    obtain ⟨old, hold, hgiven⟩ := hs.told
    obtain ⟨new, hnew, hpayload⟩ := (handleFrame_links cycles t.mem f len decrypted s hbound
      fun dst src type p data h => h).told
    have hkeeps := (frame_core cycles t.mem f len decrypted s hbound).keeps
    refine ⟨new ++ old, ?_, fun dst src type p data hmem => ?_⟩
    · rw [show (handleFrame cycles t.mem f len decrypted s).out = new ++ s.out from hnew, hold,
        List.append_assoc]
    · rcases List.mem_append.1 hmem with hmem | hmem
      · have h := hpayload dst src type p data hmem
        have hscan : s.core.state ≠ .scan := fun hscan => absurd (h.done.symm.trans hscan) nofun
        obtain ⟨hstate, hbssid⟩ := hkeeps.2 hscan
        exact ⟨hstate, t, ht, f, len, decrypted, hf, h.congr hkeeps.1 hbssid⟩
      · obtain ⟨hscan, t', ht', f', len', d', hf', h⟩ := hgiven dst src type p data hmem
        obtain ⟨hstate, hbssid⟩ := hkeeps.2 hscan
        exact ⟨hstate, t', ht', f', len', d', hf', h.congr hkeeps.1 hbssid⟩

/-- What `wlan_rx_cb` is given while the station listens. -/
theorem wlanListen_payload (cycles : Nat → Nat) (pumps : List (List Transfer)) (untilChange : Bool)
    (s : Station) :
    let s' := wlanListen cycles pumps untilChange s
    ∃ new, s'.out = new ++ s.out ∧ ∀ dst src type p data, .received dst src type p data ∈ new →
      ∃ t, (∃ ts ∈ pumps, t ∈ ts.take 8) ∧ ∃ f len decrypted, Received t f len decrypted ∧
        Payload t.mem f len decrypted { s'.core with state := .done } dst src type p data := by
  intro s'
  have hstart : Given (fun t => ∃ ts ∈ pumps, t ∈ ts.take 8) s s :=
    ⟨[], rfl, fun _ _ _ _ _ hmem => absurd hmem List.not_mem_nil⟩
  obtain ⟨new, hnew, hgiven⟩ := ((given_kept cycles _ s).listen
    (fun ts hts t ht => ⟨ts, hts, ht⟩) untilChange hstart).told
  exact ⟨new, hnew, fun dst src type p data hmem => (hgiven dst src type p data hmem).2⟩

end Ncmips.Wlan
