/-
The chip's keys and the packet numbers, over any order of calls.

`Link.Step` is all that a call can do to them, one thing after the other:
each function is a sequence of such steps (`..._links`), so what the steps
keep, every run keeps. What the chip has been told is `chipOf` the list of
it, and the numbers of the frames that it encrypts are `Numbered`.
-/
import Ncmips.Wlan.Proofs.Listen

namespace Ncmips.Wlan

open Words Wpa Relation

variable {cycles : Nat → Nat}

-- ============================================================== what is done

/-- What the encryption of a connection depends on. -/
structure Link where
  keysOn : Bool
  pn : Nat
  gtkId : Nat
  out : List Out

def Station.link (s : Station) : Link where
  keysOn := s.keysOn
  pn := s.pn
  gtkId := s.gtkId
  out := s.out

/-- The Protected bit of a frame. -/
def secured (f : List UInt8) : Bool := f.getD 1 0 &&& 0x40 ≠ 0

/-- What may be given to `wlan_rx_cb`. -/
abbrev Allowed := Mac → Mac → Nat → Nat → List UInt8 → Prop

/-- What is told without a key: a data frame only while there are none. -/
def Out.Plain (R : Allowed) (keysOn : Bool) : Out → Prop
  | .mgmt _ | .channel _ | .found _ => True
  | .received dst src type p given => R dst src type p given
  | .data f sec => sec = false ∧ secured f = false ∧ keysOn = false
  | .clearCam | .cam .. | .security _ => False

inductive Link.Step (R : Allowed) : Link → Link → Prop
  | tell (l : Link) (o : Out) (ho : o.Plain R l.keysOn) : Step R l { l with out := o :: l.out }
  | send (l : Link) (hon : l.keysOn) (h rest : List UInt8) (hh : h.length = 24 ∧ secured h) :
      Step R l { l with pn := u32 (l.pn + 1), out := .data (h ++ ccmpHeader l.pn ++ rest) true :: l.out }
  | learn (l : Link) (id : Nat) (hid : id < 4) : Step R l { l with gtkId := id }
  | group (l : Link) (hon : l.keysOn) (hid : l.gtkId ≠ 0) (a : Mac) (key : List UInt8) :
      Step R l { l with out := .cam l.gtkId l.gtkId true a key :: l.out }
  | install (l : Link) (pn : Nat) (hpn : pn = l.pn ∨ pn = 1) (a : Mac) (key : List UInt8) (cams : List Out)
      (hcams : ∀ o ∈ cams, ∃ key', o = .cam l.gtkId l.gtkId true a key' ∧ l.gtkId ≠ 0) :
      Step R l { l with
        keysOn := true
        pn
        out := .security true :: (cams ++ .cam 0 0 false a key :: .clearCam :: l.out) }
  | off (l : Link) : Step R l { l with keysOn := false, out := .clearCam :: .security false :: l.out }

/-- One after the other. -/
abbrev Links (R : Allowed) : Link → Link → Prop := ReflTransGen (Link.Step R)

variable {R : Allowed}

theorem Links.of_eq {l l' : Link} (h : l' = l) : Links R l l' := h ▸ .refl

-- ================================================================== sending

theorem hdr_length (fc : Nat) (a1 a2 a3 : Mac) (s : Station) : (hdr fc a1 a2 a3 s).1.length = 24 := by
  simp [hdr]

/-- The first bytes of a frame say whether it is protected. -/
theorem hdr_secured (fc : Nat) (a1 a2 a3 : Mac) (s : Station) (rest : List UInt8) :
    secured ((hdr fc a1 a2 a3 s).1 ++ rest) = decide (UInt8.ofNat (fc / 2 ^ 8) &&& 0x40 ≠ 0) := by
  simp [secured, hdr]

theorem wlanSend_links (dst : Mac) (type : Nat) (data : List UInt8) (s : Station) :
    Links R s.link (wlanSend dst type data s).2.link := by
  unfold wlanSend
  extract_lets h numbered
  split
  · exact .refl
  · split
    · next hkeys =>
      replace hkeys : s.keysOn = true := hkeys
      have hsecured : secured h := by
        have hall := hdr_secured 0x4108 s.bssid s.mac dst s []
        rw [List.append_nil] at hall
        unfold h
        rw [if_pos hkeys, hall]
        decide
      have hstep := Link.Step.send (R := R) s.link hkeys h (llc ++ putBe16 type ++ data)
        ⟨hdr_length _ _ _ _ s, hsecured⟩
      simp only [← List.append_assoc] at hstep
      exact .single hstep
    · next hkeys =>
      replace hkeys : ¬s.keysOn = true := hkeys
      have hsecured : secured (h ++ llc ++ putBe16 type ++ data) = false := by
        unfold h
        rw [if_neg hkeys, List.append_assoc, List.append_assoc, hdr_secured]
        decide
      have hplain : (Out.data (h ++ llc ++ putBe16 type ++ data) false).Plain R s.link.keysOn :=
        ⟨rfl, hsecured, Bool.eq_false_iff.2 hkeys⟩
      exact .single (.tell s.link _ hplain)

theorem sendMgmt_links (fc : Nat) (a1 a3 : Mac) (body : List UInt8) (s : Station) :
    Links R s.link (sendMgmt fc a1 a3 body s).link :=
  .single (.tell s.link _ trivial)

theorem sendEapol_links (info : Nat) (replay nonce data : List UInt8) (s : Station) :
    Links R s.link (sendEapol info replay nonce data s).link := by
  unfold sendEapol
  dsimp only
  split
  · exact wlanSend_links s.bssid 0x888e _ (hdr 0x0108 s.bssid s.mac s.bssid s).2
  · exact .single (.tell s.link _ trivial)

-- ==================================================================== a key

theorem findGtk_links (k : Mem) (n i : Nat) (s : Station) :
    Links R s.link (findGtk k n i s).link := by
  induction hn : n - i using Nat.strongRecOn generalizing i s with
  | ind r ih =>
      rw [findGtk]
      split
      · extract_lets len found
        have hfound : Links R s.link found.link := by
          unfold found
          split
          · exact .single (.learn s.link _ (Nat.mod_lt _ (by decide)))
          · exact .refl
        split
        · exact hfound
        · exact hfound.trans (ih _ (by omega) _ found rfl)
      · exact .refl

theorem unwrapKd_link (m : Mem) (e info dlen : Nat) (s : Station) :
    (unwrapKd m e info dlen s).2.link = s.link := by
  unfold unwrapKd
  split
  · rfl
  · rfl

theorem camGroup_links (s : Station) : Links R s.link (camGroup s).link := by
  unfold camGroup
  split
  · next h => exact .single (.group s.link h.2.2 h.2.1 _ _)
  · exact .refl

/-- The group key of an installation. -/
theorem groupCam_link (s : Station) :
    ∃ cams, (if s.gtkLen ≥ 16 ∧ s.gtkId ≠ 0 then camWrite s.gtkId s.gtkId true s.gtk s else s).link
        = { s.link with out := cams ++ s.out } ∧
      ∀ o ∈ cams, ∃ key, o = .cam s.gtkId s.gtkId true s.bssid key ∧ s.gtkId ≠ 0 := by
  split
  · next h =>
    refine ⟨[.cam s.gtkId s.gtkId true s.bssid (s.gtk.take 16)], rfl, fun o ho => ?_⟩
    exact ⟨_, List.mem_singleton.1 ho, h.2⟩
  · exact ⟨[], rfl, fun o ho => absurd ho List.not_mem_nil⟩

theorem wlanInstallKeys_link (s : Station) :
    ∃ cams key, (wlanInstallKeys s).link = { s.link with
        keysOn := true
        out := .security true :: (cams ++ .cam 0 0 false s.bssid key :: .clearCam :: s.out) } ∧
      ∀ o ∈ cams, ∃ key, o = .cam s.gtkId s.gtkId true s.bssid key ∧ s.gtkId ≠ 0 := by
  unfold wlanInstallKeys
  extract_lets cleared pairwise group
  obtain ⟨cams, hgroup, hcams⟩ := groupCam_link pairwise
  refine ⟨cams, (s.ptk.drop 32).take 16, ?_, hcams⟩
  exact congrArg (fun l : Link => { l with keysOn := true, out := .security true :: l.out }) hgroup

theorem installKeys_links (s : Station) : Links R s.link (wlanInstallKeys s).link := by
  obtain ⟨cams, key, hlink, hcams⟩ := wlanInstallKeys_link s
  rw [hlink]
  exact .single (.install s.link s.pn (.inl rfl) s.bssid key cams fun o ho =>
    (hcams o ho).imp fun _ h => h)

/-- With the numbers from the start. -/
theorem rekey_links (s : Station) : Links R s.link (rekey s).link := by
  obtain ⟨cams, key, hlink, hcams⟩ := wlanInstallKeys_link s
  have hrekey : (rekey s).link = { (wlanInstallKeys s).link with pn := 1 } := rfl
  rw [hrekey, hlink]
  exact .single (.install s.link 1 (.inr rfl) s.bssid key cams fun o ho =>
    (hcams o ho).imp fun _ h => h)

-- ================================================================ a key frame

/-- The group key of a key frame, if its data was whole. -/
theorem unwrapped_links (m : Mem) (e info dlen : Nat) (s : Station) (g : Station → Station)
    (hg : ∀ s', Links R s'.link (g s').link) :
    Links R s.link (if (unwrapKd m e info dlen s).1 then g (unwrapKd m e info dlen s).2
      else (unwrapKd m e info dlen s).2).link := by
  have hunwrap : Links R s.link (unwrapKd m e info dlen s).2.link :=
    .of_eq (unwrapKd_link m e info dlen s)
  split
  · exact hunwrap.trans (hg _)
  · exact hunwrap

theorem groupMessage_links (m : Mem) (e info dlen : Nat) (s : Station) :
    Links R s.link (groupMessage m e info dlen s).link := by
  have hopened := unwrapped_links (R := R) m e info dlen s
    (fun s' => camGroup (findGtk s'.kd (dlen - 8) 0 { s' with gtkLen := 0 }))
    fun s' => (findGtk_links s'.kd (dlen - 8) 0 { s' with gtkLen := 0 }).trans (camGroup_links _)
  unfold groupMessage
  extract_lets r src opened sent
  exact hopened.trans (sendEapol_links _ _ _ _ opened)

theorem messageOne_links (cycles : Nat → Nat) (m : Mem) (e : Nat) (s : Station) :
    Links R s.link (messageOne cycles m e s).link := by
  unfold messageOne
  extract_lets renewed derived
  have hderived : derived.link = s.link := by
    unfold derived renewed
    split
    · rfl
    · rfl
  rw [← hderived]
  exact sendEapol_links _ _ _ _ derived

theorem messageThree_links (m : Mem) (e info dlen : Nat) (s : Station) :
    Links R s.link (messageThree m e info dlen s).link := by
  have hopened := unwrapped_links (R := R) m e info dlen s (fun s' => findGtk s'.kd (dlen - 8) 0 s')
    fun s' => findGtk_links s'.kd (dlen - 8) 0 s'
  unfold messageThree
  extract_lets r opened sent installed
  have hsent : Links R s.link sent.link := hopened.trans (sendEapol_links _ _ _ _ opened)
  have hinstalled : Links R s.link installed.link := by
    unfold installed
    split
    · exact hsent.trans (rekey_links sent)
    · exact hsent
  exact hinstalled

theorem handleEapol_links (cycles : Nat → Nat) (m : Mem) (e len : Nat) (s : Station) :
    Links R s.link (handleEapol cycles m e len s).link := by
  unfold handleEapol
  split
  · exact .refl
  · extract_lets elen info dlen
    split
    · exact .refl
    · split
      · exact .refl
      · split
        · split
          · exact groupMessage_links m e info dlen s
          · exact .refl
        · split
          · exact messageOne_links cycles m e s
          · split
            · split
              · exact messageThree_links m e info dlen s
              · exact .refl
            · exact .refl

-- ==================================================================== a frame

/-- What reaches `wlan_rx_cb` from a frame of `len` bytes at `f`. -/
structure Payload (m : Mem) (f len : Nat) (decrypted : Bool) (c : Core) (dst src : Mac) (type p : Nat)
    (data : List UInt8) : Prop where
  done : c.state = .done
  fromAp : macAt m (f + 10) = c.bssid
  forUs : macAt m (f + 4) = c.mac ∨ m (f + 4) &&& 1 ≠ 0
  fromDs : m (f + 1) &&& 0x02 ≠ 0 ∧ m (f + 1) &&& 0x01 = 0
  opened : m (f + 1) &&& 0x40 ≠ 0 → decrypted = true ∧ p + data.length + 8 ≤ f + len
  place : InFrame f len p data.length ∨ Runt m f len
  snap : m (p - 8) = 0xaa ∧ m (p - 7) = 0xaa ∧ m (p - 6) = 0x03
  dst : dst = macAt m (f + 4)
  src : src = macAt m (f + 16) ∧ src ≠ c.mac
  type : type = be16 m (p - 2) ∧ type ≠ 0x888e
  data : data = bytes m p data.length

theorem bytes_length (m : Mem) (p n : Nat) : (bytes m p n).length = n := by
  rw [bytes, List.length_map, List.length_range]

theorem handleData_links (cycles : Nat → Nat) (m : Mem) (f len h : Nat) (decrypted : Bool) (s : Station)
    (hstate : s.state = .done ∧ macAt m (f + 10) = s.bssid ∧
      (macAt m (f + 4) = s.mac ∨ m (f + 4) &&& 1 ≠ 0))
    (hh : h = 24 ∨ (h = 26 ∧ (m f).toNat / 2 ^ 7 = 1)) (hlen : 24 ≤ len) (hbound : len < 2 ^ 32)
    (hR : ∀ dst src type p data, Payload m f len decrypted s.core dst src type p data →
      R dst src type p data) :
    Links R s.link (handleData cycles m f len h decrypted s).link := by
  unfold handleData
  split
  · exact .refl
  · next hds =>
    rw [not_or, not_not] at hds
    extract_lets secured p n
    split
    · exact .refl
    · next hsecured =>
      split
      · exact .refl
      · next hllc =>
        rw [not_or, not_or, not_or, not_not, not_not, not_not] at hllc
        obtain ⟨hn, hsnap⟩ := hllc
        split
        · exact .refl
        · next hown =>
          split
          · exact handleEapol_links cycles m _ _ s
          · next htype =>
            split
            · refine .single (.tell s.link _ (hR _ _ _ _ _ ?_))
              have hin : (secured = true → p + 8 + (n - 8) + 8 = f + len) ∧
                  (InFrame f len (p + 8) (n - 8) ∨ Runt m f len) := by
                by_cases hs : secured = true
                · have hcut : ¬len < h + 24 := fun hcut => hsecured ⟨hs, .inr hcut⟩
                  have hp : p = f + h + 8 := if_pos hs
                  have hn' : n = len - h - 16 := if_pos hs
                  exact ⟨fun _ => by omega, .inl ⟨by omega, by omega⟩⟩
                · have hp : p = f + h := if_neg hs
                  have hn' : n = sub32 len h := if_neg hs
                  refine ⟨fun hs' => absurd hs' hs, ?_⟩
                  by_cases hrunt : len < h
                  · exact .inr ⟨by omega, by omega⟩
                  · rw [sub32_of_le (by omega) hbound] at hn'
                    exact .inl ⟨by omega, by omega⟩
              exact
                { done := hstate.1
                  fromAp := hstate.2.1
                  forUs := hstate.2.2
                  fromDs := hds
                  opened := fun hbit => by
                    have hs : secured = true := decide_eq_true hbit
                    refine ⟨?_, ?_⟩
                    · by_contra hno
                      exact hsecured ⟨hs, .inl hno⟩
                    · rw [bytes_length]
                      have := hin.1 hs
                      omega
                  place := by
                    rw [bytes_length]
                    exact hin.2
                  snap := hsnap
                  dst := rfl
                  src := ⟨rfl, hown⟩
                  type := ⟨rfl, htype⟩
                  data := by rw [bytes_length] }
            · exact .refl

theorem handleBeacon_link (m : Mem) (f len : Nat) (s : Station) :
    (handleBeacon m f len s).link = s.link := by
  obtain ⟨rates, xrates, hread⟩ :=
    beaconElements_eq (Net.elements (bytes m (f + 36) (len - 36))) ({}, s)
  unfold handleBeacon
  dsimp only
  rw [hread]
  split
  · rfl
  · rfl

theorem handleMgmt_links (m : Mem) (f len sub : Nat) (s : Station) :
    Links R s.link (handleMgmt m f len sub s).link := by
  unfold handleMgmt
  split
  · split
    · exact .refl
    · exact .single (.tell s.link _ trivial)
  · split
    · exact .refl
    · split
      · exact .refl
      · exact .refl

theorem heardAp_link (m : Mem) (f : Nat) (s : Station) : (heardAp m f s).link = s.link := by
  unfold heardAp
  split
  · rfl
  · rfl

theorem handleFrame_links (cycles : Nat → Nat) (m : Mem) (f len : Nat) (decrypted : Bool) (s : Station)
    (hbound : len < 2 ^ 32)
    (hR : ∀ dst src type p data, Payload m f len decrypted s.core dst src type p data →
      R dst src type p data) :
    Links R s.link (handleFrame cycles m f len decrypted s).link := by
  unfold handleFrame
  split
  · exact .refl
  · next hlen =>
    rw [← heardAp_core m f s] at hR
    rw [← heardAp_link m f s]
    extract_lets s1 fc type sub h beacon
    split
    · split
      · exact .single (.tell s1.link _ trivial)
      · exact .refl
    · split
      · exact .of_eq (handleBeacon_link m f len s1)
      · split
        · next hdata =>
          exact handleData_links cycles m f len h decrypted s1 hdata.2 (handleFrame_header m f h rfl)
            (by omega) hbound hR
        · split
          · exact .refl
          · split
            · exact handleMgmt_links m f len sub s1
            · split
              · split
                · exact handleEapol_links cycles m _ _ s1
                · exact .refl
              · exact .refl

/-- Whatever `wlan_rx_cb` is given. -/
def Anything : Allowed := fun _ _ _ _ _ => True

theorem links_kept (l : Link) : Kept cycles (fun _ => True) fun s => Links Anything l s.link where
  signal _ _ hs := hs
  frame t _ f len decrypted hf s hs := hs.trans (handleFrame_links cycles t.mem f len decrypted s
    (by have := hf.short; omega) fun _ _ _ _ _ _ => trivial)

theorem listen_links (pumps : List (List Transfer)) (untilChange : Bool) (s : Station) :
    Links Anything s.link (wlanListen cycles pumps untilChange s).link :=
  (links_kept s.link).listen (fun _ _ _ _ => trivial) untilChange .refl

-- ==================================================================== a call

theorem wlanKeysOff_links (s : Station) : Links Anything s.link (wlanKeysOff s).link := by
  unfold wlanKeysOff
  split
  · exact .single (.off s.link)
  · exact .refl

theorem rtlSetChannel_links (ch : Nat) (s : Station) : Links Anything s.link (rtlSetChannel ch s).link :=
  .single (.tell s.link _ trivial)

/-- What each round of a loop does, all of them do. -/
theorem foldl_links {α : Type} (f : Station → α → Station) (hf : ∀ s a, Links Anything s.link (f s a).link)
    (l : List α) (s : Station) : Links Anything s.link (l.foldl f s).link :=
  List.foldlRecOn (motive := fun s' : Station => Links Anything s.link s'.link) l f .refl
    fun s' hs' a _ => hs'.trans (hf s' a)

theorem wlanScan_links (air : Air) (s : Station) : Links Anything s.link (wlanScan cycles air s).link := by
  unfold wlanScan
  extract_lets off started heard
  have hround : ∀ s (i : Nat), Links Anything s.link
      (wlanListen cycles (air i) false (sendProbeFor [] (rtlSetChannel (i + 1) s))).link :=
    fun s i => ((rtlSetChannel_links (i + 1) s).trans (sendMgmt_links _ _ _ _ _)).trans
      (listen_links _ _ _)
  exact (wlanKeysOff_links s).trans (foldl_links _ hround (List.range 13) started)

theorem findNetwork_links (air : Air) (s : Station) : Links Anything s.link (findNetwork cycles air s).link := by
  refine foldl_links _ (fun s i => ?_) _ s
  split
  · exact ((rtlSetChannel_links _ s).trans (sendMgmt_links _ _ _ _ _)).trans (listen_links _ _ _)
  · exact .refl

theorem authenticate_links (air : Air) (s : Station) : Links Anything s.link (authenticate cycles air s).link := by
  refine foldl_links _ (fun s i => ?_) _ s
  split
  · exact (sendMgmt_links _ _ _ _ s).trans (listen_links _ _ _)
  · exact .refl

theorem associate_links (air : Air) (s : Station) : Links Anything s.link (associate cycles air s).link := by
  refine foldl_links _ (fun s i => ?_) _ s
  split
  · refine ReflTransGen.trans ?_ (listen_links _ _ _)
    split
    · exact sendMgmt_links _ _ _ _ s
    · exact .refl
  · exact .refl

theorem fourWayHandshake_links (air : Air) (s : Station) :
    Links Anything s.link (fourWayHandshake cycles air s).link := by
  unfold fourWayHandshake
  split
  · extract_lets first
    have hfirst : Links Anything s.link first.link := listen_links _ _ s
    split
    · exact hfirst.trans (listen_links _ _ first)
    · exact hfirst
  · exact .refl

theorem prepare_links (name pass : List UInt8) (s : Station) :
    Links Anything s.link (prepare cycles name pass s).link :=
  wlanKeysOff_links s

theorem join_links (air : Air) (s : Station) : Links Anything s.link (join cycles air s).link := by
  unfold join
  extract_lets tuned quiet
  have htuned : Links Anything s.link tuned.link := by
    unfold tuned
    split
    · exact rtlSetChannel_links _ s
    · exact .refl
  have hquiet : Links Anything s.link quiet.link :=
    (htuned.trans (sendMgmt_links _ _ _ _ { tuned with state := .scan })).trans (listen_links _ _ _)
  have hauth : Links Anything quiet.link (authenticate cycles air { quiet with state := .auth }).link :=
    authenticate_links air { quiet with state := .auth }
  exact ((hquiet.trans hauth).trans (associate_links air _)).trans (fourWayHandshake_links air _)

theorem wlanConnect_links (air : Air) (name pass : List UInt8) (s : Station) :
    Links Anything s.link (wlanConnect cycles air name pass s).2.link := by
  unfold wlanConnect
  split
  · exact wlanKeysOff_links s
  · have hfound : Links Anything s.link (findNetwork cycles air (prepare cycles name pass s)).link :=
      (prepare_links name pass s).trans (findNetwork_links air _)
    dsimp only
    generalize findNetwork cycles air (prepare cycles name pass s) = found at hfound ⊢
    split
    · exact hfound
    · split
      · exact hfound
      · have hjoined : Links Anything s.link (join cycles air found).link := hfound.trans (join_links air found)
        generalize join cycles air found = joined at hjoined ⊢
        split
        · exact hjoined
        · exact hjoined

theorem call_links (s : Station) (c : Call) : Links Anything s.link (s.call cycles c).link := by
  cases c with
  | send dst type data => exact wlanSend_links dst type data s
  | pump ts => exact (links_kept s.link).pump (fun _ _ => trivial) .refl
  | poll pumps => exact listen_links pumps false { s with rxCb := true }
  | scan air => exact wlanScan_links air s
  | connect air name pass => exact wlanConnect_links air name pass s
  | installKeys => exact installKeys_links s

theorem calls_links (cs : List Call) (s : Station) : Links Anything s.link (s.calls cycles cs).link :=
  foldl_links _ call_links cs s

end Ncmips.Wlan
