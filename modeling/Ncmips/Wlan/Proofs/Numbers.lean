/-
Which frames are encrypted, and with which numbers: over any order of
calls, with anything received.

A data frame is in the clear exactly while the chip has no keys
(`data_secured`), and two frames have the same packet number only if keys
were installed between them or 2^32 - 1 frames were sent
(`packetNumber_distinct`).
-/
import Ncmips.Wlan.Proofs.Connect
import Ncmips.Wlan.Proofs.Link

namespace Ncmips.Wlan

open Words Wpa Relation

variable {cycles : Nat → Nat}

-- ================================================================== the chip

/-- What the chip has been told. -/
structure Chip where
  on : Bool := false
  table : Nat → Option (List UInt8) := fun _ => none

def Chip.told (o : Out) (c : Chip) : Chip :=
  match o with
  | .clearCam => { c with table := fun _ => none }
  | .cam entry _ _ _ key => { c with table := Function.update c.table entry (some key) }
  | .security on => { c with on }
  | _ => c

/-- The last is told first in the list. -/
def chipOf (out : List Out) : Chip := out.foldr Chip.told {}

theorem told_plain {R : Allowed} {keysOn : Bool} {o : Out} (ho : o.Plain R keysOn) (c : Chip) : c.told o = c := by
  cases o <;> first | rfl | exact absurd ho id

/-- A frame was marked as what the chip could do with it. -/
structure Marked (f : List UInt8) (sec : Bool) (c : Chip) : Prop where
  on : sec = c.on
  bit : sec = secured f
  key : sec → ∃ key, c.table 0 = some key

/-- `wlan_keys_on` is what the chip has. -/
structure Mirror (l : Link) : Prop where
  on : l.keysOn = (chipOf l.out).on
  key : l.keysOn → ∃ key, (chipOf l.out).table 0 = some key
  gtkId : l.gtkId < 4
  few : ∀ entry, 4 ≤ entry → (chipOf l.out).table entry = none
  sent : ∀ l₁ f sec l₂, l.out = l₁ ++ .data f sec :: l₂ → Marked f sec (chipOf l₂)

/-- What is told but a data frame leaves the frames before as they are. -/
theorem sent_cons {o : Out} {out : List Out} (ho : ∀ f sec, o ≠ .data f sec)
    (h : ∀ l₁ f sec l₂, out = l₁ ++ .data f sec :: l₂ → Marked f sec (chipOf l₂)) :
    ∀ l₁ f sec l₂, o :: out = l₁ ++ .data f sec :: l₂ → Marked f sec (chipOf l₂) := by
  intro l₁ f sec l₂ heq
  cases l₁ with
  | nil => exact absurd (List.cons.inj heq).1 (ho f sec)
  | cons o' l₁ => exact h l₁ f sec l₂ (List.cons.inj heq).2

theorem sent_data {f : List UInt8} {sec : Bool} {out : List Out} (hf : Marked f sec (chipOf out))
    (h : ∀ l₁ f sec l₂, out = l₁ ++ .data f sec :: l₂ → Marked f sec (chipOf l₂)) :
    ∀ l₁ f' sec' l₂, .data f sec :: out = l₁ ++ .data f' sec' :: l₂ → Marked f' sec' (chipOf l₂) := by
  intro l₁ f' sec' l₂ heq
  cases l₁ with
  | nil =>
      obtain ⟨hdata, rfl⟩ := List.cons.inj heq
      cases hdata
      exact hf
  | cons o' l₁ => exact h l₁ f' sec' l₂ (List.cons.inj heq).2

/-- Group keys are at 1 to 3. -/
theorem chipOf_cams {id : Nat} {a : Mac} {out : List Out} (cams : List Out)
    (hcams : ∀ o ∈ cams, ∃ key, o = .cam id id true a key ∧ id ≠ 0) :
    (chipOf (cams ++ out)).on = (chipOf out).on ∧
      ∀ entry, entry ≠ id ∨ id = 0 → (chipOf (cams ++ out)).table entry = (chipOf out).table entry := by
  induction cams with
  | nil => exact ⟨rfl, fun _ _ => rfl⟩
  | cons o cams ih =>
      obtain ⟨hon, htable⟩ := ih fun o ho => hcams o (List.mem_cons_of_mem _ ho)
      obtain ⟨key, rfl, hid⟩ := hcams o (List.mem_cons_self ..)
      refine ⟨hon, fun entry hentry => ?_⟩
      rw [← htable entry hentry]
      exact Function.update_of_ne (hentry.resolve_right hid) _ _

theorem sent_cams {id : Nat} {a : Mac} {out : List Out} (cams : List Out)
    (hcams : ∀ o ∈ cams, ∃ key, o = .cam id id true a key ∧ id ≠ 0)
    (h : ∀ l₁ f sec l₂, out = l₁ ++ .data f sec :: l₂ → Marked f sec (chipOf l₂)) :
    ∀ l₁ f sec l₂, cams ++ out = l₁ ++ .data f sec :: l₂ → Marked f sec (chipOf l₂) := by
  induction cams with
  | nil => exact h
  | cons o cams ih =>
      obtain ⟨key, rfl, -⟩ := hcams o (List.mem_cons_self ..)
      exact sent_cons nofun (ih fun o ho => hcams o (List.mem_cons_of_mem _ ho))

theorem Mirror.step {l l' : Link} (h : Mirror l) (hstep : Link.Step Anything l l') : Mirror l' := by
  cases hstep with
  | tell o ho =>
      have htold : chipOf (o :: l.out) = chipOf l.out := told_plain ho _
      refine ⟨htold ▸ h.on, htold ▸ h.key, h.gtkId, htold ▸ h.few, ?_⟩
      cases o with
      | data f sec =>
          obtain ⟨rfl, hbit, hoff⟩ := ho
          exact sent_data ⟨hoff.symm.trans h.on, hbit.symm, nofun⟩ h.sent
      | mgmt => exact sent_cons nofun h.sent
      | channel => exact sent_cons nofun h.sent
      | found => exact sent_cons nofun h.sent
      | received => exact sent_cons nofun h.sent
      | clearCam => exact absurd ho id
      | cam => exact absurd ho id
      | security => exact absurd ho id
  | send hon hdr rest hhdr =>
      have hbit : secured (hdr ++ ccmpHeader l.pn ++ rest) = true := by
        have hget : (hdr ++ ccmpHeader l.pn ++ rest).getD 1 0 = hdr.getD 1 0 := by
          rw [List.append_assoc, List.getD_append _ _ _ _ (by omega)]
        unfold secured
        rw [hget]
        exact hhdr.2
      exact ⟨h.on, h.key, h.gtkId, h.few,
        sent_data ⟨hon.symm.trans h.on, hbit.symm, fun _ => h.key hon⟩ h.sent⟩
  | learn id hid => exact ⟨h.on, h.key, hid, h.few, h.sent⟩
  | group hon hid a key =>
      refine ⟨h.on, fun _ => ?_, h.gtkId, fun entry hentry => ?_, sent_cons nofun h.sent⟩
      · obtain ⟨pair, hpair⟩ := h.key hon
        exact ⟨pair, (Function.update_of_ne (Ne.symm hid) _ _).trans hpair⟩
      · exact (Function.update_of_ne (by have := h.gtkId; omega) _ _).trans (h.few entry hentry)
  | install pn hpn a key cams hcams =>
      have hcam := @chipOf_cams l.gtkId a (.cam 0 0 false a key :: .clearCam :: l.out) cams hcams
      refine ⟨rfl, fun _ => ⟨key, ?_⟩, h.gtkId, fun entry hentry => ?_, sent_cons nofun
        (sent_cams cams hcams (sent_cons nofun (sent_cons nofun h.sent)))⟩
      · refine (hcam.2 0 (by omega)).trans ?_
        show Function.update (fun _ => none) 0 (some key) 0 = some key
        exact Function.update_self ..
      · refine (hcam.2 entry (.inl (by have := h.gtkId; omega))).trans ?_
        exact Function.update_of_ne (by omega) _ _
  | off => exact ⟨rfl, nofun, h.gtkId, fun _ _ => rfl, sent_cons nofun (sent_cons nofun h.sent)⟩

theorem Mirror.links {l l' : Link} (h : Mirror l) (hlinks : Links Anything l l') : Mirror l' := by
  induction hlinks with
  | refl => exact h
  | tail _ hlast ih => exact ih.step hlast

/-- A station that has told the chip nothing yet. -/
structure Fresh (s : Station) : Prop where
  off : s.keysOn = false
  pn : s.pn < 2 ^ 32
  gtkId : s.gtkId < 4
  out : s.out = []

theorem Fresh.mirror {s : Station} (h : Fresh s) : Mirror s.link where
  on := by
    show s.keysOn = (chipOf s.out).on
    rw [h.off, h.out]
    rfl
  key hkeys := absurd (h.off.symm.trans hkeys) Bool.false_ne_true
  gtkId := h.gtkId
  few entry _ := by
    show (chipOf s.out).table entry = none
    rw [h.out]
    rfl
  sent l₁ f sec l₂ heq := by
    have hnil : ([] : List Out) = l₁ ++ .data f sec :: l₂ := h.out.symm.trans heq
    exact absurd hnil.symm (List.append_ne_nil_of_right_ne_nil _ (List.cons_ne_nil _ _))

/-- In any order of calls: the chip has keys when `wlan_keys_on` says so, the
pairwise one and perhaps three for groups, and every data frame was
protected, with a key to do it, exactly if there were keys when it was
sent. -/
theorem data_secured (cycles : Nat → Nat) (cs : List Call) (s : Station) (hs : Fresh s) :
    Mirror (s.calls cycles cs).link :=
  hs.mirror.links (calls_links cs s)

theorem data_secured_start : Mirror (Station.calls (fun _ => 0)
    [.send theirMac 0x0800 [], .installKeys, .send theirMac 0x0800 []]
    { mac := ourMac, bssid := .replicate 6 0 }).link :=
  data_secured _ _ _ ⟨rfl, by decide, by decide, rfl⟩

-- ============================================================= packet numbers

/-- The number of an encrypted frame, from the CCMP header behind 24 bytes. -/
def packetNumber (f : List UInt8) : Nat :=
  (f.getD 24 0).toNat + (f.getD 25 0).toNat * 2 ^ 8 + (f.getD 28 0).toNat * 2 ^ 16
    + (f.getD 29 0).toNat * 2 ^ 24

theorem packetNumber_ccmp {h rest : List UInt8} {pn : Nat} (hh : h.length = 24) (hpn : pn < 2 ^ 32) :
    packetNumber (h ++ ccmpHeader pn ++ rest) = pn := by
  have hget : ∀ i < 8, (h ++ ccmpHeader pn ++ rest).getD (24 + i) 0 = (ccmpHeader pn).getD i 0 := by
    intro i hi
    have hlen : (ccmpHeader pn).length = 8 := rfl
    rw [List.append_assoc, List.getD_append_right _ _ _ _ (by omega),
      List.getD_append _ _ _ _ (by omega), hh, Nat.add_sub_cancel_left]
  unfold packetNumber
  rw [hget 0 (by omega), hget 1 (by omega), hget 4 (by omega), hget 5 (by omega)]
  simp only [ccmpHeader, List.getD_cons_zero, List.getD_cons_succ, UInt8.toNat_ofNat']
  omega

def Out.encrypted : Out → Bool
  | .data _ true => true
  | _ => false

def Out.keyed : Out → Bool
  | .security true => true
  | _ => false

/-- `pn` is the number that comes next: one more than the last, unless keys
were installed. -/
inductive Numbered : Nat → List Out → Prop
  | nil (pn : Nat) : Numbered pn []
  | keys (pn pn' : Nat) {out : List Out} (h : Numbered pn' out) : Numbered pn (.security true :: out)
  | frame (f : List UInt8) {out : List Out} (h : Numbered (packetNumber f) out) :
      Numbered (u32 (packetNumber f + 1)) (.data f true :: out)
  | other (pn : Nat) (o : Out) {out : List Out} (ho : o.encrypted = false ∧ o.keyed = false)
      (h : Numbered pn out) : Numbered pn (o :: out)

theorem Numbered.behind {pn : Nat} {l out : List Out} (h : Numbered pn (l ++ out)) :
    ∃ pn', Numbered pn' out := by
  induction l generalizing pn with
  | nil => exact ⟨pn, h⟩
  | cons o l ih =>
      cases h with
      | keys _ pn' h => exact ih h
      | frame f h => exact ih h
      | other _ _ ho h => exact ih h

/-- Without keys between, the number has gone up by the frames that were
sent. -/
theorem Numbered.since {pn : Nat} {f : List UInt8} {l out : List Out}
    (h : Numbered pn (l ++ .data f true :: out)) (hkeys : ∀ o ∈ l, o.keyed = false) :
    pn % 2 ^ 32 = (packetNumber f + 1 + l.countP Out.encrypted) % 2 ^ 32 := by
  induction l generalizing pn with
  | nil =>
      cases h with
      | frame _ h => exact Nat.mod_mod _ _
      | other _ _ ho h => exact absurd ho.1.symm Bool.false_ne_true
  | cons o l ih =>
      have hrest : ∀ o ∈ l, o.keyed = false := fun o ho => hkeys o (List.mem_cons_of_mem _ ho)
      cases h with
      | keys _ pn' h => exact absurd (hkeys _ (List.mem_cons_self ..)) (by decide)
      | frame g h =>
          have hstep := ih h hrest
          rw [List.countP_cons_of_pos (show Out.encrypted (.data g true) = true from rfl)]
          unfold u32
          omega
      | other _ _ ho h =>
          rw [List.countP_cons_of_neg (Bool.not_eq_true _ ▸ ho.1)]
          exact ih h hrest

theorem Numbered.cams {pn id : Nat} {a : Mac} {out : List Out} (h : Numbered pn out) (cams : List Out)
    (hcams : ∀ o ∈ cams, ∃ key, o = .cam id id true a key ∧ id ≠ 0) : Numbered pn (cams ++ out) := by
  induction cams with
  | nil => exact h
  | cons o cams ih =>
      obtain ⟨key, rfl, -⟩ := hcams o (List.mem_cons_self ..)
      exact .other pn _ ⟨rfl, rfl⟩ (ih fun o ho => hcams o (List.mem_cons_of_mem _ ho))

/-- The next number is as the frames say. -/
structure Counting (l : Link) : Prop where
  pn : l.pn < 2 ^ 32
  numbered : Numbered l.pn l.out

theorem Counting.step {l l' : Link} (h : Counting l) (hstep : Link.Step Anything l l') : Counting l' := by
  cases hstep with
  | tell o ho =>
      refine ⟨h.pn, .other _ o ?_ h.numbered⟩
      cases o with
      | data f sec =>
          obtain ⟨rfl, -, -⟩ := ho
          exact ⟨rfl, rfl⟩
      | security on => exact absurd ho id
      | _ => exact ⟨rfl, rfl⟩
  | send hon hdr rest hhdr =>
      have hnumber := @packetNumber_ccmp hdr rest l.pn hhdr.1 h.pn
      refine ⟨Nat.mod_lt _ (by decide), ?_⟩
      have hframe := Numbered.frame (hdr ++ ccmpHeader l.pn ++ rest) (hnumber.symm ▸ h.numbered)
      rw [hnumber] at hframe
      exact hframe
  | learn id hid => exact ⟨h.pn, h.numbered⟩
  | group hon hid a key => exact ⟨h.pn, .other _ _ ⟨rfl, rfl⟩ h.numbered⟩
  | install pn hpn a key cams hcams =>
      refine ⟨?_, .keys pn l.pn (Numbered.cams (.other _ _ ⟨rfl, rfl⟩ (.other _ _ ⟨rfl, rfl⟩
        h.numbered)) cams hcams)⟩
      rcases hpn with rfl | rfl
      · exact h.pn
      · show 1 < 2 ^ 32
        omega
  | off => exact ⟨h.pn, .other _ _ ⟨rfl, rfl⟩ (.other _ _ ⟨rfl, rfl⟩ h.numbered)⟩

theorem Counting.links {l l' : Link} (h : Counting l) (hlinks : Links Anything l l') : Counting l' := by
  induction hlinks with
  | refl => exact h
  | tail _ hlast ih => exact ih.step hlast

/-- Two frames that were encrypted with the same packet number have an
installation of keys between them, or all the other numbers. -/
theorem packetNumber_distinct (cycles : Nat → Nat) (cs : List Call) (s : Station) (hs : Fresh s)
    (l₁ l₂ l₃ : List Out) (f g : List UInt8)
    (hout : (s.calls cycles cs).out = l₁ ++ .data g true :: (l₂ ++ .data f true :: l₃))
    (hsame : packetNumber g = packetNumber f) :
    .security true ∈ l₂ ∨ 2 ^ 32 - 1 ≤ l₂.countP Out.encrypted := by
  have hstart : Counting s.link := by
    refine ⟨hs.pn, ?_⟩
    rw [show s.link.out = [] from hs.out]
    exact .nil _
  have hlinks : Links Anything s.link (s.calls cycles cs).link := calls_links cs s
  have hend := (hstart.links hlinks).numbered
  rw [show (s.calls cycles cs).link.out = _ from hout] at hend
  obtain ⟨pn, hlast⟩ := hend.behind
  by_cases hkeys : Out.security true ∈ l₂
  · exact .inl hkeys
  · refine .inr ?_
    have hno : ∀ o ∈ l₂, o.keyed = false := by
      intro o ho
      by_contra hkeyed
      cases o with
      | security on =>
          cases on with
          | true => exact hkeys ho
          | false => exact hkeyed rfl
      | _ => exact hkeyed rfl
    have hbetween : packetNumber g % 2 ^ 32
        = (packetNumber f + 1 + l₂.countP Out.encrypted) % 2 ^ 32 := by
      cases hlast with
      | frame _ h => exact h.since hno
      | other _ _ ho h => exact absurd ho.1.symm Bool.false_ne_true
    omega

def Out.frame : Out → List UInt8
  | .data f _ => f
  | _ => []

theorem Out.eq_data {o : Out} (ho : o.encrypted = true) : o = .data o.frame true := by
  cases o with
  | data f sec =>
      cases sec with
      | true => rfl
      | false => exact absurd ho Bool.false_ne_true
  | _ => exact absurd ho Bool.false_ne_true

/-- `.clearCam` is behind the end, and no frame. -/
theorem drop_encrypted {out : List Out} (i : Nat) (hi : (out.getD i .clearCam).encrypted = true) :
    out.drop i = .data (out.getD i .clearCam).frame true :: out.drop (i + 1) := by
  have hlen : i < out.length := by
    by_contra hend
    rw [List.getD_eq_default _ _ (by omega)] at hi
    exact absurd hi Bool.false_ne_true
  rw [← Out.eq_data hi, List.getD_eq_getElem _ _ hlen]
  exact List.drop_eq_getElem_cons hlen

theorem calls_zeroThird (cs : List Call) {s : Station} (hmac : (s.calls cycles cs).mac = ourMac)
    (hptk : (s.calls cycles cs).ptk = .replicate 48 0) (hdone : (s.calls cycles cs).state ≠ .done) :
    s.calls cycles (cs ++ [.pump [oneFrame zeroThird], .send theirMac 0x0800 []])
      = (wlanSend theirMac 0x0800 []
          (messageThree (oneFrame zeroThird).mem 56 (kiVer2 ||| kiPairwise ||| kiAck ||| kiMic) 0
            { s.calls cycles cs with frameRssi := -100 })).2 := by
  rw [← handleRx_zeroThird hmac hptk hdone]
  unfold Station.calls
  rw [List.foldl_append]
  rfl

/-- A message 3 that comes when there are keys puts the numbers back to 1;
nothing says that it did not come before. -/
theorem packetNumber_distinct_again :
    let cs : List Call :=
      [.installKeys, .send theirMac 0x0800 [], .pump [oneFrame zeroThird], .send theirMac 0x0800 []]
    let out := (Station.calls (fun _ => 0) cs { mac := ourMac, bssid := .replicate 6 0 }).out
    let g := (out.getD 0 .clearCam).frame
    let f := (out.getD 5 .clearCam).frame
    out = [] ++ .data g true :: ((out.drop 1).take 4 ++ .data f true :: out.drop 6)
      ∧ packetNumber g = packetNumber f
      ∧ (.security true ∈ (out.drop 1).take 4
          ∨ 2 ^ 32 - 1 ≤ ((out.drop 1).take 4).countP Out.encrypted) := by
  intro cs out g f
  have hcalls : out = _ := congrArg Station.out (@calls_zeroThird (fun _ => 0)
    [.installKeys, .send theirMac 0x0800 []] { mac := ourMac, bssid := .replicate 6 0 }
    (by decide +kernel) (by decide +kernel) (by decide +kernel))
  have hrun : ((out.getD 0 .clearCam).encrypted = true ∧ (out.getD 5 .clearCam).encrypted = true)
      ∧ packetNumber (out.getD 0 .clearCam).frame = packetNumber (out.getD 5 .clearCam).frame := by
    rw [hcalls]
    decide +kernel
  obtain ⟨⟨hg, hf⟩, hsame⟩ := hrun
  have hlast : out = .data g true :: out.drop 1 := by
    rw [← drop_encrypted 0 hg, List.drop_zero]
  have hbehind : (out.drop 1).take 4 ++ out.drop 5 = out.drop 1 := by
    have hsplit := List.take_append_drop 4 (out.drop 1)
    rwa [List.drop_drop] at hsplit
  have hout : out = [] ++ .data g true :: ((out.drop 1).take 4 ++ .data f true :: out.drop 6) := by
    rw [← drop_encrypted 5 hf, hbehind, List.nil_append]
    exact hlast
  have hfresh : Fresh { mac := ourMac, bssid := .replicate 6 0 } :=
    ⟨rfl, by decide, by decide, rfl⟩
  exact ⟨hout, hsame, packetNumber_distinct _ cs _ hfresh [] _ _ f g hout hsame⟩

end Ncmips.Wlan
