/-
The transmitter follows its registers.

What is known of the chip is known as long as a flag is clear: a write of
the box sets the flag of what it changes, and only the main loop clears
one, when it takes a copy. So an assertion here has a part for each flag
(`Told`), about the settings under it and what was sent, and no step around
the main loop breaks it (`stable`). The loop's parts are then followed
access by access (`Does`).
-/
import Ncmips.Brimod.Transmitter
import Ncmips.Brimod.Proofs.Flash
import Ncmips.Brimod.Proofs.Mailbox

namespace Ncmips.Brimod

open Bridge Machine

-- ==================================================================== flags

/-- What changed has its flag set, and no flag was cleared. -/
structure Marked (b b' : Bridge) : Prop where
  siprop : b'.sipropDirty = false →
    b.sipropDirty = false ∧ b'.settings.siprop = b.settings.siprop
  fm : b'.fmDirty = false → b.fmDirty = false ∧ b'.settings.fm = b.settings.fm
  rds : b'.rdsDirty = false → b.rdsDirty = false ∧ b'.settings.rds = b.settings.rds
  present : b'.regs 0x05 &&& presentSi = b.regs 0x05 &&& presentSi

theorem Marked.refl (b : Bridge) : Marked b b :=
  ⟨fun h => ⟨h, rfl⟩, fun h => ⟨h, rfl⟩, fun h => ⟨h, rfl⟩, rfl⟩

theorem Marked.trans {b b' b'' : Bridge} (h : Marked b b') (h' : Marked b' b'') : Marked b b'' where
  siprop hclear :=
    have h2 := h'.siprop hclear
    have h1 := h.siprop h2.1
    ⟨h1.1, h2.2.trans h1.2⟩
  fm hclear :=
    have h2 := h'.fm hclear
    have h1 := h.fm h2.1
    ⟨h1.1, h2.2.trans h1.2⟩
  rds hclear :=
    have h2 := h'.rds hclear
    have h1 := h.rds h2.1
    ⟨h1.1, h2.2.trans h1.2⟩
  present := h'.present.trans h.present

theorem fm_congr {b b' : Bridge}
    (h : ∀ r : UInt8, 0x40 ≤ r.toNat → r.toNat ≤ 0x45 → b'.regs r = b.regs r) :
    b'.settings.fm = b.settings.fm := by
  dsimp only [settings]
  refine List.map_congr_left fun i hi => ?_
  have hlt := List.mem_range.mp hi
  refine h _ ?_ ?_
  · rw [UInt8.toNat_ofNat']
    omega
  · rw [UInt8.toNat_ofNat']
    omega

theorem rds_congr {b b' : Bridge}
    (h : ∀ r : UInt8, 0x46 ≤ r.toNat → r.toNat ≤ 0x8F → b'.regs r = b.regs r) :
    b'.settings.rds = b.settings.rds := by
  dsimp only [settings]
  refine List.map_congr_left fun i hi => ?_
  have hlt := List.mem_range.mp hi
  refine h _ ?_ ?_
  · rw [UInt8.toNat_ofNat']
    omega
  · rw [UInt8.toNat_ofNat']
    omega

/-- Settings and flags were left alone. -/
theorem Marked.of_same {b b' : Bridge}
    (hregs : ∀ r : UInt8, 0x40 ≤ r.toNat → r.toNat ≤ 0x8F → b'.regs r = b.regs r)
    (hval : b'.siVal = b.siVal) (hflags : ∀ f, b'.isDirty f = b.isDirty f)
    (hpresent : b'.regs 0x05 &&& presentSi = b.regs 0x05 &&& presentSi) : Marked b b' where
  siprop hclear := by
    refine ⟨(hflags .siprop).symm.trans hclear, ?_⟩
    show (List.range siN).map b'.siVal = (List.range siN).map b.siVal
    rw [hval]
  fm hclear := ⟨(hflags .fm).symm.trans hclear, fm_congr fun r h1 h2 => hregs r h1 (by omega)⟩
  rds hclear := ⟨(hflags .rds).symm.trans hclear, rds_congr fun r h1 h2 => hregs r (by omega) h2⟩
  present := hpresent

theorem put8_other (b : Bridge) (r v : UInt8) {q : UInt8} (hq : q.toNat ≠ r.toNat) :
    (b.put8 r v).regs q = b.regs q :=
  Function.update_of_ne (fun h => hq (congrArg UInt8.toNat h)) _ _

/-- A register outside the settings. -/
theorem put8_marked (b : Bridge) {r : UInt8} (hr : r.toNat < 0x40 ∨ 0x90 ≤ r.toNat)
    (h5 : r.toNat ≠ 5) (v : UInt8) : Marked b (b.put8 r v) :=
  .of_same (fun q h1 h2 => put8_other b r v (by omega)) rfl (fun f => by cases f <;> rfl)
    (congrArg (· &&& presentSi) (put8_other b r v h5.symm))

theorem writeReg_marked (b : Bridge) (r v : UInt8) : Marked b (b.writeReg r v) := by
  have hlo : (0x40 : UInt8) ≤ r ↔ 0x40 ≤ r.toNat := UInt8.le_iff_toNat_le
  have hhi : r ≤ (0x8F : UInt8) ↔ r.toNat ≤ 0x8F := UInt8.le_iff_toNat_le
  have h45 : r ≤ (0x45 : UInt8) ↔ r.toNat ≤ 0x45 := UInt8.le_iff_toNat_le
  have h46 : (0x46 : UInt8) ≤ r ↔ 0x46 ≤ r.toNat := UInt8.le_iff_toNat_le
  have hA0 : (0xA0 : UInt8) ≤ r ↔ 0xA0 ≤ r.toNat := UInt8.le_iff_toNat_le
  have hother := fun q => @put8_other b r v q
  have h5 : r.toNat ≠ 5 → (b.put8 r v).regs 0x05 &&& presentSi = b.regs 0x05 &&& presentSi :=
    fun hne => congrArg (· &&& presentSi) (hother 0x05 hne.symm)
  unfold writeReg
  split_ifs with hw hA hfm hrds hbell
  · rw [hA0] at hA
    have hmark := put8_marked b (.inr (show 0x90 ≤ r.toNat by omega)) (by omega) v
    exact ⟨hmark.siprop, hmark.fm, hmark.rds, hmark.present⟩
  · rw [hlo, h45] at hfm
    exact {
      siprop := fun h => ⟨h, rfl⟩
      fm := nofun
      rds := fun h => ⟨h, rds_congr fun q h1 h2 => hother q (by omega)⟩
      present := h5 (by omega) }
  · rw [h46, hhi] at hrds
    exact {
      siprop := fun h => ⟨h, rfl⟩
      fm := fun h => ⟨h, fm_congr fun q h1 h2 => hother q (by omega)⟩
      rds := nofun
      present := h5 (by omega) }
  · have hmark := put8_marked b (.inl (show r.toNat < 0x40 by rw [hbell]; decide))
      (by rw [hbell]; decide) v
    exact ⟨hmark.siprop, hmark.fm, hmark.rds, hmark.present⟩
  · refine put8_marked b ?_ ?_ v
    · rw [hlo, h45] at hfm
      rw [h46, hhi] at hrds
      omega
    · intro h
      have hr : r = 0x05 := UInt8.toNat_inj.1 h
      rw [hr] at hw
      exact absurd hw (by decide)
  · exact Marked.refl b

theorem writeRegs_marked (d : List UInt8) (b : Bridge) (r : Nat) : Marked b (b.writeRegs r d) := by
  induction d generalizing b r with
  | nil => exact Marked.refl b
  | cons v d ih =>
      unfold writeRegs
      split
      · exact Marked.refl b
      · exact (writeReg_marked b _ v).trans (ih _ (r + 1))

theorem writeSiprop_marked (b : Bridge) (d : List UInt8) : Marked b (b.writeSiprop d) := by
  unfold writeSiprop
  extract_lets d0 d1 k b' v
  have hset : Marked b b' := by
    clear_value k
    cases k with
    | none => exact Marked.refl b
    | some k =>
        by_cases hlen : 4 ≤ d.length
        · have hb' : b' = { b with
              siVal := Function.update b.siVal k (le16 (d.getD 2 0) (d.getD 3 0))
              sipropDirty := true
              fmSaveMs := b.millis ||| 1 } := if_pos hlen
          rw [hb']
          exact ⟨nofun, fun h => ⟨h, rfl⟩, fun h => ⟨h, rfl⟩, rfl⟩
        · have hb' : b' = b := if_neg hlen
          rw [hb']
          exact Marked.refl b
  have h0 := @put8_marked b' 0x90 (.inr (by decide)) (by decide) d0
  have h1 := @put8_marked (b'.put8 0x90 d0) 0x91 (.inr (by decide)) (by decide) d1
  have h2 := @put8_marked ((b'.put8 0x90 d0).put8 0x91 d1) 0x92 (.inr (by decide)) (by decide) (lo v)
  have h3 := @put8_marked (((b'.put8 0x90 d0).put8 0x91 d1).put8 0x92 (lo v)) 0x93
    (.inr (by decide)) (by decide) (hi v)
  exact (((hset.trans h0).trans h1).trans h2).trans h3

/-- Every write of the box. -/
theorem handleWrite_marked (b : Bridge) (reg : UInt8) (d : List UInt8) :
    Marked b (b.handleWrite reg d) := by
  have hlow := fun v => @put8_marked b 0x06 (.inl (by decide)) (by decide) v
  have hsame : ∀ {b'}, b'.regs = b.regs → b'.siVal = b.siVal → (∀ f, b'.isDirty f = b.isDirty f) →
      Marked b b' := fun hregs hval hflags =>
    .of_same (fun r _ _ => congrFun hregs r) hval hflags (by rw [hregs])
  unfold handleWrite
  split_ifs
  · exact writeSiprop_marked b d
  · exact Marked.refl b
  · have hmail := @put8_marked b 0xC0 (.inr (by decide)) (by decide) 1
    exact ⟨hmail.siprop, hmail.fm, hmail.rds, hmail.present⟩
  · exact Marked.refl b
  · exact hsame rfl rfl fun f => by cases f <;> rfl
  · exact Marked.refl b
  · exact hsame rfl rfl fun f => by cases f <;> rfl
  · exact Marked.refl b
  · exact (hlow _).trans (put8_marked _ (.inl (by decide)) (by decide) _)
  · exact hlow _
  · exact hsame rfl rfl fun f => by cases f <;> rfl
  · exact writeRegs_marked d b reg.toNat

-- =============================================================== assertions

/-- For each flag, what is known of its settings and of what was sent, as
long as the flag is clear. -/
structure Told where
  siprop : List UInt16 → Sent → Prop
  fm : List UInt8 → Sent → Prop
  rds : List UInt8 → Sent → Prop

structure Holds (T : Told) (d : Radio) : Prop where
  present : d.bridge.regs 0x05 &&& presentSi ≠ 0
  /-- The A/B flag is no part of a segment's number. -/
  ab : d.ab &&& 0x0F = 0
  siprop : d.bridge.sipropDirty = false → T.siprop d.bridge.settings.siprop d.sent
  fm : d.bridge.fmDirty = false → T.fm d.bridge.settings.fm d.sent
  rds : d.bridge.rdsDirty = false → T.rds d.bridge.settings.rds d.sent

variable {T T' : Told} {d d' : Radio}

/-- The step leaves what is sent, and marks what it changes. -/
structure Quiet (d d' : Radio) : Prop where
  marked : Marked d.bridge d'.bridge
  sent : d'.sent = d.sent
  ab : d'.ab = d.ab

theorem Holds.quiet (h : Holds T d) (hq : Quiet d d') : Holds T d' where
  present := by
    rw [hq.marked.present]
    exact h.present
  ab := by
    rw [hq.ab]
    exact h.ab
  siprop hclear := by
    rw [hq.sent, (hq.marked.siprop hclear).2]
    exact h.siprop (hq.marked.siprop hclear).1
  fm hclear := by
    rw [hq.sent, (hq.marked.fm hclear).2]
    exact h.fm (hq.marked.fm hclear).1
  rds hclear := by
    rw [hq.sent, (hq.marked.rds hclear).2]
    exact h.rds (hq.marked.rds hclear).1

/-- What happens around the main loop. -/
theorem around_quiet (h : Around d d') : Quiet d d' := by
  cases h with
  | write reg data => exact ⟨handleWrite_marked d.bridge reg data, rfl, rfl⟩
  | rest hregs hval hflags hpresent hsent _ _ hab =>
      exact ⟨.of_same (fun r h1 h2 => hregs r (UInt8.le_iff_toNat_le.2 h1)
        (UInt8.le_iff_toNat_le.2 h2)) hval hflags hpresent, hsent, hab⟩

/-- From `T` on, the program comes to `T'` of its result, whatever is
written meanwhile. -/
def Does {α : Type} (T : Told) (p : Main α) (T' : α → Told) : Prop :=
  ∀ d, Holds T d → radio.Sure (fun _ => True) p (fun a => Holds (T' a)) d

section rules

variable {α β : Type}

theorem Does.bind {p : Main α} {f : α → Main β} {U : α → Told} {V : β → Told} (h : Does T p U)
    (hf : ∀ a, Does (U a) (f a) V) : Does T (p >>= f) V := fun d hd =>
  Sure.bind ((h d hd).weaken fun a d' hd' => hf a d' hd')

/-- `T'` says no more than `T`. -/
structure Weaker (T T' : Told) : Prop where
  siprop : ∀ v s, T.siprop v s → T'.siprop v s
  fm : ∀ v s, T.fm v s → T'.fm v s
  rds : ∀ v s, T.rds v s → T'.rds v s

theorem Holds.weaken (h : Holds T d) (hw : Weaker T T') : Holds T' d :=
  ⟨h.present, h.ab, fun hc => hw.siprop _ _ (h.siprop hc), fun hc => hw.fm _ _ (h.fm hc),
    fun hc => hw.rds _ _ (h.rds hc)⟩

theorem Does.weaken {p : Main α} {U V : α → Told} (h : Does T p U) (hw : ∀ a, Weaker (U a) (V a)) :
    Does T p V := fun d hd => (h d hd).weaken fun a _ hd' => hd'.weaken (hw a)

/-- A command to the chip, which does `g` to what was sent. -/
structure Leads (g : Sent → Sent) (T T' : Told) : Prop where
  siprop : ∀ v s, T.siprop v s → T'.siprop v (g s)
  fm : ∀ v s, T.fm v s → T'.fm v (g s)
  rds : ∀ v s, T.rds v s → T'.rds v (g s)

end rules

-- ================================================================== the chip

/-- The stereo flag that the mono setting asks for. -/
def stereoOf (flags : UInt8) : UInt16 := if flags &&& 4 ≠ 0 then 0 else stereoFlag

theorem miscWith_rest (v : UInt16) (flags : UInt8) :
    miscWith v flags ||| stereoFlag = v ||| stereoFlag := by
  unfold miscWith
  split
  · apply UInt16.eq_of_toBitVec_eq
    apply BitVec.eq_of_getLsbD_eq
    intro i hi
    simp only [UInt16.toBitVec_or, UInt16.toBitVec_and, UInt16.toBitVec_not, BitVec.getLsbD_or,
      BitVec.getLsbD_and, BitVec.getLsbD_not, hi, decide_true, Bool.true_and]
    cases v.toBitVec.getLsbD i <;> cases stereoFlag.toBitVec.getLsbD i <;> rfl
  · rw [UInt16.or_assoc, UInt16.or_self]

theorem miscWith_flag (v : UInt16) (flags : UInt8) :
    miscWith v flags &&& stereoFlag = stereoOf flags := by
  unfold miscWith stereoOf
  split
  · apply UInt16.eq_of_toBitVec_eq
    apply BitVec.eq_of_getLsbD_eq
    intro i hi
    simp only [UInt16.toBitVec_and, UInt16.toBitVec_not, BitVec.getLsbD_and, BitVec.getLsbD_not, hi,
      decide_true, Bool.true_and, UInt16.toBitVec_zero, BitVec.getLsbD_zero]
    cases v.toBitVec.getLsbD i <;> cases stereoFlag.toBitVec.getLsbD i <;> rfl
  · apply UInt16.eq_of_toBitVec_eq
    apply BitVec.eq_of_getLsbD_eq
    intro i hi
    simp only [UInt16.toBitVec_and, UInt16.toBitVec_or, BitVec.getLsbD_and, BitVec.getLsbD_or]
    cases v.toBitVec.getLsbD i <;> cases stereoFlag.toBitVec.getLsbD i <;> rfl

/-- The flag and the rest make the value. -/
theorem eq_miscWith {x v : UInt16} {flags : UInt8} (hrest : x ||| stereoFlag = v ||| stereoFlag)
    (hflag : x &&& stereoFlag = stereoOf flags) : x = miscWith v flags := by
  have hrest' := hrest.trans (miscWith_rest v flags).symm
  have hflag' := hflag.trans (miscWith_flag v flags).symm
  generalize miscWith v flags = y at hrest' hflag'
  apply UInt16.eq_of_toBitVec_eq
  apply BitVec.eq_of_getLsbD_eq
  intro i hi
  have h1 := congrArg (fun z : UInt16 => z.toBitVec.getLsbD i) hrest'
  have h2 := congrArg (fun z : UInt16 => z.toBitVec.getLsbD i) hflag'
  simp only [UInt16.toBitVec_and, UInt16.toBitVec_or, BitVec.getLsbD_and, BitVec.getLsbD_or] at h1 h2
  revert h1 h2
  cases x.toBitVec.getLsbD i <;> cases y.toBitVec.getLsbD i
    <;> cases stereoFlag.toBitVec.getLsbD i <;> decide

-- ============================================================== what was sent

/-- The properties of `si_table`, PS misc up to its stereo flag. -/
structure PropsSent (v : List UInt16) (s : Sent) : Prop where
  props : ∀ k < siN, k ≠ miscIndex → s.props (siTable.getD k 0) = v.getD k 0
  misc : s.props 0x2C03 ||| stereoFlag = v.getD miscIndex 0 ||| stereoFlag

/-- Tune, power, components and the stereo flag on air, and else the
carrier off. -/
structure FmSent (w : List UInt8) (s : Sent) : Prop where
  tuned : onAir w = true → s.tuned = .tune (freqOf w)
  power : s.power = if onAir w then (powerOf w, capOf w) else (0, 0)
  components : onAir w = true → s.props 0x2100 = componentsOf w
  stereo : onAir w = true → s.props 0x2C03 &&& stereoFlag = stereoOf (w.getD 3 0)

/-- PI code, station name and RadioText. -/
structure RdsSent (x : List UInt8) (s : Sent) : Prop where
  pi : s.props 0x2C01 = piOf x
  ps : ∀ i < 2, s.ps (UInt8.ofNat i) = psBlock x i
  rt : ∀ i < 16, s.rt (UInt8.ofNat i) = rtBlock x i

def settled : Told := ⟨PropsSent, FmSent, RdsSent⟩

-- ================================================================ properties

/-- What a property command does to what was sent. -/
def setProp (p x : UInt16) (s : Sent) : Sent := { s with props := Function.update s.props p x }

theorem setProp_other {p x q : UInt16} (h : q ≠ p) (s : Sent) : (setProp p x s).props q = s.props q :=
  Function.update_of_ne h _ _

/-- `si_table` has no property twice, and none that is set elsewhere
except PS misc. -/
theorem siTable_props : ∀ k < siN, siTable.getD k 0 ∉ [0x2100, 0x2C01, 0x2C07]
    ∧ (siTable.getD k 0 = 0x2C03 ↔ k = miscIndex)
    ∧ ∀ j < siN, siTable.getD j 0 = siTable.getD k 0 → j = k := by decide

theorem PropsSent.other {v : List UInt16} {s : Sent} (h : PropsSent v s) {p : UInt16}
    (hp : p ∈ [0x2100, 0x2C01, 0x2C07]) (x : UInt16) : PropsSent v (setProp p x s) where
  props k hk hne := by
    rw [setProp_other, h.props k hk hne]
    rintro rfl
    exact (siTable_props k hk).1 hp
  misc := by
    rw [setProp_other, h.misc]
    rintro rfl
    exact absurd hp (by decide)

theorem quiet_event (d : Radio) (ev : UInt16) : Quiet d (perform d (.event ev)).2 := by
  have hlow := @put8_marked d.bridge 0x06 (.inl (by decide)) (by decide)
    (d.bridge.regs 0x06 ||| lo ev)
  set b := d.bridge.put8 0x06 (d.bridge.regs 0x06 ||| lo ev)
  have hmark := hlow.trans (@put8_marked b 0x07 (.inl (by decide)) (by decide) (b.regs 0x07 ||| hi ev))
  exact ⟨⟨hmark.siprop, hmark.fm, hmark.rds, hmark.present⟩, rfl, rfl⟩

theorem quiet_put (d : Radio) (r v : UInt8) : Quiet d (perform d (.put r v)).2 := by
  have hput : ∀ {r : UInt8}, r.toNat < 0x40 → r.toNat ≠ 5 → Quiet d (d.on (d.bridge.put8 r v)) :=
    fun hr h5 => ⟨put8_marked d.bridge (.inl hr) h5 v, rfl, rfl⟩
  unfold perform
  dsimp only
  split
  · next hr =>
    rcases of_decide_eq_true hr with rfl | rfl
    · exact hput (by decide) (by decide)
    · exact hput (by decide) (by decide)
  · exact ⟨Marked.refl _, rfl, rfl⟩

/-- The registers are as they were copied; the rest as it was. -/
def copied (v : List UInt8) (F : Sent → Prop) : Told :=
  ⟨PropsSent, fun w s => w = v ∧ F s, RdsSent⟩

/-- The station's registers are as they were copied. -/
def taken (x : List UInt8) (F : Sent → Prop) : Told :=
  ⟨PropsSent, FmSent, fun y s => y = x ∧ F s⟩

theorem quiet_mail (d : Radio) : Quiet d (perform d .mail).2 := by
  unfold perform
  dsimp only
  split
  · exact ⟨⟨fun h => ⟨h, rfl⟩, fun h => ⟨h, rfl⟩, fun h => ⟨h, rfl⟩, rfl⟩, rfl, rfl⟩
  · exact ⟨Marked.refl _, rfl, rfl⟩

theorem load_sipropDirty (vs : List UInt8) : ∀ (b : Bridge) (r : Nat),
    (b.load r vs).sipropDirty = b.sipropDirty := by
  induction vs with
  | nil => exact fun _ _ => rfl
  | cons v vs ih => exact fun b r => ih (b.put8 (UInt8.ofNat r) v) (r + 1)

/-- After `setup`, everything found in flash. -/
structure Started (nvs : Settings) (d : Radio) : Prop where
  fm : nvs.fm.length = 6
  siprop : nvs.siprop.length = siN
  rds : nvs.rds.length = 0x90 - 0x46
  bridge : ∃ b, d.bridge = setup nvs b
  ab : d.ab = 0

/-- The loop has all of it to send. -/
theorem Started.flags {nvs : Settings} (h : Started nvs d) : ∀ f, d.bridge.isDirty f = true := by
  obtain ⟨b, hb⟩ := h.bridge
  intro f
  rw [hb]
  cases f with
  | fm => rfl
  | rds =>
      unfold setup
      dsimp only
      rw [if_pos h.rds]
      rfl
  | siprop =>
      unfold setup
      dsimp only
      rw [if_pos h.rds]
      exact load_sipropDirty _ _ _

theorem perform_present (d : Radio) (a : Access) :
    (perform d a).2.bridge.regs 0x05 &&& presentSi = d.bridge.regs 0x05 &&& presentSi := by
  cases a with
  | put r v => exact (quiet_put d r v).marked.present
  | event ev => exact (quiet_event d ev).marked.present
  | mail => exact (quiet_mail d).marked.present
  | defaults =>
      show (((d.bridge.put8 0x43 (d.bridge.regs 0x43 &&& ~~~4)).put8 0x44 0).put8 0x45 0).regs 0x05
        &&& presentSi = _
      rw [put8_other _ _ _ (by decide), put8_other _ _ _ (by decide), put8_other _ _ _ (by decide)]
  | copy f => cases f <;> rfl
  | mark f => cases f <;> rfl
  | _ => rfl

/-- The chip is there at all times, or at none. -/
theorem Run.present {d : Radio} {outs : List (Unit × Unit)} {s : Sys Access Got Unit Unit Radio}
    (h : radio.Run ⟨d, none⟩ outs s) :
    s.dev.bridge.regs 0x05 &&& presentSi = d.bridge.regs 0x05 &&& presentSi := by
  refine h.keeps (I := fun s => s.dev.bridge.regs 0x05 &&& presentSi
    = d.bridge.regs 0x05 &&& presentSi) (fun s o s' hstep hs => ?_) rfl
  cases hstep with
  | own hown => exact (around_quiet hown).marked.present.trans hs
  | start c =>
      rw [Sys.go_dev]
      exact hs
  | transfer =>
      rw [Sys.go_dev]
      exact (perform_present _ _).trans hs

/-- What was sent last is what the registers say. -/
structure Follows (d : Radio) : Prop where
  props : PropsSent d.bridge.settings.siprop d.sent
  fm : FmSent d.bridge.settings.fm d.sent
  rds : RdsSent d.bridge.settings.rds d.sent
  /-- On air, the stereo flag follows the mono bit. -/
  misc : onAir d.bridge.settings.fm = true →
    d.sent.props 0x2C03 = miscWith (d.bridge.siVal miscIndex) (d.bridge.regs 0x43)

theorem Holds.follows (h : Holds settled d) (hclear : ∀ f, d.bridge.isDirty f = false) :
    Follows d where
  props := h.siprop (hclear .siprop)
  fm := h.fm (hclear .fm)
  rds := h.rds (hclear .rds)
  misc hair := eq_miscWith (h.siprop (hclear .siprop)).misc ((h.fm (hclear .fm)).stereo hair)

/-- 99.3 MHz on air. -/
def onAirSettings : Settings :=
  ⟨[0xCA, 0x26, 100, 1, 0, 0], List.replicate 74 0x41, siDefaults⟩

def started : Radio where
  bridge := setup onAirSettings
    { regs := fun r => if r = 0x05 then presentSi else 0
      siVal := fun _ => 0 }
  sent := ⟨fun _ => 0, .nothing, (0, 0), fun _ => [], fun _ => []⟩
  resp := fun _ => [0x81]

/-- After the first turn. -/
def turned : Radio := (exec radio.answer (radio.prog ()) started).2

end Ncmips.Brimod
