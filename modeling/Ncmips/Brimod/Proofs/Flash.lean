/-
What the flash holds, and when it is written.

A write either leaves the settings and the time stamp alone, or leaves a
stamp that is not 0. So a stamp of 0 says that nothing was written since
the copies were taken (`Kept`). And the stamp is the last setting's time
with its lowest bit set (`Stamped`), which is in the future for the rest of
an even millisecond.
-/
import Ncmips.Brimod.Flash
import Ncmips.Lib.Steps

namespace Ncmips.Brimod

open Bridge Steps

-- ==================================================================== writes

/-- A stamp is not 0. -/
theorem stamp_ne_zero (m : UInt32) : m ||| 1 ≠ 0 := by
  intro h
  have hbit := congrArg (fun x : UInt32 => x.toNat.testBit 0) h
  simp at hbit

theorem settings_congr {b b' : Bridge}
    (hregs : ∀ r : UInt8, 0x40 ≤ r.toNat → r.toNat < 0x90 → b'.regs r = b.regs r)
    (hval : b'.siVal = b.siVal) : b'.settings = b.settings := by
  unfold settings
  rw [hval]
  congr 1
  · refine List.map_congr_left fun i hi => ?_
    have hlt := List.mem_range.mp hi
    refine hregs _ ?_ ?_
    · rw [UInt8.toNat_ofNat']
      omega
    · rw [UInt8.toNat_ofNat']
      omega
  · refine List.map_congr_left fun i hi => ?_
    have hlt := List.mem_range.mp hi
    refine hregs _ ?_ ?_
    · rw [UInt8.toNat_ofNat']
      omega
    · rw [UInt8.toNat_ofNat']
      omega

theorem put8_settings (b : Bridge) {r : UInt8} (hr : r.toNat < 0x40 ∨ 0x90 ≤ r.toNat) (v : UInt8) :
    (b.put8 r v).settings = b.settings := by
  refine settings_congr (fun q hlo hhi => ?_) rfl
  have hne : q ≠ r := by
    rintro rfl
    omega
  exact Function.update_of_ne hne _ _

/-- What a write does to what is saved: if it sets any of it, it leaves a
stamp. -/
structure Noted (sets : Prop) (b b' : Bridge) : Prop where
  millis : b'.millis = b.millis
  stamped : sets → b'.fmSaveMs = b.millis ||| 1
  same : ¬sets → b'.fmSaveMs = b.fmSaveMs ∧ b'.settings = b.settings

theorem Noted.of_same {sets : Prop} {b b' : Bridge} (hsets : ¬sets) (hmillis : b'.millis = b.millis)
    (hstamp : b'.fmSaveMs = b.fmSaveMs) (hval : b'.settings = b.settings) : Noted sets b b' :=
  ⟨hmillis, fun h => absurd h hsets, fun _ => ⟨hstamp, hval⟩⟩

theorem Noted.trans {p q : Prop} {b b' b'' : Bridge} (h : Noted p b b') (h' : Noted q b' b'') :
    Noted (p ∨ q) b b'' where
  millis := h'.millis.trans h.millis
  stamped hpq := by
    by_cases hq : q
    · rw [h'.stamped hq, h.millis]
    · rw [(h'.same hq).1, h.stamped (hpq.resolve_right hq)]
  same hpq := by
    obtain ⟨hp, hq⟩ := not_or.mp hpq
    exact ⟨(h'.same hq).1.trans (h.same hp).1, (h'.same hq).2.trans (h.same hp).2⟩

theorem Noted.congr {p q : Prop} {b b' : Bridge} (h : Noted p b b') (hpq : p ↔ q) : Noted q b b' :=
  propext hpq ▸ h

theorem writeReg_noted (b : Bridge) (r v : UInt8) :
    Noted (0x40 ≤ r.toNat ∧ r.toNat ≤ 0x8F) b (b.writeReg r v) := by
  have hlo : (0x40 : UInt8) ≤ r ↔ 0x40 ≤ r.toNat := UInt8.le_iff_toNat_le
  have hhi : r ≤ (0x8F : UInt8) ↔ r.toNat ≤ 0x8F := UInt8.le_iff_toNat_le
  have h45 : r ≤ (0x45 : UInt8) ↔ r.toNat ≤ 0x45 := UInt8.le_iff_toNat_le
  have h46 : (0x46 : UInt8) ≤ r ↔ 0x46 ≤ r.toNat := UInt8.le_iff_toNat_le
  have hA0 : (0xA0 : UInt8) ≤ r ↔ 0xA0 ≤ r.toNat := UInt8.le_iff_toNat_le
  by_cases hin : 0x40 ≤ r.toNat ∧ r.toNat ≤ 0x8F
  · have hw : writable r = true := by
      unfold writable
      rw [decide_eq_true (hlo.mpr hin.1), decide_eq_true (hhi.mpr hin.2)]
      simp
    unfold writeReg
    rw [if_pos hw, if_neg (by rw [hA0]; omega)]
    split_ifs with hfm hrds
    · exact ⟨rfl, fun _ => rfl, fun h => absurd hin h⟩
    · exact ⟨rfl, fun _ => rfl, fun h => absurd hin h⟩
    all_goals
      rw [hlo, h45] at hfm
      rw [h46, hhi] at hrds
      omega
  · have hput := put8_settings b (show r.toNat < 0x40 ∨ 0x90 ≤ r.toNat by omega) v
    unfold writeReg
    split_ifs with hw hA hfm hrds hbell
    · exact .of_same hin rfl rfl hput
    · rw [hlo, h45] at hfm
      omega
    · rw [h46, hhi] at hrds
      omega
    · exact .of_same hin rfl rfl hput
    · exact .of_same hin rfl rfl hput
    · exact .of_same hin rfl rfl rfl

theorem writeRegs_noted (d : List UInt8) (b : Bridge) (r : Nat) :
    Noted (r ≤ 0x8F ∧ 0x40 < r + d.length ∧ 0 < d.length) b (b.writeRegs r d) := by
  induction d generalizing b r with
  | nil => exact .of_same (by simp) rfl rfl rfl
  | cons v d ih =>
      unfold writeRegs
      split_ifs with hlast
      · exact .of_same (by omega) rfl rfl rfl
      · have hr : (UInt8.ofNat r).toNat = r := by
          rw [UInt8.toNat_ofNat']
          omega
        have hfirst := writeReg_noted b (UInt8.ofNat r) v
        rw [hr] at hfirst
        refine (hfirst.trans (ih _ (r + 1))).congr ?_
        rw [List.length_cons]
        omega

theorem put8_noted (b : Bridge) {r : UInt8} (hr : r.toNat < 0x40 ∨ 0x90 ≤ r.toNat) (v : UInt8) :
    Noted False b (b.put8 r v) := .of_same id rfl rfl (put8_settings b hr v)

theorem writeSiprop_noted (b : Bridge) (d : List UInt8) :
    Noted (4 ≤ d.length ∧ (siIndex (le16 (d.getD 0 0) (d.getD 1 0))).isSome) b (b.writeSiprop d) := by
  have hwindow : ∀ (b' : Bridge) (v0 v1 v2 v3 : UInt8),
      Noted False b' ((((b'.put8 0x90 v0).put8 0x91 v1).put8 0x92 v2).put8 0x93 v3) := by
    intro b' v0 v1 v2 v3
    have h0 := @put8_noted b' 0x90 (.inr (by decide)) v0
    have h1 := @put8_noted (b'.put8 0x90 v0) 0x91 (.inr (by decide)) v1
    have h2 := @put8_noted ((b'.put8 0x90 v0).put8 0x91 v1) 0x92 (.inr (by decide)) v2
    have h3 := @put8_noted (((b'.put8 0x90 v0).put8 0x91 v1).put8 0x92 v2) 0x93 (.inr (by decide)) v3
    exact (((h0.trans h1).trans h2).trans h3).congr (by simp only [or_self])
  unfold writeSiprop
  extract_lets d0 d1 k b' v
  have hset : Noted (4 ≤ d.length ∧ k.isSome) b b' := by
    clear_value k
    cases k with
    | none => exact .of_same (fun h => nomatch h.2) rfl rfl rfl
    | some k =>
        by_cases hlen : 4 ≤ d.length
        · have hb' : b' = { b with
              siVal := Function.update b.siVal k (le16 (d.getD 2 0) (d.getD 3 0))
              sipropDirty := true
              fmSaveMs := b.millis ||| 1 } := if_pos hlen
          rw [hb']
          exact ⟨rfl, fun _ => rfl, fun h => absurd ⟨hlen, rfl⟩ h⟩
        · have hb' : b' = b := if_neg hlen
          rw [hb']
          exact .of_same (fun h => hlen h.1) rfl rfl rfl
  exact (hset.trans (hwindow b' d0 d1 (lo v) (hi v))).congr (or_false _ ▸ Iff.rfl)

theorem handleWrite_noted (b : Bridge) (reg : UInt8) (d : List UInt8) :
    Noted (setsFm reg d = true) b (b.handleWrite reg d) := by
  unfold handleWrite setsFm
  by_cases h90 : reg = 0x90
  · rw [if_pos h90, if_pos h90, decide_eq_true_eq]
    split_ifs with hlen
    · exact writeSiprop_noted b d
    · exact .of_same (fun h => hlen (by omega)) rfl rfl rfl
  · rw [if_neg h90, if_neg h90]
    have hlow : ∀ v, (b.put8 0x06 v).settings = b.settings := put8_settings b (.inl (by decide))
    have hhigh : ∀ v w, ((b.put8 0x06 v).put8 0x07 w).settings = b.settings := fun v w =>
      (put8_settings _ (.inl (by decide)) w).trans (hlow v)
    by_cases hspecial : reg = 0xC0 ∨ reg = 0xC8 ∨ reg = 0xF0 ∨ reg = 0x06 ∨ (reg = 0x10 ∧ 4 ≤ d.length)
    · rw [if_pos hspecial]
      split_ifs with hC0 hcmd hC8 hoff hF0 hrestart h06 hmask h10
      · exact .of_same nofun rfl rfl (put8_settings b (.inr (by decide)) _)
      · exact .of_same nofun rfl rfl rfl
      · exact .of_same nofun rfl rfl rfl
      · exact .of_same nofun rfl rfl rfl
      · exact .of_same nofun rfl rfl rfl
      · exact .of_same nofun rfl rfl rfl
      · exact .of_same nofun rfl rfl (hhigh _ _)
      · exact .of_same nofun rfl rfl (hlow _)
      · exact .of_same nofun rfl rfl rfl
      · simp only [hC0, hC8, hF0, h06, h10, or_self] at hspecial
    · obtain ⟨hC0, hC8, hF0, h06, h10⟩ : reg ≠ 0xC0 ∧ reg ≠ 0xC8 ∧ reg ≠ 0xF0 ∧ reg ≠ 0x06
          ∧ ¬(reg = 0x10 ∧ 4 ≤ d.length) := by
        simpa only [not_or] using hspecial
      rw [if_neg hspecial, if_neg hC0, if_neg hC8, if_neg hF0, if_neg h06, if_neg h10,
        decide_eq_true_eq]
      exact writeRegs_noted d b reg.toNat

theorem fmDefaults_noted (b : Bridge) : Noted True b b.fmDefaults :=
  ⟨rfl, fun _ => rfl, fun h => absurd trivial h⟩

-- ================================================================ what it holds

namespace Flash

/-- The copies are the settings, unless a stamp says that they changed. -/
structure Kept (s : Flash) : Prop where
  idle : (s.poll = .idle ∨ (∃ t, s.poll = .read t) ∨ ∃ t, s.poll = .due t) → s.saved = true →
    s.bridge.fmSaveMs = 0 → s.nvs = s.bridge.settings
  putFm : ∀ v, s.poll = .putFm v → s.bridge.fmSaveMs = 0 → v = s.bridge.settings
  putRds : ∀ v, s.poll = .putRds v → s.bridge.fmSaveMs = 0 →
    v = s.bridge.settings ∧ s.nvs.fm = v.fm
  putProps : ∀ v, s.poll = .putProps v → s.bridge.fmSaveMs = 0 →
    v = s.bridge.settings ∧ s.nvs.fm = v.fm ∧ s.nvs.rds = v.rds

theorem Kept.bridge {s : Flash} (h : s.Kept) {b : Bridge} {sets : Prop} (hb : Noted sets s.bridge b)
    (now : Nat) (last : Option Nat) : Kept { s with bridge := b, now := now, lastSet := last } := by
  have hsame : b.fmSaveMs = 0 → s.bridge.fmSaveMs = 0 ∧ b.settings = s.bridge.settings := by
    intro h0
    by_cases hsets : sets
    · rw [hb.stamped hsets] at h0
      exact absurd h0 (stamp_ne_zero _)
    · rw [← (hb.same hsets).1]
      exact ⟨h0, (hb.same hsets).2⟩
  refine ⟨fun hp hs h0 => ?_, fun v hp h0 => ?_, fun v hp h0 => ?_, fun v hp h0 => ?_⟩
  · show s.nvs = b.settings
    rw [(hsame h0).2]
    exact h.idle hp hs (hsame h0).1
  · show v = b.settings
    rw [(hsame h0).2]
    exact h.putFm v hp (hsame h0).1
  · show v = b.settings ∧ s.nvs.fm = v.fm
    rw [(hsame h0).2]
    exact h.putRds v hp (hsame h0).1
  · show v = b.settings ∧ s.nvs.fm = v.fm ∧ s.nvs.rds = v.rds
    rw [(hsame h0).2]
    exact h.putProps v hp (hsame h0).1

theorem Kept.pollStep {s : Flash} (h : s.Kept) : s.pollStep.Kept := by
  unfold Flash.pollStep
  split
  · next hpoll =>
    exact ⟨fun _ hs h0 => h.idle (.inl hpoll) hs h0, nofun, nofun, nofun⟩
  · next t hpoll =>
    split
    · exact ⟨fun _ hs h0 => h.idle (.inr (.inl ⟨t, hpoll⟩)) hs h0, nofun, nofun, nofun⟩
    · exact ⟨fun _ hs h0 => h.idle (.inr (.inl ⟨t, hpoll⟩)) hs h0, nofun, nofun, nofun⟩
  · next t hpoll =>
    refine ⟨nofun, fun v hv _ => ?_, nofun, nofun⟩
    cases hv
    dsimp only
    split
    · rfl
    · rfl
  · next v hpoll =>
    refine ⟨nofun, nofun, fun v' hv h0 => ?_, nofun⟩
    cases hv
    exact ⟨h.putFm v hpoll h0, rfl⟩
  · next v hpoll =>
    refine ⟨nofun, nofun, nofun, fun v' hv h0 => ?_⟩
    cases hv
    obtain ⟨hv, hfm⟩ := h.putRds v hpoll h0
    exact ⟨hv, hfm, rfl⟩
  · next v hpoll =>
    refine ⟨fun _ _ h0 => ?_, nofun, nofun, nofun⟩
    obtain ⟨hv, hfm, hrds⟩ := h.putProps v hpoll h0
    show Settings.mk s.nvs.fm s.nvs.rds v.siprop = s.bridge.settings
    rw [hfm, hrds, ← hv]

theorem Kept.step {s s' : Flash} {a : FlashAct} (hstep : s.step a = some s') (h : s.Kept) :
    s'.Kept := by
  cases a with
  | tick =>
      cases hstep
      exact ⟨h.idle, h.putFm, h.putRds, h.putProps⟩
  | write reg d =>
      cases hstep
      exact h.bridge (handleWrite_noted s.bridge reg d) _ _
  | defaults =>
      dsimp only [Flash.step] at hstep
      split at hstep
      · cases hstep
        exact h.bridge (fmDefaults_noted s.bridge) _ _
      · exact nomatch hstep
  | poll =>
      cases hstep
      exact h.pollStep

/-- The copies are on their way to flash. -/
def Saving (s : Flash) : Prop := ∃ v, s.poll = .putFm v ∨ s.poll = .putRds v ∨ s.poll = .putProps v

/-- No setting is lost: once there was a save, and none is due or under way,
the flash holds the registers' values. -/
theorem no_setting_lost {s s' : Flash} (hs : s.Started) (hrun : Run step (fun _ _ => True) s s')
    (hsaved : s'.saved = true) (hstamp : s'.bridge.fmSaveMs = 0) (hsaving : ¬s'.Saving) :
    s'.nvs = s'.bridge.settings := by
  have hkept : s.Kept := by
    have hpoll := hs.poll
    refine ⟨fun _ h => ?_, fun v h => ?_, fun v h => ?_, fun v h => ?_⟩
    · rw [hs.saved] at h
      exact nomatch h
    all_goals
      rw [hpoll] at h
      exact nomatch h
  have h := hrun.keeps (fun _ _ _ _ hstep hk => hk.step hstep) hkept
  refine h.idle ?_ hsaved hstamp
  cases hpoll : s'.poll with
  | idle => exact .inl rfl
  | read t => exact .inr (.inl ⟨t, rfl⟩)
  | due t => exact .inr (.inr ⟨t, rfl⟩)
  | putFm v => exact absurd ⟨v, .inl hpoll⟩ hsaving
  | putRds v => exact absurd ⟨v, .inr (.inl hpoll)⟩ hsaving
  | putProps v => exact absurd ⟨v, .inr (.inr hpoll)⟩ hsaving

-- ========================================================== when it is stored

theorem or_one (n : Nat) : n ||| 1 = n + (1 - n % 2) := by
  refine Nat.eq_of_testBit_eq fun i => ?_
  cases i with
  | zero =>
      simp only [Nat.testBit_zero]
      rcases Nat.mod_two_eq_zero_or_one n with h | h
      · have hodd : (n + (1 - n % 2)) % 2 = 1 := by omega
        simp [hodd]
      · have hodd : (n + (1 - n % 2)) % 2 = 1 := by omega
        simp [hodd]
  | succ i =>
      rw [Nat.testBit_or, Nat.testBit_succ, Nat.testBit_succ, Nat.testBit_succ]
      have hhalf : (n + (1 - n % 2)) / 2 = n / 2 := by omega
      rw [hhalf]
      simp

/-- An age of three seconds is one, but in the rest of an even millisecond. -/
theorem age {m w : Nat} (hw : w ≤ m) (hlater : w = m → m % 2 = 1)
    (h : ¬UInt32.ofNat m - (UInt32.ofNat w ||| 1) < 3000) : w + 2999 ≤ m := by
  by_contra hyoung
  refine h ?_
  have hstamp : (UInt32.ofNat w ||| 1).toNat = w % 2 ^ 32 + (1 - w % 2) := by
    rw [UInt32.toNat_or, UInt32.toNat_ofNat']
    show w % 2 ^ 32 ||| 1 = _
    rw [or_one]
    omega
  rw [UInt32.lt_iff_toNat_lt, UInt32.toNat_sub, hstamp, UInt32.toNat_ofNat']
  show (2 ^ 32 - (w % 2 ^ 32 + (1 - w % 2)) + m % 2 ^ 32) % 2 ^ 32 < 3000
  omega

/-- A poll's stamp is the last setting's, and once it is due that is 2999 ms
ago. -/
def Ripe (s : Flash) : SavePoll → Prop
  | .idle => True
  | .read t => t ≠ 0 → ∃ w, s.lastSet = some w ∧ t = UInt32.ofNat w ||| 1
  | _ => ∃ w, s.lastSet = some w ∧ w + 2999 ≤ s.now

structure Stamped (s : Flash) : Prop where
  clock : s.bridge.millis = UInt32.ofNat s.now
  past : ∀ w, s.lastSet = some w → w ≤ s.now
  stamp : s.bridge.fmSaveMs ≠ 0 → ∃ w, s.lastSet = some w ∧ s.bridge.fmSaveMs = UInt32.ofNat w ||| 1
  ripe : s.Ripe s.poll
  stores : s.Debounced

theorem Stamped.write {s : Flash} (h : s.Stamped) {b : Bridge} {sets : Prop} [Decidable sets]
    (hb : Noted sets s.bridge b) (hidle : sets → s.poll = .idle) :
    Stamped { s with bridge := b, lastSet := if sets then some s.now else s.lastSet } := by
  by_cases hsets : sets
  · rw [if_pos hsets]
    refine ⟨hb.millis.trans h.clock, fun w hw => ?_, fun _ => ⟨s.now, rfl, ?_⟩, ?_, h.stores⟩
    · exact Nat.le_of_eq (Option.some.inj hw).symm
    · exact (hb.stamped hsets).trans (by rw [h.clock])
    · rw [hidle hsets]
      trivial
  · rw [if_neg hsets]
    refine ⟨hb.millis.trans h.clock, h.past, fun hne => ?_, ?_, h.stores⟩
    · have hstamp : b.fmSaveMs = s.bridge.fmSaveMs := (hb.same hsets).1
      show ∃ w, s.lastSet = some w ∧ b.fmSaveMs = UInt32.ofNat w ||| 1
      rw [hstamp]
      exact h.stamp (hstamp ▸ hne)
    · have hripe := h.ripe
      unfold Ripe at *
      exact hripe

theorem Stamped.store {s : Flash} (h : s.Stamped) (hripe : ∃ w, s.lastSet = some w ∧ w + 2999 ≤ s.now) :
    s.store.Debounced := by
  obtain ⟨w, hw, hage⟩ := hripe
  unfold Flash.store Debounced
  rw [hw]
  intro p hp
  rcases List.mem_cons.mp hp with rfl | hp
  · exact hage
  · exact h.stores p hp

theorem Stamped.pollStep {s : Flash} (h : s.Stamped)
    (hok : ∀ t, s.poll = .read t → s.lastSet = some s.now → s.now % 2 = 1) :
    s.pollStep.Stamped := by
  have hripe := h.ripe
  unfold Flash.pollStep
  split
  · exact ⟨h.clock, h.past, h.stamp, h.stamp, h.stores⟩
  · next t hpoll =>
    rw [hpoll] at hripe
    split
    · exact ⟨h.clock, h.past, h.stamp, trivial, h.stores⟩
    · next hold =>
      obtain ⟨hne, hold⟩ := not_or.mp hold
      obtain ⟨w, hw, rfl⟩ := hripe hne
      rw [h.clock] at hold
      refine ⟨h.clock, h.past, h.stamp, ⟨w, hw, ?_⟩, h.stores⟩
      refine age (h.past w hw) (fun hnow => ?_) hold
      exact hok _ hpoll (hnow ▸ hw)
  · next t hpoll =>
    rw [hpoll] at hripe
    refine ⟨?_, h.past, fun hne => ?_, hripe, h.stores⟩
    · dsimp only
      split
      · exact h.clock
      · exact h.clock
    · dsimp only at hne ⊢
      split at hne
      · exact absurd rfl hne
      · next hother =>
        rw [if_neg hother]
        exact h.stamp hne
  · next v hpoll =>
    rw [hpoll] at hripe
    exact ⟨h.clock, h.past, h.stamp, hripe, h.store hripe⟩
  · next v hpoll =>
    rw [hpoll] at hripe
    exact ⟨h.clock, h.past, h.stamp, hripe, h.store hripe⟩
  · next v hpoll =>
    rw [hpoll] at hripe
    exact ⟨h.clock, h.past, h.stamp, trivial, h.store hripe⟩

theorem Stamped.tick {s : Flash} (h : s.Stamped) :
    Stamped { s with
      now := s.now + 1
      bridge := { s.bridge with millis := UInt32.ofNat (s.now + 1) } } := by
  refine ⟨rfl, fun w hw => Nat.le_succ_of_le (h.past w hw), h.stamp, ?_, h.stores⟩
  have hripe := h.ripe
  show Ripe _ s.poll
  cases hpoll : s.poll with
  | idle => trivial
  | read t =>
      rw [hpoll] at hripe
      exact hripe
  | due t =>
      rw [hpoll] at hripe
      obtain ⟨w, hw, hage⟩ := hripe
      exact ⟨w, hw, Nat.le_succ_of_le hage⟩
  | putFm v =>
      rw [hpoll] at hripe
      obtain ⟨w, hw, hage⟩ := hripe
      exact ⟨w, hw, Nat.le_succ_of_le hage⟩
  | putRds v =>
      rw [hpoll] at hripe
      obtain ⟨w, hw, hage⟩ := hripe
      exact ⟨w, hw, Nat.le_succ_of_le hage⟩
  | putProps v =>
      rw [hpoll] at hripe
      obtain ⟨w, hw, hage⟩ := hripe
      exact ⟨w, hw, Nat.le_succ_of_le hage⟩

theorem Stamped.step {s s' : Flash} {a : FlashAct} (hok : s.Undisturbed a)
    (hstep : s.step a = some s') (h : s.Stamped) : s'.Stamped := by
  cases a with
  | tick =>
      cases hstep
      exact h.tick
  | write reg d =>
      cases hstep
      exact h.write (handleWrite_noted s.bridge reg d) hok
  | defaults =>
      dsimp only [Flash.step] at hstep
      split at hstep
      · next hidle =>
        cases hstep
        exact h.write (fmDefaults_noted s.bridge) fun _ => hidle
      · exact nomatch hstep
  | poll =>
      cases hstep
      exact h.pollStep hok

/-- Flash is written 2999 ms after the last setting at the earliest, where
no poll meets a setting's even millisecond or a setting itself. -/
theorem writes_debounced {s s' : Flash} (hs : s.Started) (hrun : Run Flash.step Undisturbed s s') :
    s'.Debounced := by
  have hstamped : s.Stamped := by
    refine ⟨hs.clock, fun w hw => ?_, fun hne => absurd hs.stamp hne, ?_, fun p hp => ?_⟩
    · rw [hs.lastSet] at hw
      exact nomatch hw
    · rw [hs.poll]
      trivial
    · rw [hs.stores] at hp
      exact nomatch hp
  exact (hrun.keeps (fun _ _ _ hok hstep h => h.step hok hstep) hstamped).stores

/-- A bridge with all registers 0. -/
def blank : Flash := { bridge := { regs := fun _ => 0, siVal := fun _ => 0 } }

theorem blank_started : blank.Started := ⟨rfl, rfl, rfl, rfl, rfl, rfl⟩

/-- `n + 1` milliseconds later. -/
def later (s : Flash) (n : Nat) : Flash :=
  { s with
    now := s.now + (n + 1)
    bridge := { s.bridge with millis := UInt32.ofNat (s.now + (n + 1)) } }

theorem run_later (s : Flash) (n : Nat) : Run Flash.step Undisturbed s (s.later n) := by
  induction n with
  | zero => exact .step (.nil s) (a := FlashAct.tick) trivial rfl
  | succ n ih => exact .step ih (a := FlashAct.tick) trivial rfl

/-- The box switches the transmitter on, and three seconds later that is
saved. -/
theorem writes_debounced_later : ∃ s', Run Flash.step Undisturbed blank s'
    ∧ s'.stores = [(3001, 0)] ∧ s'.Debounced := by
  have hwrite := @Run.step _ _ Flash.step Undisturbed _ _ _ (FlashAct.write 0x43 [1]) (.nil blank)
    (fun _ => rfl)
    (rfl : Flash.step blank (.write 0x43 [1]) = some _)
  have hwait := hwrite.trans (run_later _ 3000)
  have hread := Run.step hwait (a := FlashAct.poll) nofun rfl
  have hdue := Run.step hread (a := FlashAct.poll) (fun _ _ h => nomatch h) rfl
  have hcopy := Run.step hdue (a := FlashAct.poll) nofun rfl
  have hstore := Run.step hcopy (a := FlashAct.poll) nofun rfl
  exact ⟨_, hstore, rfl, writes_debounced blank_started hstore⟩

/-- The box switches the transmitter on, and the poll runs in the same
millisecond: it saves at once. -/
def sameMs : List FlashAct := [.write 0x43 [1], .poll, .poll, .poll, .poll, .poll, .poll]

theorem writes_not_debounced : ¬∀ s s' : Flash, s.Started → Run Flash.step (fun _ _ => True) s s' →
    s'.Debounced := by
  intro h
  have hrun := h blank _ blank_started
    (@Run.acts _ _ Flash.step (fun _ _ => True) (fun _ _ => trivial) sameMs blank _ rfl)
  exact absurd (hrun (0, 0) List.mem_cons_self) (by decide)

theorem no_setting_lost_at_once : ∃ s', Run Flash.step (fun _ _ => True) blank s'
    ∧ s'.nvs = s'.bridge.settings := by
  have hrun := @Run.acts _ _ Flash.step (fun _ _ => True) (fun _ _ => trivial) sameMs blank _ rfl
  exact ⟨_, hrun, no_setting_lost blank_started hrun rfl rfl (by rintro ⟨v, h | h | h⟩ <;> cases h)⟩

end Flash

end Ncmips.Brimod
