/-
Pulling the stick while an app uses it.

The host starts a stick under a new generation number; between two starts
transfers answer from one insertion only. So what an app transfers in a call
is of one stick, if none is started while the call is under way: the
generation is compared once, before a call's first transfer.

The host's side says which insertion a transfer may answer from
(`rawTransfer_spec`), each call is followed against any such answers
(`next`), and a run puts the two together (`run_sound`).
-/
import Ncmips.Lib.Faces
import Ncmips.Sdk.Files
import Ncmips.Usbfat.Proofs.Read

namespace Ncmips.Sdk

open Prog
open Usbfat (Io Req)

-- ==================================================================== the host

/-- The host does not know of a stick that went, or holds a mount of its own. -/
def Host.Trusted (h : Host) : Prop :=
  h.stickOk ≠ some false ∨ h.mounted = true ∧ h.mountedGen = h.storageGen ∧ h.lost = false

/-- Then the driver is on the insertion that the generation stands for. -/
def World.Up (w : World) : Prop := w.host.Trusted → w.bus.up = w.started w.host.storageGen

theorem mountHost_storageGen (m : Mounting) (h : Host) :
    (mountHost m h).2.storageGen = h.storageGen := by
  unfold mountHost
  dsimp only
  split_ifs <;> try rfl
  all_goals cases m <;> rfl

theorem mountHost_trusted {m : Mounting} {h : Host} (ht : (mountHost m h).2.Trusted) :
    h.Trusted := by
  unfold mountHost storagePresent at ht
  by_cases hs : h.stickOk = some false
  · right
    cases hm : h.mounted with
    | false => simp [hs, hm, Host.Trusted] at ht
    | true =>
      by_cases hg : h.mountedGen = h.storageGen
      · simpa [hs, hm, hg, Host.Trusted] using ht
      · simp [hs, hm, hg, Host.Trusted] at ht
  · exact .inl hs

/-- A mount that stands and did not lose its stick. -/
theorem mountHost_ready {m : Mounting} {h : Host} (hok : (mountHost m h).1 = true)
    (hl : (mountHost m h).2.lost = false) : h.Trusted := by
  unfold mountHost storagePresent at hok hl
  by_cases hs : h.stickOk = some false
  · right
    cases hm : h.mounted with
    | false => simp [hs, hm] at hok
    | true =>
      by_cases hg : h.mountedGen = h.storageGen
      · simp [hm, hg] at hl
        exact ⟨rfl, hg, hl⟩
      · simp [hs, hm, hg] at hok
  · exact .inl hs

/-- What the host trusts after it lost the stick it trusted before. -/
theorem lost_trusted {h : Host} (ht : ({ h with lost := true }.lostCheck).Trusted) :
    h.Trusted := by
  rcases ht with hs | ⟨hm, -⟩
  · exact .inl hs
  · exact absurd hm (by simp [Host.lostCheck])

/-- A transfer starts nothing, and answers from the insertion that the
generation stands for. -/
structure Answered (w : World) (o : Option (Nat × List UInt8)) (w' : World) : Prop where
  up : w'.Up
  storageGen : w'.host.storageGen = w.host.storageGen
  started : w'.started = w.started
  from_up : ∀ x, o = some x → w.started w.host.storageGen = some x.1

/-- A transfer that failed. -/
theorem Answered.failed {w : World} {h : Host} (hup : w.Up) (hg : h.storageGen = w.host.storageGen)
    (ht : h.Trusted → w.host.Trusted) : Answered w none { w with host := h } where
  up := fun hh => by
    have := hup (ht hh)
    simpa [hg] using this
  storageGen := hg
  started := rfl
  from_up := nofun

theorem answering_up {b : Bus} {i : Nat} (h : b.answering = some i) : b.up = some i := by
  unfold Bus.answering at h
  split at h
  · cases h
  next j hj =>
    split at h
    next hu => rw [hu]; exact h
    · cases h

theorem rawRead_spec {w : World} (hup : w.Up) (m : Mounting) (t : Transfer) (start count : Nat) :
    Answered w (rawRead m t start count w).1 (rawRead m t start count w).2 := by
  have hgen := mountHost_storageGen m w.host
  have htr := @mountHost_trusted m w.host
  have hready := @mountHost_ready m w.host
  unfold rawRead
  split
  next h heq =>
    rw [heq] at hgen htr
    exact .failed hup hgen htr
  next h heq =>
    rw [heq] at hgen htr hready
    split
    next i hb hl =>
      have hh := hup (hready rfl hl)
      refine ⟨fun _ => ?_, hgen, rfl, ?_⟩
      · exact hh.trans (congrArg w.started hgen.symm)
      · rintro x ⟨⟩
        rw [← hh]
        exact answering_up hb
    · exact .failed hup hgen fun hh => htr (lost_trusted hh)

theorem rawWrite_spec {w : World} (hup : w.Up) (m : Mounting) (t : Transfer) (sec : Nat)
    (data : List UInt8) :
    Answered w (rawWrite m t sec data w).1 (rawWrite m t sec data w).2 := by
  have hgen := mountHost_storageGen m w.host
  have htr := @mountHost_trusted m w.host
  have hready := @mountHost_ready m w.host
  unfold rawWrite
  split
  next h heq =>
    rw [heq] at hgen htr
    exact .failed hup hgen htr
  next h heq =>
    rw [heq] at hgen htr hready
    split
    next i hb hl =>
      have hh := hup (hready rfl hl)
      refine ⟨fun _ => ?_, hgen, rfl, ?_⟩
      · exact hh.trans (congrArg w.started hgen.symm)
      · rintro x ⟨⟩
        rw [← hh]
        exact answering_up hb
    next lost hl =>
      cases lost with
      | true => exact .failed hup hgen fun hh => htr (lost_trusted hh)
      | false =>
        refine .failed hup hgen fun hh => htr ?_
        simpa [Host.lostCheck, Host.Trusted, hl] using hh
    · exact .failed hup hgen fun hh => htr (lost_trusted hh)

theorem rawTransfer_spec {w : World} (hup : w.Up) (m : Mounting) (t : Transfer) (r : Usbfat.Req) :
    Answered w (rawTransfer m t r w).1 (rawTransfer m t r w).2 := by
  cases r with
  | read start count => exact rawRead_spec hup m t start count
  | write sec data => exact rawWrite_spec hup m t sec data

-- =================================================================== the polls

/-- The poll comes to `ufs_remount`. -/
def due (now : Bool) (timer : Nat) (h : Host) : Bool :=
  !h.stickOk.getD (now && h.mounted && !h.lost) && now && h.since ≠ 0
    && ¬Usbfat.sub32 timer h.since < settleMs

/-- What is started for each generation, if nothing is started any more. -/
def World.after (w : World) (g : Nat) : Option Nat := w.started (min g w.host.storageGen)

/-- A generation never changes what it stands for. -/
theorem storagePoll_started (now : Bool) (timer : Nat) (r : Restart) (w : World) :
    w.host.storageGen ≤ (storagePoll now timer r w).host.storageGen
      ∧ ∀ g ≤ w.host.storageGen, (storagePoll now timer r w).started g = w.started g := by
  have hne : ∀ g ≤ w.host.storageGen, g ≠ w.host.storageGen + 1 := by omega
  unfold storagePoll
  dsimp only
  split_ifs with hgone hquiet hsince hsettle
  · exact ⟨Nat.le_succ _, fun g hg => Function.update_of_ne (hne g hg) _ _⟩
  · exact ⟨le_rfl, fun g _ => rfl⟩
  · exact ⟨le_rfl, fun g _ => rfl⟩
  · exact ⟨le_rfl, fun g _ => rfl⟩
  · cases r with
    | ok => exact ⟨Nat.le_succ _, fun g hg => Function.update_of_ne (hne g hg) _ _⟩
    | failed up => exact ⟨le_rfl, fun g _ => rfl⟩

/-- A poll that starts nothing leaves all generations where they are, the
ones to come too. -/
theorem storagePoll_after {now : Bool} {timer : Nat} {r : Restart} {w : World}
    (h : due now timer w.host = true → r ≠ .ok) :
    (storagePoll now timer r w).after = w.after := by
  unfold storagePoll
  unfold due at h
  dsimp only
  split_ifs with hgone hquiet hsince hsettle
  · funext g
    rcases Nat.lt_or_ge w.host.storageGen g with hg | hg
    · simp [World.after, Nat.min_eq_right hg, Nat.min_eq_right (Nat.le_of_lt hg)]
    · simp [World.after, Nat.min_eq_left hg, Nat.min_eq_left (Nat.le_succ_of_le hg),
        Function.update_of_ne (show g ≠ w.host.storageGen + 1 by omega)]
  · rfl
  · rfl
  · rfl
  · cases r with
    | ok => exact absurd rfl (h (by simp_all))
    | failed up => rfl

theorem storagePoll_up {w : World} (hup : w.Up) (now : Bool) (timer : Nat) (r : Restart) :
    (storagePoll now timer r w).Up := by
  -- the first poll makes of "not known yet" what it is
  have hknown : ∀ ok since, ok = w.host.stickOk.getD (now && w.host.mounted && !w.host.lost) →
      ({ w.host with stickOk := some ok, since } : Host).Trusted → w.host.Trusted := by
    rintro ok since rfl (hs | hm)
    · left
      rintro hf
      simp [hf] at hs
    · exact .inr hm
  unfold storagePoll
  dsimp only
  split_ifs with hgone hquiet hsince hsettle
  · rintro (hs | ⟨hm, -⟩)
    · exact absurd rfl hs
    · cases hm
  · exact fun ht => hup (hknown _ _ rfl ht)
  · exact fun ht => hup (hknown _ _ rfl ht)
  · exact fun ht => hup (hknown _ _ rfl ht)
  · cases r with
    | ok => exact fun _ => by simp
    | failed up =>
      rintro (hs | ⟨-, -, hl⟩)
      · rw [not_or, Bool.not_eq_true] at hquiet
        exact absurd (congrArg some hquiet.1) hs
      · cases hl

-- =================================================================== the calls

/-- What the host may answer while it starts nothing: `g` is the generation,
and what the driver is on is `σ g`, for every generation that may follow, too. -/
def next (σ : Nat → Option Nat) (g : Nat) : Ask → Ans → Nat → Prop
  | .storageGen, r, g' => g ≤ g' ∧ r.toNum = g'
  | .storagePresent, _, g' => g ≤ g'
  | .transfer _, r, g' => g ≤ g' ∧ ∀ x, r.toSectors = some x → σ g = some x.1

def Flat (σ : Nat → Option Nat) (g : Nat) : Prop := ∀ m, g ≤ m → σ m = σ g

/-- What an app has from sticks is of the sticks it takes it for. -/
structure Ties (σ : Nat → Option Nat) (g : Nat) (a : App) : Prop where
  one : ∃ i, a.log.From i
  mounted : a.mounted = true → a.mountedGen ≤ g ∧ a.log.From (σ a.mountedGen)
  streams : ∀ st ∈ a.streams, st.used = true → st.gen ≤ g ∧ st.log.From (σ st.gen)

variable {σ : Nat → Option Nat} {g : Nat} {a : App}

theorem Log.From.nil {i : Option Nat} : Log.From [] i := nofun

theorem Log.From.append {l l' : Log} {i : Option Nat} (h : l.From i) (h' : l'.From i) :
    Log.From (l ++ l') i := by
  intro x hx
  rcases List.mem_append.mp hx with hx | hx
  · exact h x hx
  · exact h' x hx

theorem Flat.le {g' : Nat} (hflat : Flat σ g) (h : g ≤ g') : Flat σ g' := fun m hm =>
  (hflat m (Nat.le_trans h hm)).trans (hflat g' h).symm

theorem Ties.le {g' : Nat} (h : Ties σ g a) (hg : g ≤ g') : Ties σ g' a where
  one := h.one
  mounted hm := ⟨Nat.le_trans (h.mounted hm).1 hg, (h.mounted hm).2⟩
  streams st hst hu := ⟨Nat.le_trans (h.streams st hst hu).1 hg, (h.streams st hst hu).2⟩

/-- Only what the generations up to now stand for counts. -/
theorem Ties.congr {σ' : Nat → Option Nat} (h : Ties σ g a) (hσ : ∀ m ≤ g, σ' m = σ m) :
    Ties σ' g a where
  one := h.one
  mounted hm := by
    rw [hσ _ (h.mounted hm).1]
    exact h.mounted hm
  streams st hst hu := by
    rw [hσ _ (h.streams st hst hu).1]
    exact h.streams st hst hu

/-- The app lets go of its mount. -/
theorem Ties.unmount (h : Ties σ g a) : Ties σ g { a with mounted := false } where
  one := h.one
  mounted := nofun
  streams := h.streams

theorem Ties.lostCheck (h : Ties σ g a) : Ties σ g a.lostCheck := by
  unfold App.lostCheck
  split
  · exact h.unmount
  · exact h

theorem lostCheck_streams (a : App) : a.lostCheck.streams = a.streams := by
  unfold App.lostCheck
  split <;> rfl

/-- Transfers of a call: all from where the driver is. -/
theorem onSystem_faces {α : Type} (p : Io α) {log : Log} (hflat : Flat σ g)
    (hlog : log.From (σ g)) :
    (onSystem p log).Faces (next σ) g fun g' r => g ≤ g' ∧ r.2.From (σ g) := by
  induction p generalizing g log with
  | ret x => exact ⟨le_rfl, hlog⟩
  | call q k ih =>
    rw [onSystem]
    rintro r g' ⟨hg, hr⟩
    have hhere := hflat g' hg
    have hwith : ∀ (ans : Option (List UInt8)) (log : Log), log.From (σ g) →
        (onSystem (k ans) log).Faces (next σ) g' fun g'' r => g ≤ g'' ∧ r.2.From (σ g) := by
      intro ans log hlog
      refine (ih ans (hflat.le hg) (hhere ▸ hlog)).mono ?_
      rintro g'' r ⟨hg'', hr⟩
      exact ⟨Nat.le_trans hg hg'', hhere ▸ hr⟩
    cases hs : r.toSectors with
    | none => simpa [hs] using hwith none log hlog
    | some x =>
      have := hwith (some x.2) (log ++ [(q, x.1)])
        (hlog.append fun y hy => by rw [List.mem_singleton.mp hy]; exact hr x hs)
      simpa [hs] using this

/-- What `mount` leaves: if it succeeds, the app's mount is of the insertion
that the driver is on. -/
structure Mounts (σ : Nat → Option Nat) (g : Nat) (a : App) (ok : Bool) (a' : App) (g' : Nat) :
    Prop where
  le : g ≤ g'
  ties : Ties σ g' a'
  streams : a'.streams = a.streams
  here : ok = true → a'.mounted = true ∧ σ a'.mountedGen = σ g

theorem storageGen_faces {Q : Nat → Nat → Prop} (h : ∀ g', g ≤ g' → Q g' g') :
    storageGen.Faces (next σ) g Q := by
  rintro r g' ⟨hg, hr⟩
  show Q g' r.toNum
  rw [hr]
  exact h g' hg

theorem appPresent_faces {Q : Nat → Bool → Prop} (h : ∀ g' b, g ≤ g' → Q g' b) :
    appPresent.Faces (next σ) g Q := fun r g' hg => h g' r.toFlag hg

theorem checkGen_faces (hflat : Flat σ g) (h : Ties σ g a) :
    (checkGen a).Faces (next σ) g fun g' a' => g ≤ g' ∧ Ties σ g' a' ∧ a'.streams = a.streams
      ∧ (a'.mounted = true → σ a'.mountedGen = σ g) := by
  unfold checkGen
  split
  · refine (storageGen_faces fun g' hg => ?_).bind (P := fun g' n => g ≤ g' ∧ n = g') ?_
    · exact ⟨hg, rfl⟩
    rintro g' n ⟨hg, rfl⟩
    refine faces_pure ?_
    split
    · exact ⟨hg, (h.le hg).unmount, rfl, nofun⟩
    next hgen =>
      refine ⟨hg, h.le hg, rfl, fun _ => ?_⟩
      rw [not_not.mp hgen]
      exact hflat _ hg
  next hm => exact faces_pure ⟨le_rfl, h, rfl, fun hm' => absurd hm' hm⟩

theorem mountAnew_faces (hflat : Flat σ g) (h : Ties σ g a) (hm : a.mounted = false) :
    (mountAnew a).Faces (next σ) g fun g' r => Mounts σ g a r.1 r.2 g' := by
  unfold mountAnew
  refine (onSystem_faces _ hflat Log.From.nil).bind ?_
  rintro g₁ ⟨⟨ok, fs⟩, log⟩ ⟨hg₁, hlog⟩
  dsimp only at hlog ⊢
  -- unmounted, so only the log says where its data is from
  have hties : Ties σ g₁ { a with fs, log } :=
    ⟨⟨_, hlog⟩, fun hm' => absurd hm' (by rw [hm]; exact Bool.false_ne_true),
      (h.le hg₁).streams⟩
  split
  · exact faces_pure ⟨hg₁, hties.lostCheck, lostCheck_streams _, nofun⟩
  refine (storageGen_faces fun g₂ hg₂ => ?_).bind (P := fun g₂ n => g₁ ≤ g₂ ∧ n = g₂) ?_
  · exact ⟨hg₂, rfl⟩
  rintro g₂ n ⟨hg₂, rfl⟩
  have hg := Nat.le_trans hg₁ hg₂
  have hhere : σ n = σ g := hflat n hg
  refine faces_pure ⟨hg, ⟨⟨_, hlog⟩, fun _ => ⟨le_rfl, hhere ▸ hlog⟩, ?_⟩, rfl, ?_⟩
  · exact (hties.le hg₂).streams
  · exact fun _ => ⟨rfl, hhere⟩

theorem mount_faces (hflat : Flat σ g) (h : Ties σ g a) :
    (mount a).Faces (next σ) g fun g' r => Mounts σ g a r.1 r.2 g' := by
  unfold mount
  refine (checkGen_faces hflat h).bind ?_
  rintro g₁ a₁ ⟨hg₁, hties, hstreams, hhere⟩
  split
  next hm => exact faces_pure ⟨hg₁, hties, hstreams, fun _ => ⟨hm, hhere hm⟩⟩
  next hm =>
    refine (appPresent_faces fun g₂ b hg₂ => ?_).bind (P := fun g₂ _ => g₁ ≤ g₂) ?_
    · exact hg₂
    intro g₂ b hg₂
    have hg := Nat.le_trans hg₁ hg₂
    split
    · exact faces_pure ⟨hg, hties.le hg₂, hstreams, nofun⟩
    refine (mountAnew_faces (hflat.le hg) (hties.le hg₂) (by simpa using hm)).mono ?_
    rintro g₃ ⟨ok, a₃⟩ h₃
    refine ⟨Nat.le_trans hg h₃.le, h₃.ties, h₃.streams.trans hstreams, fun hok => ?_⟩
    exact ⟨(h₃.here hok).1, (h₃.here hok).2.trans (hflat g₂ hg)⟩

/-- What a call leaves. -/
structure Leaves (σ : Nat → Option Nat) (g : Nat) (c : Made) (out : Out) (a : App) : Prop where
  ties : Ties σ g a
  opened : ∀ h, out = .opened (some h) → ∃ st, a.streams[h]? = some st ∧ st.used = true
  read : ∀ turns h len data, c = .read turns h len → out = .read (some data) →
    ∃ st, a.streams[h]? = some st ∧ st.used = true

theorem Ties.log {log : Log} {i : Option Nat} (h : Ties σ g a) (fs : Usbfat.Fs)
    (hm : σ a.mountedGen = i) (hlog : log.From i) : Ties σ g { a with fs, log } where
  one := ⟨i, hlog⟩
  mounted hmounted := ⟨(h.mounted hmounted).1, hm ▸ hlog⟩
  streams := h.streams

theorem Ties.set (h : Ties σ g a) (i : Nat) (st : Stream) (hgen : st.gen ≤ g)
    (hlog : st.log.From (σ st.gen)) : Ties σ g { a with streams := a.streams.set i st } where
  one := h.one
  mounted := h.mounted
  streams st' hst hu := by
    rcases List.mem_or_eq_of_mem_set hst with hst | rfl
    · exact h.streams st' hst hu
    · exact ⟨hgen, hlog⟩

/-- Transfers of a call after its `mount`. -/
theorem Mounts.onSystem {α : Type} {a' : App} {g' : Nat} (p : Io α) (hflat : Flat σ g)
    (h : Mounts σ g a true a' g') :
    (onSystem p a'.log).Faces (next σ) g' fun g'' r => g' ≤ g'' ∧ r.2.From (σ a'.mountedGen) := by
  have hm := h.here rfl
  have hlog := (h.ties.mounted hm.1).2
  have hgen : σ a'.mountedGen = σ g' := hm.2.trans (hflat g' h.le).symm
  rw [hgen] at hlog ⊢
  exact onSystem_faces p (hflat.le h.le) hlog

variable {turns : Nat} {path : List UInt8} {e : Usbfat.Udirent}

theorem sdkOpen_faces (hflat : Flat σ g) (h : Ties σ g a) :
    (sdkOpen turns path e a).Faces (next σ) g fun g' r =>
      Leaves σ g' (.open turns path e) r.1 r.2 := by
  unfold sdkOpen
  refine (mount_faces hflat h).bind ?_
  rintro g₁ ⟨ok, a₁⟩ hm
  dsimp only at hm ⊢
  split
  · exact faces_pure ⟨hm.ties, nofun, nofun⟩
  next hok =>
    obtain rfl : ok = true := by simpa using hok
    split
    · exact faces_pure ⟨hm.ties, nofun, nofun⟩
    next slot hslot =>
      refine (hm.onSystem _ hflat).bind ?_
      rintro g₂ ⟨r, log⟩ ⟨hg, hlog⟩
      have hties := fun fs => (hm.ties.le hg).log fs rfl hlog
      rcases r with _ | ⟨_ | file, fs⟩
      · exact faces_pure ⟨hties _, nofun, nofun⟩
      · exact faces_pure ⟨(hties fs).lostCheck, nofun, nofun⟩
      · refine faces_pure ⟨(hties fs).set slot _ ?_ hlog, ?_, nofun⟩
        · exact Nat.le_trans (hm.ties.mounted (hm.here rfl).1).1 hg
        · rintro h' ⟨⟩
          have hlt := (List.findIdx?_eq_some_iff_getElem.mp hslot).1
          exact ⟨_, List.getElem?_set_self hlt, rfl⟩

theorem sdkRead_faces {h len : Nat} (hflat : Flat σ g) (hties : Ties σ g a) :
    (sdkRead turns h len a).Faces (next σ) g fun g' r =>
      Leaves σ g' (.read turns h len) r.1 r.2 := by
  unfold sdkRead
  split
  · exact faces_pure ⟨hties, nofun, nofun⟩
  next st hst =>
    split
    · exact faces_pure ⟨hties, nofun, nofun⟩
    next hused =>
      refine (mount_faces hflat hties).bind ?_
      rintro g₁ ⟨ok, a₁⟩ hm
      dsimp only at hm ⊢
      split
      · exact faces_pure ⟨hm.ties, nofun, nofun⟩
      next hok =>
        -- the stream is still of the app's stick
        rw [not_or, not_not] at hok
        obtain rfl : ok = true := by simpa using hok.1
        have hu : st.used = true := by simpa using (not_or.mp hused).1
        have hold := hm.ties.streams st (hm.streams ▸ List.mem_of_getElem? hst) hu
        refine (hm.onSystem _ hflat).bind ?_
        rintro g₂ ⟨r, log⟩ ⟨hg, hlog⟩
        have hties := fun fs => (hm.ties.le hg).log fs rfl hlog
        rcases r with _ | ⟨data, file, fs⟩
        · exact faces_pure ⟨hties _, nofun, nofun⟩
        · refine faces_pure ⟨?_, nofun, ?_⟩
          · refine ((hties fs).set h { st with file, log := st.log ++ log } ?_ ?_).lostCheck
            · exact Nat.le_trans hold.1 hg
            · exact hold.2.append (hok.2 ▸ hlog)
          · rintro _ _ _ _ ⟨⟩ -
            have hlt := (List.getElem?_eq_some_iff.mp (hm.streams ▸ hst)).1
            rw [lostCheck_streams]
            exact ⟨_, List.getElem?_set_self hlt, hu⟩

theorem sdkReadFile_faces {max : Nat} (hflat : Flat σ g) (h : Ties σ g a) :
    (sdkReadFile turns path e max a).Faces (next σ) g fun g' r =>
      Leaves σ g' (.readFile turns path e max) r.1 r.2 := by
  unfold sdkReadFile
  refine (mount_faces hflat h).bind ?_
  rintro g₁ ⟨ok, a₁⟩ hm
  dsimp only at hm ⊢
  split
  · exact faces_pure ⟨hm.ties, nofun, nofun⟩
  next hok =>
    obtain rfl : ok = true := by simpa using hok
    refine (hm.onSystem _ hflat).bind ?_
    rintro g₂ ⟨r, log⟩ ⟨hg, hlog⟩
    have hties := fun fs => (hm.ties.le hg).log fs rfl hlog
    rcases r with _ | ⟨_ | f, fs⟩
    · exact faces_pure ⟨hties _, nofun, nofun⟩
    · exact faces_pure ⟨hties fs, nofun, nofun⟩
    · have hm₂ : Mounts σ g a true { a₁ with fs, log } g₂ :=
        ⟨Nat.le_trans hm.le hg, hties fs, hm.streams, hm.here⟩
      refine (hm₂.onSystem (readFileLoop turns (min f.size max) turns [] f fs) hflat).bind ?_
      rintro g₃ ⟨r, log⟩ ⟨hg, hlog⟩
      have hties := fun fs => (hm₂.ties.le hg).log fs rfl hlog
      rcases r with _ | ⟨_ | data, fs⟩
      · exact faces_pure ⟨hties _, nofun, nofun⟩
      · exact faces_pure ⟨(hties fs).lostCheck, nofun, nofun⟩
      · exact faces_pure ⟨hties fs, nofun, nofun⟩

theorem sdkOverwrite_faces {data magic : List UInt8} (hflat : Flat σ g) (h : Ties σ g a) :
    (sdkOverwrite turns path data magic e a).Faces (next σ) g fun g' r =>
      Leaves σ g' (.overwrite turns path data magic e) r.1 r.2 := by
  unfold sdkOverwrite
  refine (mount_faces hflat h).bind ?_
  rintro g₁ ⟨ok, a₁⟩ hm
  dsimp only at hm ⊢
  split
  · exact faces_pure ⟨hm.ties, nofun, nofun⟩
  next hok =>
    obtain rfl : ok = true := by simpa using hok
    refine (hm.onSystem _ hflat).bind ?_
    rintro g₂ ⟨r, log⟩ ⟨hg, hlog⟩
    have hties := fun fs => (hm.ties.le hg).log fs rfl hlog
    rcases r with _ | ⟨wrote, fs⟩
    · exact faces_pure ⟨hties _, nofun, nofun⟩
    · exact faces_pure ⟨(hties fs).lostCheck, nofun, nofun⟩

theorem call_faces (c : Made) (hflat : Flat σ g) (h : Ties σ g a) :
    (c.call a).Faces (next σ) g fun g' r => Leaves σ g' c r.1 r.2 := by
  cases c with
  | «open» turns path e => exact sdkOpen_faces hflat h
  | read turns slot len => exact sdkRead_faces hflat h
  | readFile turns path e max => exact sdkReadFile_faces hflat h
  | overwrite turns path data magic e => exact sdkOverwrite_faces hflat h

-- ==================================================================== the runs

/-- Only a call that has not been answered anything yet may see the host
start a stick. -/
def undisturbed (s : System) (m : Move) : Prop :=
  ∀ now timer, m = .poll now timer .ok → due now timer s.world.host = true →
    ∀ c p, s.busy = some (c, p) → p = c.call s.app

/-- What a run keeps: the app's ties, and a call under way that leaves what
it should whatever is answered from now on. -/
structure Sound (s : System) : Prop where
  up : s.world.Up
  ties : Ties s.world.after s.world.host.storageGen s.app
  busy : ∀ c p, s.busy = some (c, p) →
    p.Faces (next s.world.after) s.world.host.storageGen fun g r =>
      Leaves s.world.after g c r.1 r.2
  returned : ∀ c out, s.returned = some (c, out) →
    Leaves s.world.after s.world.host.storageGen c out s.app

theorem World.after_flat (w : World) : Flat w.after w.host.storageGen := fun m hm => by
  simp [World.after, Nat.min_eq_right hm]

theorem World.after_of_le {w : World} {m : Nat} (hm : m ≤ w.host.storageGen) :
    w.after m = w.started m := by simp [World.after, Nat.min_eq_left hm]

theorem Leaves.le {g' : Nat} {c : Made} {out : Out} (h : Leaves σ g c out a) (hg : g ≤ g') :
    Leaves σ g' c out a := ⟨h.ties.le hg, h.opened, h.read⟩

/-- Later the host may answer less. -/
theorem next_le {g' g'' : Nat} {e : Ask} {r : Ans} (hflat : Flat σ g) (hg : g ≤ g')
    (h : next σ g' e r g'') : next σ g e r g'' := by
  cases e with
  | storageGen => exact ⟨Nat.le_trans hg h.1, h.2⟩
  | storagePresent => exact Nat.le_trans hg h
  | transfer q => exact ⟨Nat.le_trans hg h.1, fun x hx => hflat g' hg ▸ h.2 x hx⟩

/-- The world moves on and starts nothing. -/
theorem Sound.world {s : System} {w : World} (h : Sound s) (hup : w.Up)
    (hg : s.world.host.storageGen ≤ w.host.storageGen) (hafter : w.after = s.world.after) :
    Sound { s with world := w } where
  up := hup
  ties := hafter ▸ h.ties.le hg
  busy c p hbusy := by
    rw [hafter]
    exact (h.busy c p hbusy).weaken (fun _ _ _ => next_le s.world.after_flat hg)
      fun _ hl => hl.le hg
  returned c out hret := hafter ▸ (h.returned c out hret).le hg

/-- A call goes on from where it leaves what it should. -/
theorem Sound.go {w : World} {a : App} {c : Made} {p : Call (Out × App)} (hup : w.Up)
    (hties : Ties w.after w.host.storageGen a)
    (hp : p.Faces (next w.after) w.host.storageGen fun g r => Leaves w.after g c r.1 r.2) :
    Sound (.go w a c p) := by
  cases p with
  | ret r =>
    refine ⟨hup, hp.ties, nofun, ?_⟩
    rintro c out ⟨⟩
    exact hp
  | call e k =>
    refine ⟨hup, hties, ?_, nofun⟩
    rintro c p ⟨⟩
    exact hp

/-- The host starts a stick while no call, or a fresh one, is under way. -/
theorem Sound.started {s : System} {w : World} (h : Sound s) (hup : w.Up)
    (hg : s.world.host.storageGen ≤ w.host.storageGen)
    (hstarted : ∀ g ≤ s.world.host.storageGen, w.started g = s.world.started g)
    (hfresh : ∀ c p, s.busy = some (c, p) → p = c.call s.app) : Sound { s with world := w } := by
  have hafter : ∀ g ≤ s.world.host.storageGen, w.after g = s.world.after g := by
    intro g hle
    rw [World.after_of_le (Nat.le_trans hle hg), World.after_of_le hle, hstarted g hle]
  have hties := (h.ties.congr hafter).le hg
  refine ⟨hup, hties, ?_, ?_⟩
  · intro c p hbusy
    rw [hfresh c p hbusy]
    exact call_faces c w.after_flat hties
  · intro c out hret
    have hl := h.returned c out hret
    exact ⟨hties, hl.opened, hl.read⟩

theorem answers_next {w w' : World} {e : Ask} {r : Ans} (hup : w.Up) (h : Answers w e r w') :
    w'.Up ∧ w'.after = w.after ∧ w'.host.storageGen = w.host.storageGen
      ∧ next w.after w.host.storageGen e r w.host.storageGen := by
  cases h with
  | storageGen => exact ⟨hup, rfl, rfl, le_rfl, rfl⟩
  | storagePresent => exact ⟨hup, rfl, rfl, Nat.le_refl _⟩
  | transfer q m t =>
    have ha := rawTransfer_spec hup m t q
    refine ⟨ha.up, ?_, ha.storageGen, le_rfl, fun x hx => ?_⟩
    · funext g
      simp only [World.after, ha.started, ha.storageGen]
    · rw [World.after_of_le le_rfl]
      exact ha.from_up x hx

theorem happens_sound {s : System} {m : Move} (h : Sound s) (hok : undisturbed s m) :
    Sound { s with world := happens s.world m } := by
  cases m with
  | removed => exact h.world h.up le_rfl rfl
  | inserted sectors => exact h.world h.up le_rfl rfl
  | poll now timer r =>
    have hup := storagePoll_up h.up now timer r
    obtain ⟨hg, hstarted⟩ := storagePoll_started now timer r s.world
    by_cases hdue : due now timer s.world.host = true ∧ r = .ok
    · exact h.started hup hg hstarted (hok now timer (by rw [hdue.2]) hdue.1)
    · exact h.world hup hg (storagePoll_after fun hd hr => hdue ⟨hd, hr⟩)
  | own m t q =>
    have ha := rawTransfer_spec h.up m t q
    refine h.world ha.up (Nat.le_of_eq ha.storageGen.symm) ?_
    funext g
    simp only [happens, World.after, ha.started, ha.storageGen]
  | launched => exact h
  | made c => exact h
  | answered => exact h

theorem ties_fresh (σ : Nat → Option Nat) (g : Nat) : Ties σ g {} where
  one := ⟨none, Log.From.nil⟩
  mounted := nofun
  streams st hst hu := by
    rw [List.eq_of_mem_replicate hst] at hu
    exact nomatch hu

theorem step_sound {s s' : System} {m : Move} (h : Sound s) (hok : undisturbed s m)
    (hstep : Step s m s') : Sound s' := by
  cases hstep with
  | happens m => exact happens_sound h hok
  | launched => exact ⟨h.up, ties_fresh _ _, nofun, nofun⟩
  | made c hidle => exact .go h.up h.ties (call_faces c s.world.after_flat h.ties)
  | @answered w c e k r hbusy ha =>
    obtain ⟨hup, hafter, hgen, hnext⟩ := answers_next h.up ha
    have hk := h.busy c _ hbusy r _ hnext
    rw [← hgen, ← hafter] at hk
    refine .go hup ?_ hk
    rw [hgen, hafter]
    exact h.ties

theorem run_sound {s s' : System} (h : Sound s) (hrun : Run undisturbed s s') : Sound s' := by
  induction hrun with
  | nil => exact h
  | step _ hok hstep ih => exact step_sound ih hok hstep

theorem boot_sound {s : System} (h : s.Boot) : Sound s := by
  obtain ⟨hhost, hup, happ, hbusy, hret⟩ := h
  refine ⟨fun _ => by rw [hhost]; exact hup, ?_, ?_, ?_⟩
  · rw [happ]
    exact ties_fresh _ _
  · rw [hbusy]
    nofun
  · rw [hret]
    nofun

theorem Leaves.handleFrom {w : World} {h : Nat} (hties : Ties w.after w.host.storageGen a)
    (hst : ∃ st, a.streams[h]? = some st ∧ st.used = true) : a.HandleFrom w.started h := by
  obtain ⟨st, hst, hused⟩ := hst
  obtain ⟨hgen, hlog⟩ := hties.streams st (List.mem_of_getElem? hst) hused
  exact ⟨st, hst, World.after_of_le hgen ▸ hlog⟩

theorem Sound.faithful {s : System} (h : Sound s) : s.Faithful := by
  intro c out hret
  have hl := h.returned c out hret
  unfold Sdk.Faithful
  split
  · exact Leaves.handleFrom hl.ties (hl.opened _ rfl)
  · exact Leaves.handleFrom hl.ties (hl.read _ _ _ _ rfl rfl)
  · exact hl.ties.one
  · exact hl.ties.one
  · trivial

/-- Whatever happens to the stick, what calls come to is of one insertion,
if no stick is started between a call's first answer and its end. -/
theorem hotswap_safe {s s' : System} (hboot : s.Boot) (hrun : Run undisturbed s s') :
    s'.Faithful := (run_sound (boot_sound hboot) hrun).faithful

-- ========================================================== a swap in between

open Usbfat (onDisk ufsMount ufsOpen)
open Usbfat.Volume (textStick textVolume)

/-- The host has its mount of a stick that is in. -/
structure Serves (w : World) (i : Nat) : Prop where
  answering : w.bus.answering = some i
  content : w.bus.content i = textStick.sector
  host : w.host.mounted = true ∧ w.host.mountedGen = w.host.storageGen ∧ w.host.lost = false

/-- All that is answered meanwhile; no write succeeds. -/
def served (w : World) (i : Nat) : Ask → Ans
  | .storageGen => .num w.host.storageGen
  | .storagePresent => .flag (storagePresent w.host)
  | .transfer q => .sectors ((textStick.disk.answer q).map fun bytes => (i, bytes))

theorem Serves.answers {w : World} {i : Nat} (h : Serves w i) (e : Ask) :
    Answers w e (served w i e) w := by
  obtain ⟨hm, hg, hl⟩ := h.host
  have hmount : mountHost .ok w.host = (true, w.host) := by
    unfold mountHost
    simp [hm, hg]
  cases e with
  | storageGen => exact .storageGen w
  | storagePresent => exact .storagePresent w
  | transfer q =>
    obtain ⟨t, ht⟩ : ∃ t, rawTransfer .ok t q w
        = ((textStick.disk.answer q).map fun bytes => (i, bytes), w) := by
      cases q with
      | read start count =>
        refine ⟨.done, ?_⟩
        simp only [rawTransfer, rawRead, hmount, h.answering, hl, h.content]
        rfl
      | write sec data =>
        refine ⟨.failed false, ?_⟩
        have hkeep : ({ w.host with lost := false } : Host).lostCheck = w.host := by
          unfold Host.lostCheck
          rw [if_neg Bool.false_ne_true, ← hl]
        simp only [rawTransfer, rawWrite, hmount, h.answering, hl, hkeep]
        rfl
    have := Answers.transfer w q .ok t
    rwa [ht] at this

theorem Run.trans {ok : System → Move → Prop} {s s' s'' : System} (h : Run ok s s')
    (h' : Run ok s' s'') : Run ok s s'' := by
  induction h' with
  | nil => exact h
  | step _ hok hstep ih => exact .step ih hok hstep

variable {ok : System → Move → Prop}

theorem Run.happens (ms : List Move) (hok : ∀ s, ∀ m ∈ ms, ok s m) (s : System) :
    Run ok s { s with world := ms.foldl Sdk.happens s.world } := by
  induction ms generalizing s with
  | nil => exact .nil s
  | cons m ms ih =>
    have hfirst : Run ok s { s with world := Sdk.happens s.world m } :=
      .step (.nil s) (hok s m List.mem_cons_self) (.happens m)
    exact hfirst.trans (ih (fun s m hm => hok s m (List.mem_cons_of_mem _ hm)) _)

/-- A call goes on while a stick serves. -/
theorem Serves.run {w : World} {i : Nat} (h : Serves w i) (hok : ∀ s, ok s .answered) (a : App)
    (c : Made) {α : Type} (p : Call α) (f : α → Call (Out × App)) :
    Run ok (.go w a c (p >>= f)) (.go w a c (f (p.eval (served w i)))) := by
  induction p with
  | ret x => exact .nil _
  | call e k ih =>
    have hfirst : Run ok (.go w a c (.call e fun r => k r >>= f))
        (.go w a c (k (served w i e) >>= f)) :=
      .step (.nil _) (hok _)
        (.answered (s := .go w a c (.call e fun r => k r >>= f)) rfl (h.answers e))
    exact hfirst.trans (ih _)

/-- What is transferred on the way. -/
def transfers {α : Type} : Io α → List Req
  | .ret _ => []
  | .call q k =>
      (if (textStick.disk.answer q).isSome then [q] else [])
        ++ transfers (k (textStick.disk.answer q))

theorem eval_onSystem (w : World) (i : Nat) {α : Type} (p : Io α) (log : Log) :
    (onSystem p log).eval (served w i)
      = (onDisk textStick.disk p, log ++ (transfers p).map fun q => (q, i)) := by
  induction p generalizing log with
  | ret x => simp [onSystem, transfers]
  | call q k ih =>
    rw [onSystem, transfers]
    simp only [Prog.eval, served, Ans.toSectors]
    cases hq : textStick.disk.answer q with
    | none => simp [ih, onDisk, Prog.eval, hq]
    | some bytes => simp [ih, onDisk, Prog.eval, hq]

/-- A stick that was in at power-on, and the host's first use of it. -/
def textBoot : System :=
  { world :=
      { bus :=
          { present := some 0, up := some 0, count := 1, content := fun _ => textStick.sector }
        started := fun _ => some 0 } }

def firstUse : List Move := [.own .ok .done (.read 0 1), .poll true 0 (.failed none)]

/-- The stick is taken out and put in again; the host starts it once it has
settled. -/
def swap : List Move :=
  [.removed, .poll false 0 (.failed none), .inserted textStick.sector,
    .poll true 0 (.failed none), .poll true 801 .ok]

def textWorld : World := firstUse.foldl happens textBoot.world

def swappedWorld : World := swap.foldl happens textWorld

theorem textWorld_serves : Serves textWorld 0 := ⟨rfl, rfl, rfl, rfl, rfl⟩

theorem swappedWorld_serves : Serves swappedWorld 1 := by
  refine ⟨?_, ?_, ?_⟩
  · decide +kernel
  · rfl
  · decide +kernel

theorem textBoot_boot : textBoot.Boot := ⟨rfl, rfl, rfl, rfl, rfl⟩

/-- Opening the file "B". -/
def openText (turns : Nat) : Made := .open turns [0x42] { name := fun _ => 0 }

/-- The rest of `sdk_open` once the app has its mount. -/
theorem openText_opened : ∃ turns, ∃ f : Bool × App → Call (Out × App),
    (openText turns).call {} = mount {} >>= f
      ∧ ∀ (w : World) (i : Nat) (a : App), a.fs = textVolume.mounted {} →
        a.streams = .replicate maxStreams {} →
        ∃ a' st, (f (true, a)).eval (served w i) = (.opened (some 0), a')
          ∧ a'.streams[0]? = some st ∧ st.gen = a.mountedGen ∧ ∀ x ∈ a.log, x ∈ st.log := by
  obtain ⟨turns, fs, hopen⟩ := Usbfat.Volume.text_ufsOpen
  refine ⟨turns, _, rfl, fun w i a hfs hst => ?_⟩
  have hslot : a.streams.findIdx? (fun s => !s.used) = some 0 := by
    rw [hst]
    rfl
  simp only [Bool.not_true, Bool.false_eq_true, if_false, hslot, Prog.eval_bind, eval_onSystem, hfs,
    hopen, Prog.pure_eq, Prog.eval_ret]
  have hlt : 0 < a.streams.length := by
    rw [hst]
    decide
  exact ⟨_, _, rfl, List.getElem?_set_self hlt, rfl, fun x hx => List.mem_append_left _ hx⟩

/-- The app after the mount. -/
def textApp (log : Log) (gen : Nat) : App :=
  { mounted := true, mountedGen := gen, fs := textVolume.mounted {}, log }

/-- A first `sdk_open`, while something happens to the stick right after the
mount's transfers. -/
theorem openText_run (ms : List Move) {i : Nat} (hi : Serves (ms.foldl happens textWorld) i)
    (hok : ∀ s, ∀ m, m ∈ firstUse ∨ m ∈ ms ∨ m = .answered ∨ (∃ c, m = .made c) → ok s m) :
    ∃ s turns st, Run ok textBoot s ∧ s.world = ms.foldl happens textWorld
      ∧ s.returned = some (openText turns, .opened (some 0)) ∧ s.app.streams[0]? = some st
      ∧ st.gen = s.world.host.storageGen ∧ (Req.read 0 1, 0) ∈ st.log := by
  obtain ⟨turns, f, hf, hopened⟩ := openText_opened
  have hanswered : ∀ s, ok s .answered := fun s => hok s _ (.inr (.inr (.inl rfl)))
  have hfirst : Run ok textBoot { textBoot with world := textWorld } :=
    .happens firstUse (fun s m hm => hok s m (.inl hm)) textBoot
  have hmade : Run ok textBoot
      (.go textWorld {} (openText turns) ((openText turns).call {})) :=
    .step hfirst (hok _ _ (.inr (.inr (.inr ⟨_, rfl⟩)))) (.made (openText turns) rfl)
  have hmount : mount {} = appPresent >>= fun b => if !b then pure (false, {}) else mountAnew {} :=
    rfl
  rw [hf, hmount, bind_assoc] at hmade
  have hpresent : Run ok textBoot (.go textWorld {} (openText turns) (mountAnew {} >>= f)) :=
    hmade.trans (textWorld_serves.run hanswered {} (openText turns) appPresent _)
  obtain ⟨log, hlog⟩ : ∃ log : Log, log = (transfers (ufsMount {})).map fun q => (q, 0) :=
    ⟨_, rfl⟩
  have hread : Run ok textBoot (.go textWorld {} (openText turns)
      (storageGen >>= fun g => f (true, textApp log g))) := by
    unfold mountAnew at hpresent
    rw [bind_assoc] at hpresent
    have hread := hpresent.trans (textWorld_serves.run hanswered _ _ _ _)
    rw [eval_onSystem, Usbfat.Volume.text_mount _ rfl] at hread
    rw [hlog]
    exact hread
  have hswap : Run ok textBoot (.go (ms.foldl happens textWorld) {} (openText turns)
      (storageGen >>= fun g => f (true, textApp log g))) :=
    hread.trans (.happens ms (fun s m hm => hok s m (.inr (.inl hm))) _)
  obtain ⟨g, hgen⟩ : ∃ g, g = (ms.foldl happens textWorld).host.storageGen := ⟨_, rfl⟩
  have hnow : Run ok textBoot (.go (ms.foldl happens textWorld) {} (openText turns)
      (f (true, textApp log g) >>= pure)) := by
    rw [bind_pure, hgen]
    exact hswap.trans (hi.run hanswered {} (openText turns) storageGen _)
  obtain ⟨a', st, heval, hst, hg, hmem⟩ :=
    hopened (ms.foldl happens textWorld) i (textApp log g) rfl rfl
  have hend := hnow.trans (hi.run hanswered {} (openText turns) _ pure)
  rw [heval] at hend
  refine ⟨_, turns, st, hend, rfl, rfl, hst, hg.trans hgen, hmem _ ?_⟩
  show _ ∈ log
  rw [hlog]
  exact List.mem_cons_self

theorem undisturbed_of_ne {s : System} {m : Move} (h : ∀ now timer, m ≠ .poll now timer .ok) :
    undisturbed s m := fun now timer hm => absurd hm (h now timer)

/-- Without a swap the handle is the stick's. -/
theorem hotswap_safe_open : ∃ s turns, Run undisturbed textBoot s
    ∧ s.returned = some (openText turns, .opened (some 0)) ∧ s.Faithful := by
  have hok : ∀ (s : System) (m : Move), m ∈ firstUse ∨ m ∈ [] ∨ m = .answered
      ∨ (∃ c, m = .made c) → undisturbed s m := by
    rintro s m (hm | hm | rfl | ⟨c, rfl⟩)
    · refine undisturbed_of_ne fun now timer => ?_
      rintro rfl
      simp [firstUse] at hm
    · exact absurd hm List.not_mem_nil
    · exact undisturbed_of_ne nofun
    · exact undisturbed_of_ne nofun
  obtain ⟨s, turns, st, hrun, -, hret, -⟩ := openText_run [] textWorld_serves hok
  exact ⟨s, turns, hrun, hret, hotswap_safe textBoot_boot hrun⟩

/-- The stick is taken out and put in again during `mount`: the handle records
the new generation, but where its folders are was read from the stick before. -/
theorem hotswap_unsafe : ¬∀ s s' : System, s.Boot → Run (fun _ _ => True) s s' → s'.Faithful := by
  intro h
  obtain ⟨s, turns, st, hrun, hw, hret, hst, hgen, hmem⟩ :=
    openText_run swap swappedWorld_serves fun _ _ _ => trivial
  obtain ⟨st', hst', hfrom⟩ := h textBoot s textBoot_boot hrun _ _ hret
  obtain rfl : st = st' := Option.some.inj (hst.symm.trans hst')
  have hfrom := hfrom _ hmem
  rw [hgen, hw] at hfrom
  exact absurd hfrom (by decide +kernel)

end Ncmips.Sdk
