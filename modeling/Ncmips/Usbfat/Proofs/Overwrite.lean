/-
The only write is contained.

Looking a path up only reads (`lookup_reads`), so what a run of
`ufs_overwrite` writes is what the few lines after it write.
-/
import Ncmips.Usbfat.Overwrite
import Ncmips.Usbfat.Proofs.Read

namespace Ncmips.Usbfat

-- ============================================================ reading only

def Req.IsRead : Req → Prop
  | .read .. => True
  | .write .. => False

/-- All transfers of the program are reads. -/
def ReadOnly {α : Type} (p : Io α) : Prop := p.Every fun e _ => e.IsRead

theorem readOnly_pure {α : Type} (a : α) : ReadOnly (pure a : Io α) := trivial

theorem ReadOnly.bind {α β : Type} {p : Io α} {f : α → Io β} (hp : ReadOnly p)
    (hf : ∀ a, ReadOnly (f a)) : ReadOnly (p >>= f) :=
  Prog.every_bind (Q := Req.IsRead) (fun _ _ h => h) hp hf

theorem sectors_reads (s : Fs) (start count : Nat) : ReadOnly (ufsSectors s start count) := by
  unfold ufsSectors
  split
  · exact readOnly_pure _
  · refine ReadOnly.bind (Prog.every_ask trivial) fun r => ?_
    cases r with
    | none => exact readOnly_pure _
    | some data => exact readOnly_pure _

theorem fatNext_reads (s : Fs) (c : Nat) : ReadOnly (ufsFatNext s c) := by
  unfold ufsFatNext
  dsimp only
  split
  · refine (sectors_reads _ _ _).bind fun r => ?_
    obtain ⟨data, s'⟩ := r
    cases data with
    | none => exact readOnly_pure _
    | some data => exact readOnly_pure _
  · exact readOnly_pure _

theorem dirLoad_reads (d : Udir) (s : Fs) (sec n : Nat) : ReadOnly (dirLoad d s sec n) := by
  unfold dirLoad
  dsimp only
  refine (sectors_reads _ _ _).bind fun r => ?_
  obtain ⟨data, s'⟩ := r
  cases data with
  | none => exact readOnly_pure _
  | some data => exact readOnly_pure _

theorem dirRaw_reads (d : Udir) (s : Fs) : ReadOnly (ufsDirRaw d s) := by
  have hcluster (d : Udir) (s : Fs) : ReadOnly
      (if ufsEoc d.clus then pure (none, { d with done := true }, s)
        else dirLoad d s (u32 (ufsClusSector s.geo d.clus + d.secIdx)) (s.geo.spc - d.secIdx)) := by
    split
    · exact readOnly_pure _
    · exact dirLoad_reads _ _ _ _
  unfold ufsDirRaw
  split
  · exact readOnly_pure _
  · split
    · split
      · split
        · exact readOnly_pure _
        · exact dirLoad_reads _ _ _ _
      · dsimp only
        split
        · refine (fatNext_reads _ _).bind fun r => (readOnly_pure _).bind fun r => ?_
          exact hcluster r.1 r.2
        · exact (readOnly_pure _).bind fun r => hcluster r.1 r.2
    · exact readOnly_pure _

theorem readdir_reads (turns : Nat) (d : Udir) (e : Udirent) (lfnOk : Bool) (s : Fs) :
    ReadOnly (readdirLoop turns d e lfnOk s) := by
  induction turns generalizing d e lfnOk s with
  | zero => exact readOnly_pure _
  | succ turns ih =>
      unfold readdirLoop
      refine (dirRaw_reads d s).bind fun r => ?_
      obtain ⟨raw, d', s'⟩ := r
      cases raw with
      | none => exact readOnly_pure _
      | some raw =>
          dsimp only
          cases dirTurn s'.geo.fat32 raw e lfnOk with
          | stop => exact readOnly_pure _
          | skip e' lfnOk' => exact ih d' e' lfnOk' s'
          | entry e' => exact readOnly_pure _

theorem findLoop_reads (turns : Nat) (path : List UInt8) (len calls : Nat) (d : Udir) (e : Udirent)
    (s : Fs) : ReadOnly (findLoop turns path len calls d e s) := by
  induction calls generalizing d e s with
  | zero => exact readOnly_pure _
  | succ calls ih =>
      unfold findLoop
      refine (readdir_reads turns d e false s).bind fun r => ?_
      cases r with
      | none => exact readOnly_pure _
      | some r =>
          dsimp only
          split
          · split
            · exact readOnly_pure _
            · exact ih _ _ _
          · exact readOnly_pure _

theorem walkLoop_reads (turns : Nat) (full path : List UInt8) (clus : Nat) (e : Udirent) (s : Fs) :
    ReadOnly (walkLoop turns full path clus e s) := by
  induction hn : path.length using Nat.strong_induction_on generalizing path clus e s with
  | _ n ih =>
      subst hn
      unfold walkLoop
      cases path with
      | nil => exact readOnly_pure _
      | cons b bs =>
          dsimp only
          split
          · exact readOnly_pure _
          · refine (findLoop_reads _ _ _ _ _ _ _).bind fun r => ?_
            cases r with
            | none => exact readOnly_pure _
            | some r =>
                dsimp only
                split
                · exact readOnly_pure _
                · exact ih _ (next_component_lt b bs) _ _ _ _ rfl

/-- A lookup only reads. -/
theorem lookup_reads (turns : Nat) (path : List UInt8) (e : Udirent) (s : Fs) :
    ReadOnly (ufsLookup turns path e s) := by
  unfold ufsLookup
  dsimp only
  split
  · exact walkLoop_reads _ _ _ _ _ _
  · exact walkLoop_reads _ _ _ _ _ _

-- ============================================================== what is tried

/-- From one drive to another with nothing written. -/
def Untouched (d d' : Drive) : Prop :=
  d'.stick = d.stick ∧ ∃ evs, d'.past = d.past ++ evs ∧ ∀ ev ∈ evs, ev.isWrite = false

theorem Untouched.refl (d : Drive) : Untouched d d :=
  ⟨rfl, [], (List.append_nil _).symm, fun _ h => nomatch h⟩

theorem Untouched.trans {d d' d'' : Drive} (h : Untouched d d') (h' : Untouched d' d'') :
    Untouched d d'' := by
  obtain ⟨hstick, evs, hpast, hevs⟩ := h
  obtain ⟨hstick', evs', hpast', hevs'⟩ := h'
  refine ⟨hstick'.trans hstick, evs ++ evs', ?_, fun ev hev => ?_⟩
  · rw [hpast', hpast, List.append_assoc]
  · rcases List.mem_append.mp hev with hev | hev
    · exact hevs ev hev
    · exact hevs' ev hev

theorem ReadOnly.untouched {α : Type} {p : Io α} (hp : ReadOnly p) {d d' : Drive} {a : α}
    (h : Runs d p d' a) : Untouched d d' := by
  refine h.keeps (P := fun (e : Req) _ => e.IsRead) (I := Untouched d) ?_ hp (.refl d)
  intro s s' e k r hread hnext hs
  refine hs.trans ?_
  cases hnext with
  | read => exact ⟨rfl, _, rfl, fun ev hev => by rw [List.mem_singleton.mp hev]; rfl⟩
  | readFailed => exact ⟨rfl, _, rfl, fun ev hev => by rw [List.mem_singleton.mp hev]; rfl⟩
  | write => exact hread.elim
  | writeFailed => exact hread.elim

/-- A sector that is read is what the stick holds, and the event is the
last. -/
theorem sectors_run {d d' : Drive} {s s' : Fs} {start count : Nat} {data : List UInt8}
    (h : Runs d (ufsSectors s start count) d' (some data, s')) :
    data = d.stick.read start count
      ∧ d' = { d with past := d.past ++ [.read start count (some data)] } := by
  unfold ufsSectors at h
  split at h
  · exact nomatch congrArg Prod.fst (Prog.ends_pure.mp h).2
  · obtain ⟨d₁, r, hread, hrest⟩ := Prog.ends_bind.mp h
    cases Prog.ends_ask.mp hread with
    | readFailed => exact nomatch congrArg Prod.fst (Prog.ends_pure.mp hrest).2
    | read =>
        obtain ⟨rfl, heq⟩ := Prog.ends_pure.mp hrest
        rw [Prod.mk.injEq, Option.some.injEq] at heq
        obtain ⟨rfl, -⟩ := heq
        exact ⟨rfl, rfl⟩

@[simp] theorem Stick.put_same (st : Stick) (sec : Nat) (data : List UInt8)
    (h : data.length = ufsSector) : (st.put sec data h).sector sec = data := by
  unfold Stick.put
  exact if_pos rfl

/-- A write that was tried. -/
theorem write_run {d d' : Drive} {sec : Nat} {data : List UInt8} {ok : Bool}
    (h : Runs d (ufsWriteSector sec data) d' ok) :
    d'.past = d.past ++ [.write sec data ok] ∧ (∀ i ≠ sec, d'.stick.sector i = d.stick.sector i)
      ∧ (ok = true → d'.stick.sector sec = data) := by
  unfold ufsWriteSector at h
  obtain ⟨d₁, r, hwrite, hrest⟩ := Prog.ends_bind.mp h
  obtain ⟨rfl, rfl⟩ := Prog.ends_pure.mp hrest
  cases Prog.ends_ask.mp hwrite with
  | write => exact ⟨rfl, fun i hi => if_neg hi, fun _ => if_pos rfl⟩
  | writeFailed => exact ⟨rfl, fun i hi => if_neg hi, fun h => nomatch h⟩

theorem beginsWith_full {a b : List UInt8} (hlen : a.length = b.length) (h : beginsWith a b = true) :
    a = b := by
  have htake := of_decide_eq_true h
  rwa [List.take_of_length_le (by omega)] at htake

-- ================================================================ the write

/-- A run that tried to write: once, the sector read just before and the
data beginning with the magic, and nothing else is another. -/
structure Contained (d d' : Drive) (sec : Nat) (data magic : List UInt8) : Prop where
  past : ∃ pre post ok, d'.past = d.past ++ pre
      ++ [.read sec 1 (some (d.stick.sector sec)), .write sec data ok] ++ post
    ∧ ∀ ev ∈ pre ++ post, ev.isWrite = false
  held : beginsWith (d.stick.sector sec) magic = true
  new : beginsWith data magic = true
  others : ∀ i ≠ sec, d'.stick.sector i = d.stick.sector i

/-- The lines that write and read back. -/
theorem write_contained {sec : Nat} {data magic : List UInt8} {fs : Fs} {d d₁ d₂ d' : Drive}
    {res : Option (Bool × Fs)} (hlen : data.length = ufsSector) (hpre : Untouched d d₁)
    (hd₂ : d₂ = { d₁ with past := d₁.past ++ [.read sec 1 (some (d₁.stick.sector sec))] })
    (hheld : beginsWith (d₁.stick.sector sec) magic = true) (hnew : beginsWith data magic = true)
    (h : Runs d₂ (do
      let wrote ← ufsWriteSector sec data
      if !wrote then pure (some (false, fs))
      else do
        match ← ufsSectors fs sec 1 with
        | (none, fs) => pure (some (false, fs))
        | (some now, fs) => pure (some (beginsWith now data, fs))) d' res) :
    Contained d d' sec data magic
      ∧ ∀ fs', res = some (true, fs') → d'.stick.sector sec = data := by
  obtain ⟨hstick, evs, hpast, hevs⟩ := hpre
  obtain ⟨d₃, wrote, hwrite, hrest⟩ := Prog.ends_bind.mp h
  obtain ⟨hpast₃, hothers, -⟩ := write_run hwrite
  subst hd₂
  -- the rest reads at most
  have hcontained (hmore : Untouched d₃ d') : Contained d d' sec data magic := by
    obtain ⟨hstick', evs', hpast', hevs'⟩ := hmore
    refine ⟨⟨evs, evs', wrote, ?_, fun ev hev => ?_⟩, ?_, hnew, fun i hi => ?_⟩
    · rw [hpast', hpast₃, hpast, hstick]
      simp only [List.append_assoc, List.cons_append, List.nil_append]
    · rcases List.mem_append.mp hev with hev | hev
      · exact hevs ev hev
      · exact hevs' ev hev
    · rwa [← hstick]
    · rw [hstick', hothers i hi, hstick]
  cases wrote with
  | false =>
      obtain ⟨rfl, rfl⟩ := Prog.ends_pure.mp hrest
      exact ⟨hcontained (.refl d'), fun fs' h => nomatch h⟩
  | true =>
      obtain ⟨d₄, ⟨data', fs₁⟩, hread, hend⟩ := Prog.ends_bind.mp hrest
      have hmore := (sectors_reads _ _ _).untouched hread
      cases data' with
      | none =>
          obtain ⟨rfl, rfl⟩ := Prog.ends_pure.mp hend
          exact ⟨hcontained hmore, fun fs' h => nomatch h⟩
      | some now =>
          obtain ⟨rfl, rfl⟩ := Prog.ends_pure.mp hend
          refine ⟨hcontained hmore, fun fs' h => ?_⟩
          simp only [Option.some.injEq, Prod.mk.injEq] at h
          obtain ⟨rfl, -⟩ := sectors_run hread
          rw [Stick.read_one] at h
          rw [hmore.1]
          exact beginsWith_full (by rw [d₃.stick.length, hlen]) h.1

/-- Whatever the stick holds and however each transfer goes: a run writes
nothing and does not return 0, or it tries one write, to the first sector
of the file that the path led to, a file of one sector; and when it
returns 0 that sector holds the data. -/
theorem overwrite_contained {writer : Bool} {turns : Nat} {path data magic : List UInt8}
    {e : Udirent} {fs : Fs} {d d' : Drive} {res : Option (Bool × Fs)} (hlen : data.length = ufsSector)
    (hrun : Runs d (ufsOverwrite writer turns path data magic e fs) d' res) :
    (Untouched d d' ∧ ∀ fs', res ≠ some (true, fs'))
      ∨ ∃ r d₁, Runs d (ufsLookup turns path e fs) d₁ (some r) ∧ r.ok = true ∧ r.e.isDir = false
        ∧ r.e.size = ufsSector ∧ ufsEoc r.e.first = false
        ∧ Contained d d' (ufsClusSector r.s.geo r.e.first) data magic
        ∧ ∀ fs', res = some (true, fs')
          → d'.stick.sector (ufsClusSector r.s.geo r.e.first) = data := by
  obtain ⟨d₁, look, hlook, hrest⟩ := Prog.ends_bind.mp hrun
  have hpre := (lookup_reads _ _ _ _).untouched hlook
  -- a return before the write
  have hstop {d₂ : Drive} (h : Untouched d₁ d₂) {fs₂ : Fs}
      (hend : Runs d₂ (pure (some (false, fs₂))) d' res) :
      Untouched d d' ∧ ∀ fs', res ≠ some (true, fs') := by
    obtain ⟨rfl, rfl⟩ := Prog.ends_pure.mp hend
    exact ⟨hpre.trans h, fun fs' h => nomatch h⟩
  cases look with
  | none =>
      obtain ⟨rfl, rfl⟩ := Prog.ends_pure.mp hrest
      exact .inl ⟨hpre, fun fs' h => nomatch h⟩
  | some r =>
      dsimp only at hrest
      split at hrest
      · exact .inl (hstop (.refl d₁) hrest)
      · next hfile =>
        split at hrest
        · exact .inl (hstop (.refl d₁) hrest)
        · next hsector =>
          split at hrest
          · exact .inl (hstop (.refl d₁) hrest)
          · next hnew =>
            split at hrest
            · exact .inl (hstop (.refl d₁) hrest)
            · obtain ⟨d₂, ⟨old, fs₂⟩, hread, hend⟩ := Prog.ends_bind.mp hrest
              have huntouched := (sectors_reads _ _ _).untouched hread
              cases old with
              | none => exact .inl (hstop huntouched hend)
              | some old =>
                  dsimp only at hend
                  split at hend
                  · exact .inl (hstop huntouched hend)
                  · next hheld =>
                    obtain ⟨rfl, hd₂⟩ := sectors_run hread
                    rw [Stick.read_one] at hheld hd₂
                    simp only [Bool.not_eq_true', Bool.not_eq_false] at hheld hnew
                    simp only [not_or, ne_eq, not_not, Bool.not_eq_true', Bool.not_eq_false,
                      Bool.not_eq_true] at hfile hsector
                    obtain ⟨hcontained, hdata⟩ := write_contained hlen hpre hd₂ hheld hnew hend
                    exact .inr ⟨r, d₁, hlook, hfile.1, hfile.2, hsector.1, hsector.2, hcontained,
                      hdata⟩

-- ============================================================ settings saved

/-- On a stick without failures a program that reads comes to its result. -/
theorem ReadOnly.runs {α : Type} {p : Io α} (hp : ReadOnly p) (d : Drive) :
    ∃ past, Runs d p { d with past } (onDisk d.stick.disk p) := by
  induction p generalizing d with
  | ret a => exact ⟨d.past, .ret d a⟩
  | call e k ih =>
      obtain ⟨hread, hrest⟩ := hp
      cases e with
      | write => exact hread.elim
      | read start count =>
          obtain ⟨past, hrun⟩ := ih (some (d.stick.read start count)) (hrest _)
            { d with past := d.past ++ [.read start count (some (d.stick.read start count))] }
          exact ⟨past, .call (.read start count) hrun⟩

/-- A file "S" of one sector, in cluster 2. -/
def settingsEntry : List UInt8 :=
  [0x53] ++ .replicate 10 0x20 ++ [0x20] ++ .replicate 14 0 ++ [2, 0] ++ [0, 2, 0, 0]

/-- What it holds, and what is to be there. -/
def settingsText (b : UInt8) : List UInt8 := [0x23, b] ++ .replicate 510 0

def settingsSector (i : Nat) : List UInt8 :=
  if i = 33 then sectorOf [settingsEntry]
  else if i = 34 then settingsText 0x30
  else .replicate 512 0

def settingsStick : Stick where
  sector := settingsSector
  length := by
    intro i
    unfold settingsSector
    split_ifs
    · decide +kernel
    · decide +kernel
    · exact List.length_replicate

theorem settings_root : rawStep settingsStick.disk Volume.textGeo { clus := 0 }
    = .more ((sectorOf [settingsEntry]).take 32)
        { clus := 0, secIdx := 1, ent := 1, nent := 16, buf := sectorOf [settingsEntry] } := by
  have hread : settingsStick.disk 33 1 = some (sectorOf [settingsEntry]) :=
    congrArg some (settingsStick.read_one 33)
  have hload : rawStep settingsStick.disk Volume.textGeo { clus := 0 }
      = rawLoad settingsStick.disk { clus := 0 } 33 1 := rfl
  rw [hload]
  unfold rawLoad
  simp only [dirSectors, gt_iff_lt, Nat.not_lt.mpr (by decide : 1 ≤ 16), if_false, hread]
  rfl

theorem turn_settings (e : Udirent) : dirTurn false settingsEntry e false
    = .entry { name := putName e.name 0 [0x53, 0], attr := 0x20, size := 512, first := 2 } := rfl

theorem settings_finds (e : Udirent) :
    Finds settingsStick.disk Volume.textGeo [0x53] { clus := 0 } e false
      { found := true, lost := false
        e := { name := putName e.name 0 [0x53, 0], attr := 0x20, size := 512, first := 2 } } := by
  refine .found settings_root (turn_settings e) ?_
  rw [nameEq_iff]
  refine ⟨fun i hi => ?_, rfl⟩
  obtain rfl : i = 0 := by simpa using hi
  exact ⟨(by decide : (0x53 : UInt8) ≠ 0), rfl⟩

theorem settings_lookup : ∃ n r, onDisk settingsStick.disk
    (ufsLookup n [0x53] { name := fun _ => 0 } { geo := Volume.textGeo }) = some r
      ∧ r.ok = true ∧ r.e.isDir = false ∧ r.e.size = 512 ∧ r.e.first = 2 ∧ r.s.geo = Volume.textGeo
      ∧ r.s.lost = false := by
  have hsees : ({ geo := Volume.textGeo } : Fs).Sees settingsStick.disk :=
    ⟨rfl, fun h => absurd rfl h⟩
  obtain ⟨n, hn⟩ := @findLoop_of_finds _ [0x53] 1 _ _ _ _
    (settings_finds (startEntry { name := fun _ => 0 } 0)) Volume.textGeo_sound (le_refl 1)
  obtain ⟨d, s, hloop, hafter⟩ := hn n (le_refl n) { geo := Volume.textGeo } hsees rfl
  have hwalk := @walkLoop_single _ n [0x53] 0x53 [] (by decide) 0 _ rfl _ _ hloop rfl
  exact ⟨n, _, hwalk, rfl, rfl, rfl, rfl, hafter.geo, hafter.lost_eq⟩

theorem sectors_runs (d : Drive) {fs : Fs} (h : fs.lost = false) (sec : Nat) :
    Runs d (ufsSectors fs sec 1)
      { d with past := d.past ++ [.read sec 1 (some (d.stick.read sec 1))] }
      (some (d.stick.read sec 1), fs) := by
  unfold ufsSectors
  rw [h]
  exact .call (.read sec 1) (.ret _ _)

theorem write_runs (d : Drive) (sec : Nat) {data : List UInt8} (h : data.length = ufsSector) :
    Runs d (ufsWriteSector sec data)
      { stick := d.stick.put sec data h, past := d.past ++ [.write sec data true] } true :=
  .call (.write sec data h) (.ret _ _)

/-- The settings are replaced. -/
theorem overwrite_contained_settings : ∃ turns d d' fs',
    Runs d (ufsOverwrite true turns [0x53] (settingsText 0x31) [0x23] { name := fun _ => 0 }
        { geo := Volume.textGeo }) d' (some (true, fs'))
      ∧ d.stick = settingsStick
      ∧ ∃ r d₁, Runs d (ufsLookup turns [0x53] { name := fun _ => 0 } { geo := Volume.textGeo }) d₁
          (some r)
        ∧ Contained d d' (ufsClusSector r.s.geo r.e.first) (settingsText 0x31) [0x23]
        ∧ d'.stick.sector (ufsClusSector r.s.geo r.e.first) = settingsText 0x31 := by
  obtain ⟨n, r, hlook, hok, hdir, hsize, hfirst, hgeo, hthere⟩ := settings_lookup
  have hlen : (settingsText 0x31).length = ufsSector := by decide +kernel
  obtain ⟨past, hrun⟩ := (lookup_reads n [0x53] { name := fun _ => 0 }
    { geo := Volume.textGeo }).runs { stick := settingsStick }
  rw [hlook] at hrun
  have hsec : ufsClusSector r.s.geo r.e.first = 34 := by rw [hgeo, hfirst]; decide
  have hold : beginsWith (settingsStick.read 34 1) [0x23] = true := by
    rw [Stick.read_one]
    decide +kernel
  have hnew : beginsWith (settingsText 0x31) [0x23] = true := by decide +kernel
  have hnow : beginsWith ((settingsStick.put 34 (settingsText 0x31) hlen).read 34 1)
      (settingsText 0x31) = true := by
    rw [Stick.read_one, Stick.put_same]
    decide +kernel
  have hall : ∃ d', Runs { stick := settingsStick } (ufsOverwrite true n [0x53] (settingsText 0x31)
      [0x23] { name := fun _ => 0 } { geo := Volume.textGeo }) d' (some (true, r.s)) := by
    apply Exists.intro
    apply Prog.Ends.bind hrun
    dsimp only
    rw [if_neg (by simp [hok, hdir]), if_neg (by rw [hsize, hfirst]; decide),
      if_neg (by rw [hnew]; decide), if_neg (by decide), hsec]
    apply Prog.Ends.bind (sectors_runs _ hthere 34)
    dsimp only
    rw [if_neg (by rw [hold]; decide)]
    apply Prog.Ends.bind (write_runs _ 34 hlen)
    rw [if_neg (by decide)]
    apply Prog.Ends.bind (sectors_runs _ hthere 34)
    dsimp only
    rw [hnow]
    exact .ret _ _
  obtain ⟨d', hall⟩ := hall
  rcases overwrite_contained hlen hall with ⟨-, hno⟩ | ⟨r', d₁, hlook', -, -, -, -, hcont, hdata⟩
  · exact absurd rfl (hno r.s)
  · exact ⟨n, _, d', r.s, hall, rfl, r', d₁, hlook', hcont, hdata r.s rfl⟩

end Ncmips.Usbfat
