/-
The list of a scan.

Names are told apart as C strings, so this is about names without a NUL:
then what is shown is what was received, and each frame either adds an
entry, or raises its name's, or finds the list full (`Lists`).
-/
import Mathlib.Data.List.Induction
import Mathlib.Data.List.TakeWhile
import Ncmips.Net.Scan

namespace Ncmips.Net

-- ================================================================= one frame

theorem shown_of_clean {e : NetAp} (h : (0 : UInt8) ∉ e.ssid) : e.shown = e.ssid := by
  unfold NetAp.shown
  rw [List.takeWhile_eq_self_iff]
  intro c hc
  rw [decide_eq_true_eq]
  rintro rfl
  exact h hc

theorem raiseEntry_none {x : Found} {es : List NetAp} (h : raiseEntry x es = none) :
    ∀ e ∈ es, e.shown ≠ x.name := by
  induction es with
  | nil => exact nofun
  | cons e es ih =>
      unfold raiseEntry at h
      split_ifs at h with hname
      intro e' he'
      rcases List.mem_cons.mp he' with rfl | he'
      · exact hname
      · exact ih (Option.map_eq_none_iff.mp h) e' he'

/-- One entry with the name is raised, and the others are as before. -/
theorem raiseEntry_some {x : Found} {es es' : List NetAp} (h : raiseEntry x es = some es') :
    ∃ front e back, es = front ++ e :: back ∧ e.shown = x.name
      ∧ es' = front ++ (if x.rssi > e.rssi then { e with rssi := x.rssi, channel := x.ch } else e)
        :: back := by
  induction es generalizing es' with
  | nil => exact nomatch h
  | cons e es ih =>
      unfold raiseEntry at h
      split_ifs at h with hname hrssi
      · cases h
        refine ⟨[], e, es, rfl, hname, ?_⟩
        rw [if_pos hrssi]
        rfl
      · cases h
        refine ⟨[], e, es, rfl, hname, ?_⟩
        rw [if_neg hrssi]
        rfl
      · obtain ⟨es'', hes, rfl⟩ := Option.map_eq_some_iff.mp h
        obtain ⟨front, e', back, rfl, hname', rfl⟩ := ih hes
        exact ⟨e :: front, e', back, rfl, hname', rfl⟩

/-- The list after these names were received. -/
structure Lists (max : Nat) (found : List Found) (es : List NetAp) : Prop where
  length : es.length ≤ max
  names : (es.map (·.ssid)).Nodup
  clean : ∀ e ∈ es, (0 : UInt8) ∉ e.ssid
  strongest : ∀ e ∈ es, (∃ x ∈ found, x.name = e.ssid ∧ x.rssi = e.rssi ∧ x.ch = e.channel)
    ∧ ∀ x ∈ found, x.name = e.ssid → x.rssi ≤ e.rssi
  every : ∀ x ∈ found, (∃ e ∈ es, e.ssid = x.name) ∨ es.length = max

theorem lists_nil (max : Nat) : Lists max [] [] :=
  ⟨Nat.zero_le _, .nil, nofun, nofun, nofun⟩

/-- The names that are listed stay, in their order. -/
theorem scanFound_names {max : Nat} {es : List NetAp} (hclean : ∀ e ∈ es, (0 : UInt8) ∉ e.ssid)
    (x : Found) :
    (x.name ∈ es.map (·.ssid) ∧ (scanFound max es x).map (·.ssid) = es.map (·.ssid))
      ∨ (es.length < max ∧ (scanFound max es x).map (·.ssid) = es.map (·.ssid) ++ [x.name])
      ∨ (max ≤ es.length ∧ scanFound max es x = es) := by
  unfold scanFound
  cases hraise : raiseEntry x es with
  | some es' =>
      obtain ⟨front, e, back, rfl, hname, rfl⟩ := raiseEntry_some hraise
      have hmem : e ∈ front ++ e :: back := List.mem_append_right _ List.mem_cons_self
      rw [shown_of_clean (hclean e hmem)] at hname
      refine .inl ⟨hname ▸ List.mem_map_of_mem hmem, ?_⟩
      dsimp only
      rw [List.map_append, List.map_append, List.map_cons, List.map_cons]
      split_ifs <;> rfl
  | none =>
      dsimp only
      split_ifs with hroom
      · exact .inr (.inl ⟨hroom, by rw [List.map_append]; rfl⟩)
      · exact .inr (.inr ⟨Nat.le_of_not_lt hroom, rfl⟩)

theorem Lists.step {max : Nat} {found : List Found} {es : List NetAp} (h : Lists max found es)
    {x : Found} (hx : (0 : UInt8) ∉ x.name) : Lists max (found ++ [x]) (scanFound max es x) := by
  have hevery : ∀ y ∈ found ++ [x], (∃ e ∈ scanFound max es x, e.ssid = y.name)
      ∨ (scanFound max es x).length = max := by
    intro y hy
    have hlen : (scanFound max es x).length = ((scanFound max es x).map (·.ssid)).length :=
      (List.length_map _).symm
    rw [← List.mem_map]
    rcases @scanFound_names max es h.clean x with ⟨hname, hsame⟩ | ⟨hroom, hnew⟩ | ⟨hfull, hsame⟩
    · rw [hlen, hsame, List.length_map]
      rcases List.mem_append.mp hy with hy | hy
      · rcases h.every y hy with hin | hfull
        · exact .inl (List.mem_map.mpr hin)
        · exact .inr hfull
      · rw [List.mem_singleton.mp hy]
        exact .inl hname
    · rw [hnew]
      rcases List.mem_append.mp hy with hy | hy
      · rcases h.every y hy with hin | hfull
        · exact .inl (List.mem_append_left _ (List.mem_map.mpr hin))
        · omega
      · rw [List.mem_singleton.mp hy]
        exact .inl (List.mem_append_right _ List.mem_cons_self)
    · rw [hsame]
      exact .inr (Nat.le_antisymm h.length hfull)
  unfold scanFound at hevery ⊢
  cases hraise : raiseEntry x es with
  | some es' =>
      obtain ⟨front, e, back, rfl, hname, rfl⟩ := raiseEntry_some hraise
      have hmem : e ∈ front ++ e :: back := List.mem_append_right _ List.mem_cons_self
      rw [shown_of_clean (h.clean e hmem)] at hname
      obtain ⟨e', he'⟩ : ∃ e', (if x.rssi > e.rssi then
          { e with rssi := x.rssi, channel := x.ch } else e) = e' := ⟨_, rfl⟩
      have hssid : e'.ssid = e.ssid := by
        rw [← he']
        split_ifs <;> rfl
      dsimp only at hevery ⊢
      rw [hraise] at hevery
      dsimp only at hevery
      rw [he'] at hevery ⊢
      -- An entry is the raised one, or an old one of another name.
      have hold : ∀ a ∈ front ++ e' :: back, a = e' ∨ (a ∈ front ++ e :: back ∧ a.ssid ≠ e.ssid) := by
        intro a ha
        have hnodup := h.names
        rw [List.map_append, List.map_cons, List.nodup_middle, List.nodup_cons] at hnodup
        have hother : ∀ b, b ∈ front ∨ b ∈ back → b.ssid ≠ e.ssid := by
          intro b hb heq
          refine hnodup.1 (heq ▸ List.mem_append.mpr ?_)
          exact hb.imp (fun hb => List.mem_map_of_mem hb) fun hb => List.mem_map_of_mem hb
        rcases List.mem_append.mp ha with ha | ha
        · exact .inr ⟨List.mem_append_left _ ha, hother a (.inl ha)⟩
        · rcases List.mem_cons.mp ha with rfl | ha
          · exact .inl rfl
          · exact .inr ⟨List.mem_append_right _ (List.mem_cons_of_mem _ ha), hother a (.inr ha)⟩
      refine ⟨?_, ?_, fun a ha => ?_, fun a ha => ?_, hevery⟩
      · have hlen := h.length
        rw [List.length_append, List.length_cons] at hlen ⊢
        exact hlen
      · have hnames := h.names
        rw [List.map_append, List.map_cons] at hnames ⊢
        rw [hssid]
        exact hnames
      · rcases hold a ha with rfl | ⟨ha, -⟩
        · rw [hssid]
          exact h.clean e hmem
        · exact h.clean a ha
      · rcases hold a ha with rfl | ⟨ha, hother⟩
        · obtain ⟨⟨y, hy, hyname, hyrssi, hych⟩, hle⟩ := h.strongest e hmem
          rw [hssid]
          subst he'
          split_ifs with hgt
          · refine ⟨⟨x, List.mem_append_right _ List.mem_cons_self, hname.symm, rfl, rfl⟩,
              fun z hz hzname => ?_⟩
            rcases List.mem_append.mp hz with hz | hz
            · have := hle z hz hzname
              show z.rssi ≤ x.rssi
              omega
            · rw [List.mem_singleton.mp hz]
          · refine ⟨⟨y, List.mem_append_left _ hy, hyname, hyrssi, hych⟩, fun z hz hzname => ?_⟩
            rcases List.mem_append.mp hz with hz | hz
            · exact hle z hz hzname
            · rw [List.mem_singleton.mp hz]
              omega
        · obtain ⟨⟨y, hy, hyfacts⟩, hle⟩ := h.strongest a ha
          refine ⟨⟨y, List.mem_append_left _ hy, hyfacts⟩, fun z hz hzname => ?_⟩
          rcases List.mem_append.mp hz with hz | hz
          · exact hle z hz hzname
          · rw [List.mem_singleton.mp hz] at hzname
            exact absurd (hzname.symm.trans hname.symm) hother
  | none =>
      have hnew : ∀ e ∈ es, e.ssid ≠ x.name := by
        intro e he
        have hne := raiseEntry_none hraise e he
        rwa [shown_of_clean (h.clean e he)] at hne
      have hkeep : ∀ e ∈ es, (∃ y ∈ found ++ [x], y.name = e.ssid ∧ y.rssi = e.rssi ∧ y.ch = e.channel)
          ∧ ∀ y ∈ found ++ [x], y.name = e.ssid → y.rssi ≤ e.rssi := by
        intro e he
        obtain ⟨⟨y, hy, hyfacts⟩, hle⟩ := h.strongest e he
        refine ⟨⟨y, List.mem_append_left _ hy, hyfacts⟩, fun z hz hzname => ?_⟩
        rcases List.mem_append.mp hz with hz | hz
        · exact hle z hz hzname
        · rw [List.mem_singleton.mp hz] at hzname
          exact absurd hzname.symm (hnew e he)
      rw [hraise] at hevery
      dsimp only at hevery ⊢
      split_ifs at hevery ⊢ with hroom
      · refine ⟨?_, ?_, fun e he => ?_, fun e he => ?_, hevery⟩
        · rw [List.length_append, List.length_singleton]
          omega
        · rw [List.map_append, List.map_singleton, ← List.concat_eq_append]
          refine h.names.concat fun hmem => ?_
          obtain ⟨e, he, hename⟩ := List.mem_map.mp hmem
          exact hnew e he hename
        · rcases List.mem_append.mp he with he | he
          · exact h.clean e he
          · rw [List.mem_singleton.mp he]
            exact hx
        · rcases List.mem_append.mp he with he | he
          · exact hkeep e he
          · rw [List.mem_singleton.mp he]
            refine ⟨⟨x, List.mem_append_right _ List.mem_cons_self, rfl, rfl, rfl⟩, fun y hy hyname => ?_⟩
            rcases List.mem_append.mp hy with hy | hy
            · rcases h.every y hy with ⟨e', he', hename⟩ | hfull
              · exact absurd (hename.trans hyname) (hnew e' he')
              · omega
            · rw [List.mem_singleton.mp hy]
      · exact ⟨h.length, h.names, h.clean, hkeep, hevery⟩

-- ================================================================= the scan

theorem lists_scanList (max : Nat) {found : List Found} (hclean : ∀ x ∈ found, (0 : UInt8) ∉ x.name) :
    Lists max found (scanList max found) := by
  induction found using List.reverseRecOn with
  | nil => exact lists_nil max
  | append_singleton found x ih =>
      have hstep := (ih fun y hy => hclean y (List.mem_append_left _ hy)).step
        (hclean x (List.mem_append_right _ List.mem_cons_self))
      unfold scanList at hstep ⊢
      rw [List.foldl_append]
      exact hstep

/-- A listed name is listed at the end of the scan, too. -/
theorem scanList_mono (max : Nat) {front back : List Found}
    (hclean : ∀ x ∈ front ++ back, (0 : UInt8) ∉ x.name) {name : List UInt8}
    (h : name ∈ (scanList max front).map (·.ssid)) :
    name ∈ (scanList max (front ++ back)).map (·.ssid) := by
  induction back using List.reverseRecOn with
  | nil => rwa [List.append_nil]
  | append_singleton back x ih =>
      rw [← List.append_assoc] at hclean ⊢
      have hbefore : ∀ y ∈ front ++ back, (0 : UInt8) ∉ y.name := fun y hy =>
        hclean y (List.mem_append_left _ hy)
      have hin := ih hbefore
      have hfold : scanList max (front ++ back ++ [x]) = scanFound max (scanList max (front ++ back)) x := by
        unfold scanList
        rw [List.foldl_append]
        rfl
      rw [hfold]
      rcases @scanFound_names max _ (lists_scanList max hbefore).clean x with
        ⟨-, hsame⟩ | ⟨-, hnew⟩ | ⟨-, hsame⟩
      · rwa [hsame]
      · rw [hnew]
        exact List.mem_append_left _ hin
      · rwa [hsame]

def Weaker (a b : NetAp) : Prop := a.rssi ≤ b.rssi

instance : DecidableRel Weaker := fun a b => inferInstanceAs (Decidable (a.rssi ≤ b.rssi))

instance : Std.Total Weaker := ⟨fun a b => Int.le_total a.rssi b.rssi⟩

instance : IsTrans NetAp Weaker := ⟨fun _ _ _ h h' => Int.le_trans h h'⟩

/-- The entries moved past are the weaker ones. -/
theorem moveUp_eq (t : NetAp) (es : List NetAp) : moveUp t es = es.orderedInsert Weaker t := by
  induction es with
  | nil => rfl
  | cons e es ih =>
      unfold moveUp
      rw [List.orderedInsert_cons]
      by_cases h : e.rssi < t.rssi
      · rw [if_pos h, if_neg (show ¬Weaker t e from Int.not_le.mpr h), ih]
      · rw [if_neg h, if_pos (show Weaker t e from Int.not_lt.mp h)]

theorem strongestFirst_spec (es : List NetAp) :
    (strongestFirst es).Perm es ∧ (strongestFirst es).Pairwise fun a b => b.rssi ≤ a.rssi := by
  have hsorted : ∀ (rest sorted : List NetAp), sorted.Pairwise Weaker →
      (rest.foldl (fun sorted t => moveUp t sorted) sorted).Perm (rest ++ sorted)
        ∧ (rest.foldl (fun sorted t => moveUp t sorted) sorted).Pairwise Weaker := by
    intro rest
    induction rest with
    | nil => exact fun sorted h => ⟨.refl _, h⟩
    | cons t rest ih =>
        intro sorted h
        rw [List.foldl_cons, moveUp_eq]
        obtain ⟨hperm, hpair⟩ := ih _ (h.orderedInsert t)
        refine ⟨hperm.trans ?_, hpair⟩
        exact ((List.perm_orderedInsert Weaker t sorted).append_left rest).trans List.perm_middle
  obtain ⟨hperm, hpair⟩ := hsorted es [] .nil
  rw [List.append_nil] at hperm
  exact ⟨(List.reverse_perm _).trans hperm, List.pairwise_reverse.mpr hpair⟩

/-- Without a NUL in a name, a scan gives each name once, strongest first,
as its strongest frame has it; a name is missing only if the list was full
of others when it came. -/
theorem scan_right (max : Nat) {frames : List (List UInt8 × Int)}
    (hclean : ∀ f ∈ frames, ∀ x, scanFrame f.1 f.2 = some x → (0 : UInt8) ∉ x.name) :
    let found := frames.filterMap fun f => scanFrame f.1 f.2
    let list := doScan max frames
    list.length ≤ max ∧ (list.map (·.shown)).Nodup ∧ list.Pairwise (fun a b => b.rssi ≤ a.rssi)
      ∧ (∀ front x back, found = front ++ x :: back → (∃ e ∈ list, e.shown = x.name)
        ∨ ((scanList max front).length = max ∧ ∀ e ∈ scanList max front, e.shown ≠ x.name))
      ∧ ∀ e ∈ list, (∃ x ∈ found, x.name = e.shown ∧ x.rssi = e.rssi ∧ x.ch = e.channel)
        ∧ ∀ x ∈ found, x.name = e.shown → x.rssi ≤ e.rssi := by
  intro found list
  have hfound : ∀ x ∈ found, (0 : UInt8) ∉ x.name := by
    intro x hx
    obtain ⟨f, hf, hfx⟩ := List.mem_filterMap.mp hx
    exact hclean f hf x hfx
  have hlists := lists_scanList max hfound
  obtain ⟨hperm, hsorted⟩ := strongestFirst_spec (scanList max found)
  have hshown : ∀ e ∈ list, e.shown = e.ssid := fun e he =>
    shown_of_clean (hlists.clean e (hperm.mem_iff.mp he))
  refine ⟨?_, ?_, hsorted, fun front x back hsplit => ?_, fun e he => ?_⟩
  · exact Nat.le_trans (Nat.le_of_eq hperm.length_eq) hlists.length
  · rw [List.map_congr_left hshown]
    exact (hperm.map _).nodup_iff.mpr hlists.names
  · by_cases hin : x.name ∈ (scanList max found).map (·.ssid)
    · obtain ⟨e, he, hename⟩ := List.mem_map.mp hin
      have he' := hperm.mem_iff.mpr he
      exact .inl ⟨e, he', (hshown e he').trans hename⟩
    · right
      have hfront : ∀ y ∈ front, (0 : UInt8) ∉ y.name := fun y hy =>
        hfound y (hsplit ▸ List.mem_append_left _ hy)
      have hbefore := lists_scanList max hfront
      have hmissing : ∀ more back', found = more ++ back' → x.name ∉ (scanList max more).map (·.ssid) := by
        intro more back' hmore hmem
        rw [hmore] at hin hfound
        exact hin (scanList_mono max hfound hmem)
      have hname := hmissing front (x :: back) hsplit
      refine ⟨?_, fun e he hshow => hname ?_⟩
      · have hnext := hmissing (front ++ [x]) back (by rw [hsplit, List.append_assoc]; rfl)
        have hfold : scanList max (front ++ [x]) = scanFound max (scanList max front) x := by
          unfold scanList
          rw [List.foldl_append]
          rfl
        rw [hfold] at hnext
        rcases @scanFound_names max _ hbefore.clean x with ⟨hin', -⟩ | ⟨-, hnew⟩ | ⟨hfull, -⟩
        · exact absurd hin' hname
        · rw [hnew] at hnext
          exact absurd (List.mem_append_right _ List.mem_cons_self) hnext
        · exact Nat.le_antisymm hbefore.length hfull
      · rw [shown_of_clean (hbefore.clean e he)] at hshow
        exact hshow ▸ List.mem_map_of_mem he
  · rw [hshown e he]
    exact hlists.strongest e (hperm.mem_iff.mp he)

-- ================================================================ beacons

/-- A beacon with an SSID element, and a channel. -/
def beacon (name : List UInt8) (ch : UInt8) : List UInt8 :=
  0x80 :: List.replicate 35 0 ++ (0 :: .ofNat name.length :: (name ++ [3, 1, ch]))

theorem scanFrame_beacon {c : UInt8} {cs : List UInt8} (hc : c ≠ 0) (hlen : cs.length < 32)
    (ch : UInt8) (rssi : Int) :
    scanFrame (beacon (c :: cs) ch) rssi = some ⟨c :: cs, ch.toNat, rssi, .openNet⟩ := by
  have hn : (UInt8.ofNat (c :: cs).length).toNat = (c :: cs).length := by
    rw [UInt8.toNat_ofNat', List.length_cons]
    omega
  have helements : elements ((beacon (c :: cs) ch).drop 36) = [(0, c :: cs), (3, [ch])] := by
    show elements (0 :: .ofNat (c :: cs).length :: ((c :: cs) ++ [3, 1, ch])) = _
    rw [elements, hn, if_pos (by rw [List.length_append]; omega), List.take_left, List.drop_left,
      elements, if_pos (show UInt8.toNat 1 ≤ [ch].length from Nat.le_refl 1)]
    show (0, c :: cs) :: (3, [ch]) :: elements [] = _
    rw [elements]
    intro _ _ _ h
    cases h
  have hlong : (beacon (c :: cs) ch).length ≥ 36 := by
    unfold beacon
    rw [List.length_append, List.length_cons, List.length_replicate]
    omega
  have hcontrol : (beacon (c :: cs) ch).getD 0 0 = 0x80 ∧ (beacon (c :: cs) ch).getD 34 0 = 0 :=
    ⟨rfl, rfl⟩
  unfold scanFrame
  dsimp only
  rw [helements, hcontrol.1, hcontrol.2, if_pos ⟨by decide, by decide, hlong⟩]
  have hheard : [((0 : UInt8), c :: cs), (3, [ch])].foldl hearElement { sec := .openNet }
      = { name := some (c :: cs), ch := ch.toNat, sec := .openNet } := by
    have hname : hearElement { sec := .openNet } (0, c :: cs)
        = { name := some (c :: cs), sec := .openNet } := if_pos ⟨rfl, hlen⟩
    rw [List.foldl_cons, hname]
    rfl
  have hsec : (if (0 : UInt8) &&& 0x10 ≠ 0 then Security.wepWpa1 else .openNet) = .openNet := by decide
  rw [hsec, hheard]
  exact if_pos hc

/-- Two beacons of one network, with a NUL in its name: two entries that
show the same. -/
theorem scan_twice : ¬∀ (max : Nat) (frames : List (List UInt8 × Int)),
    ((doScan max frames).map (·.shown)).Nodup := by
  intro h
  have hboth := h 2 [(beacon [0x61, 0, 0x62] 1, -50), (beacon [0x61, 0, 0x62] 1, -50)]
  have hheard := @scanFrame_beacon 0x61 [0, 0x62] (by decide) (by decide) 1 (-50)
  unfold doScan at hboth
  simp only [List.filterMap_cons, List.filterMap_nil, hheard] at hboth
  exact absurd hboth (by decide)

theorem scan_right_two :
    (doScan 1 [(beacon [0x61] 1, -60), (beacon [0x62] 6, -40)]).length ≤ 1 := by
  refine (@scan_right 1 [(beacon [0x61] 1, -60), (beacon [0x62] 6, -40)] fun f hf x hx => ?_).1
  simp only [List.mem_cons, List.not_mem_nil, or_false] at hf
  rcases hf with rfl | rfl
  · rw [scanFrame_beacon (by decide) (by decide)] at hx
    cases hx
    decide
  · rw [scanFrame_beacon (by decide) (by decide)] at hx
    cases hx
    decide

end Ncmips.Net
