/-
What `net_configure` saved is loaded again, if no line of it is broken.

The settings are written as they are (`configText_eq`), and a line's value
is what it holds up to its end, but for a CR there (`configLoad_eq`). So
what is lost is known: a name or passphrase with a line feed in it, or a
CR at its end.
-/
import Mathlib.Data.List.Induction
import Ncmips.Libc.Proofs.Text
import Ncmips.Net.Wifi

namespace Ncmips.Net

open Words Libc Lines

-- ================================================================= the text

/-- The lines in front of the settings. -/
def wifiHead : List (List UInt8) :=
  [wifiMagic, text "# Written by the launcher (SETTINGS > WiFi). on=0: WiFi off.",
    text "# The passphrase is stored as typed: keep this stick private."]

def digitOf (on : Int) : UInt8 := if on = 0 then ch '0' else ch '1'

/-- The settings as lines. -/
def wifiLines (cfg : Cfg) : List (List UInt8) :=
  wifiHead ++ [text "on=" ++ [digitOf cfg.on], text "ssid=" ++ cfg.ssid, text "psk=" ++ cfg.psk]

theorem numText_on {on : Int} (hon : on = 0 ∨ on = 1) :
    numText (magnitude (s32 (u32 (ofInt32 on)))) 10 false (signChar (s32 (u32 (ofInt32 on))) {}) 0 (-1)
      false false false = [digitOf on] := by
  have hdigit {v : Nat} (hv : v < 10) : pushDigits 10 false v = [digitChar false v] := by
    rw [pushDigits, if_neg (by omega), Nat.mod_eq_of_lt hv]
  have htext {v : Nat} (hv : v < 10) :
      numText v 10 false 0 0 (-1) false false false = [digitChar false v] := by
    have hzeros : pushZeros (-1) [digitChar false v] = [digitChar false v] := by
      rw [pushZeros_eq]
      rfl
    have hpad : (s32 (0 - ((1 : Nat) + 0))).toNat = 0 := by decide
    unfold numText numTmp
    rw [hdigit hv, hzeros, if_neg fun h => absurd h.1 (by decide)]
    show List.replicate (s32 (0 - ((1 : Nat) + 0))).toNat (ch ' ') ++ [] ++ []
      ++ [digitChar false v].reverse ++ [] = _
    rw [hpad]
    rfl
  rcases hon with rfl | rfl
  · exact htext (v := 0) (by decide)
  · exact htext (v := 1) (by decide)

set_option maxRecDepth 4000 in
/-- The format, its conversions apart. -/
theorem wifiFmt_eq : wifiFmt = (wifiHead.flatMap (fun l => l ++ [lf]) ++ text "on=")
    ++ (ch '%' :: ch 'd' :: (([lf] ++ text "ssid=")
    ++ (ch '%' :: ch 's' :: (([lf] ++ text "psk=") ++ (ch '%' :: ch 's' :: ([lf] ++ [])))))) := by
  decide

theorem fullText_wifi {cfg : Cfg} (hon : cfg.on = 0 ∨ cfg.on = 1) (hssid : cfg.ssid.length < 2 ^ 31)
    (hpsk : cfg.psk.length < 2 ^ 31) :
    fullText noFloat wifiFmt [.word (ofInt32 cfg.on), .ptr 1 cfg.ssid, .ptr 1 cfg.psk]
      = (wifiLines cfg).flatMap fun l => l ++ [lf] := by
  rw [wifiFmt_eq, fullText_lit (by decide), fullText_d, numText_on hon, fullText_lit (by decide),
    fullText_s (by decide) hssid, fullText_lit (by decide), fullText_s (by decide) hpsk,
    fullText_lit (by decide), fullText_nil]
  unfold wifiLines
  rw [List.flatMap_append]
  simp only [List.flatMap_cons, List.flatMap_nil, List.append_assoc, List.append_nil]

/-- All the lines of the sector: the last one pads it. -/
def sectorLines (cfg : Cfg) : List (List UInt8) :=
  wifiLines cfg
    ++ [ch '#' :: List.replicate (510 - ((wifiLines cfg).flatMap fun l => l ++ [lf]).length) (ch '#')]

/-- Settings that a sector has room for. -/
structure Small (cfg : Cfg) : Prop where
  on : cfg.on = 0 ∨ cfg.on = 1
  ssid : cfg.ssid.length ≤ 32
  psk : cfg.psk.length ≤ 63

set_option maxRecDepth 4000 in
theorem wifiHead_length : (wifiHead.flatMap fun l => l ++ [lf]).length = 137 := by
  decide

theorem wifiLines_length (cfg : Cfg) :
    ((wifiLines cfg).flatMap fun l => l ++ [lf]).length = 153 + cfg.ssid.length + cfg.psk.length := by
  have hhead := wifiHead_length
  unfold wifiLines
  rw [List.flatMap_append, List.length_append]
  simp only [List.flatMap_cons, List.flatMap_nil, List.length_append, List.length_cons,
    List.length_nil]
  have hon : (text "on=").length = 3 := rfl
  have hssid : (text "ssid=").length = 5 := rfl
  have hpsk : (text "psk=").length = 4 := rfl
  omega

theorem configText_eq {cfg : Cfg} (h : Small cfg) :
    configText cfg = some ((sectorLines cfg).flatMap fun l => l ++ [lf]) := by
  have hssid := h.ssid
  have hpsk := h.psk
  have htext := fullText_wifi h.on (by omega) (by omega)
  have hlen := wifiLines_length cfg
  have hsize : (vsnprintf noFloat 512 wifiFmt [.word (ofInt32 cfg.on), .ptr 1 cfg.ssid, .ptr 1 cfg.psk]).1
      = ((wifiLines cfg).flatMap fun l => l ++ [lf]).length := by
    rw [vsnprintf_result, htext, u32_of_lt (by omega), s32_of_range (by omega) (by omega)]
  unfold configText snprintf sectorLines
  dsimp only
  rw [hsize, htext, if_neg (by omega)]
  rw [List.flatMap_append]
  generalize ((wifiLines cfg).flatMap fun l => l ++ [lf]) = t at *
  have htake : t.take (min t.length (512 - 1)) = t := List.take_of_length_le (by omega)
  have hpad : ((511 : Int) - t.length).toNat = 510 - t.length + 1 := by omega
  rw [htake, hpad, List.replicate_succ]
  simp only [List.flatMap_cons, List.flatMap_nil, List.append_nil, List.append_assoc, List.cons_append]

theorem sectorLines_length {cfg : Cfg} (h : Small cfg) :
    ((sectorLines cfg).flatMap fun l => l ++ [lf]).length = 512 := by
  have hssid := h.ssid
  have hpsk := h.psk
  have hlen := wifiLines_length cfg
  unfold sectorLines
  rw [List.flatMap_append, List.length_append]
  generalize ((wifiLines cfg).flatMap fun l => l ++ [lf]).length = n at *
  simp only [List.flatMap_cons, List.flatMap_nil, List.length_append, List.length_cons,
    List.length_nil, List.length_replicate]
  omega

-- ================================================================== loading

theorem configLine_comment (cfg : Cfg) {l : List UInt8} (h : l.head? = some (ch '#')) :
    configLine cfg l = cfg := by
  unfold configLine
  rw [if_pos h]

theorem trimCr_append {l : List UInt8} (hl : l.getLast? ≠ some cr) (m : List UInt8) :
    trimCr (l ++ m) = l ++ trimCr m := by
  cases m using List.reverseRecOn with
  | nil =>
      unfold trimCr
      rw [List.append_nil, if_neg hl, List.getLast?_nil, if_neg (by simp), List.append_nil]
  | append_singleton m c =>
      unfold trimCr
      rw [← List.append_assoc, List.getLast?_concat, List.getLast?_concat, List.dropLast_concat,
        List.dropLast_concat]
      split
      · rfl
      · exact List.append_assoc l m [c]

theorem trimCr_length (l : List UInt8) : (trimCr l).length ≤ l.length := by
  unfold trimCr
  split
  · rw [List.length_dropLast]
    omega
  · exact Nat.le_refl _

/-- A line with a key, and without a comment. -/
theorem configLine_key (cfg : Cfg) {k : List UInt8} (hk : ch '=' ∉ k) (hhead : k.head? ≠ some (ch '#'))
    (hne : k ≠ []) (v : List UInt8) :
    configLine cfg (k ++ [ch '='] ++ v)
      = if k = text "ssid" ∧ (trimCr v).length < ssidSize then { cfg with ssid := trimCr v }
        else if k = text "psk" ∧ (trimCr v).length < pskSize then { cfg with psk := trimCr v }
        else if k = text "on" then
          { cfg with on := if (trimCr v).head? ≠ some (ch '0') then 1 else 0 }
        else cfg := by
  have hfirst : (k ++ [ch '='] ++ v).head? ≠ some (ch '#') := by
    cases k with
    | nil => exact absurd rfl hne
    | cons c k => exact hhead
  have htrim : trimCr (k ++ [ch '='] ++ v) = k ++ ch '=' :: trimCr v := by
    rw [trimCr_append (by rw [List.getLast?_concat]; decide), List.append_assoc]
    rfl
  unfold configLine
  rw [if_neg hfirst, htrim, keyValue_eq hk]

set_option maxRecDepth 4000 in
theorem wifiHead_clean : ∀ l ∈ wifiHead, lf ∉ l ∧ (0 : UInt8) ∉ l := by
  decide

theorem foldl_comments {ls : List (List UInt8)} (h : ∀ l ∈ ls, l.head? = some (ch '#')) (cfg : Cfg) :
    ls.foldl configLine cfg = cfg := by
  induction ls with
  | nil => rfl
  | cons l ls ih =>
      rw [List.foldl_cons, configLine_comment cfg (h l List.mem_cons_self)]
      exact ih fun k hk => h k (List.mem_cons_of_mem l hk)

/-- No line has a character that no setting has. -/
theorem not_mem_sectorLines {c : UInt8} {cfg : Cfg} (hhead : ∀ l ∈ wifiHead, c ∉ l)
    (hplain : c ∉ text "on=" ++ text "ssid=" ++ text "psk=" ++ text "01#") (hssid : c ∉ cfg.ssid)
    (hpsk : c ∉ cfg.psk) : ∀ l ∈ sectorLines cfg, c ∉ l := by
  simp only [List.mem_append, not_or] at hplain
  obtain ⟨⟨⟨hon, hkey⟩, hkey'⟩, hdigits⟩ := hplain
  have hmark : c ≠ ch '#' := fun h => hdigits (by rw [h]; decide)
  have hdigit : c ≠ digitOf cfg.on := by
    intro h
    apply hdigits
    rw [h]
    unfold digitOf
    split
    · decide
    · decide
  intro l hl hc
  unfold sectorLines wifiLines at hl
  simp only [List.mem_append, List.mem_cons, List.not_mem_nil, or_false] at hl
  rcases hl with (hl | rfl | rfl | rfl) | rfl
  · exact hhead l hl hc
  · rcases List.mem_append.mp hc with hc | hc
    · exact hon hc
    · exact hdigit (List.mem_singleton.mp hc)
  · rcases List.mem_append.mp hc with hc | hc
    · exact hkey hc
    · exact hssid hc
  · rcases List.mem_append.mp hc with hc | hc
    · exact hkey' hc
    · exact hpsk hc
  · rcases List.mem_cons.mp hc with hc | hc
    · exact hmark hc
    · exact hmark (List.eq_of_mem_replicate hc)

/-- What the lines of a saved text set, if none of the settings breaks one. -/
theorem foldl_sectorLines {cfg : Cfg} (h : Small cfg) :
    (sectorLines cfg).foldl configLine {} = { cfg with ssid := trimCr cfg.ssid, psk := trimCr cfg.psk } := by
  have hssid := Nat.le_trans (trimCr_length cfg.ssid) h.ssid
  have hpsk := Nat.le_trans (trimCr_length cfg.psk) h.psk
  have hon : (if (trimCr [digitOf cfg.on]).head? ≠ some (ch '0') then (1 : Int) else 0) = cfg.on := by
    rcases h.on with h0 | h1
    · rw [h0]
      decide
    · rw [h1]
      decide
  have hfirst : configLine {} (text "on=" ++ [digitOf cfg.on]) = { on := cfg.on } := by
    have hkey := configLine_key {} (k := text "on") (by decide) (by decide) (by decide) [digitOf cfg.on]
    rw [if_neg fun h => absurd h.1 (by decide), if_neg fun h => absurd h.1 (by decide), if_pos rfl,
      hon] at hkey
    exact hkey
  have hsecond (c : Cfg) : configLine c (text "ssid=" ++ cfg.ssid) = { c with ssid := trimCr cfg.ssid } := by
    have hkey := configLine_key c (k := text "ssid") (by decide) (by decide) (by decide) cfg.ssid
    rw [if_pos ⟨rfl, Nat.lt_succ_of_le hssid⟩] at hkey
    exact hkey
  have hthird (c : Cfg) : configLine c (text "psk=" ++ cfg.psk) = { c with psk := trimCr cfg.psk } := by
    have hkey := configLine_key c (k := text "psk") (by decide) (by decide) (by decide) cfg.psk
    rw [if_neg fun h => absurd h.1 (by decide), if_pos ⟨rfl, Nat.lt_succ_of_le hpsk⟩] at hkey
    exact hkey
  unfold sectorLines wifiLines
  have hhead : ∀ l ∈ wifiHead, l.head? = some (ch '#') := by decide
  rw [List.foldl_append, List.foldl_append, foldl_comments hhead]
  simp only [List.foldl_cons, List.foldl_nil]
  rw [hfirst, hsecond, hthird, configLine_comment _ (by rfl)]

-- ================================================== what a text cannot hold

/-- A value that is loaded is part of its line. -/
theorem configLine_clean {cfg : Cfg} {l : List UInt8} (hl : lf ∉ l)
    (h : lf ∉ cfg.ssid ∧ lf ∉ cfg.psk) :
    lf ∉ (configLine cfg l).ssid ∧ lf ∉ (configLine cfg l).psk := by
  unfold configLine
  split
  · exact h
  · split
    · exact h
    · next k v hkv =>
      have hv : lf ∉ v := by
        intro hmem
        have htrim : trimCr l = l ∨ trimCr l = l.dropLast := by
          unfold trimCr
          split
          · exact .inr rfl
          · exact .inl rfl
        have hmem' := (keyValue_sublist hkv).subset hmem
        rcases htrim with htrim | htrim
        · rw [htrim] at hmem'
          exact hl hmem'
        · rw [htrim] at hmem'
          exact hl ((List.dropLast_sublist l).subset hmem')
      split
      · exact ⟨hv, h.2⟩
      · split
        · exact ⟨h.1, hv⟩
        · split
          · exact h
          · exact h

theorem foldl_clean {ls : List (List UInt8)} (hls : ∀ l ∈ ls, lf ∉ l) {cfg : Cfg}
    (h : lf ∉ cfg.ssid ∧ lf ∉ cfg.psk) :
    lf ∉ (ls.foldl configLine cfg).ssid ∧ lf ∉ (ls.foldl configLine cfg).psk := by
  induction ls generalizing cfg with
  | nil => exact h
  | cons l ls ih =>
      exact ih (fun k hk => hls k (List.mem_cons_of_mem l hk))
        (configLine_clean (hls l List.mem_cons_self) h)

-- ============================================================== round trips

variable {σ : Type} (readFile : List UInt8 → Nat → σ → List UInt8)
  (overwrite : List UInt8 → List UInt8 → List UInt8 → σ → Bool × σ)

/-- A setting that one line can hold. -/
def OneLine (t : List UInt8) : Prop := lf ∉ t ∧ t.getLast? ≠ some cr

theorem snprintf_str {size : Nat} {t : List UInt8} (hlen : t.length < size) (hsize : size ≤ 2 ^ 31) :
    (snprintf size (text "%s") [.ptr 1 t]).2 = t := by
  have htext : fullText noFloat (text "%s") [.ptr 1 t] = t := by
    show fullText noFloat (ch '%' :: ch 's' :: []) [.ptr 1 t] = t
    rw [fullText_s (by decide) (by omega), fullText_nil, List.append_nil]
  unfold snprintf
  dsimp only
  rw [htext]
  exact List.take_of_length_le (by omega)

theorem trimCr_eq_self {l : List UInt8} : trimCr l = l ↔ l.getLast? ≠ some cr := by
  unfold trimCr
  split
  · next h =>
    refine iff_of_false (fun heq => ?_) (not_not_intro h)
    have hlen := congrArg List.length heq
    rw [List.length_dropLast] at hlen
    cases l with
    | nil => exact nomatch h
    | cons c l =>
        rw [List.length_cons] at hlen
        omega
  · next h => exact iff_of_true rfl h

/-- The saved text, loaded. -/
theorem load_sectorLines {c : Cfg} (hsmall : Small c) (hnul : (0 : UInt8) ∉ c.ssid ∧ (0 : UInt8) ∉ c.psk) {s : σ}
    (hread : readFile wifiTxt 512 s = (sectorLines c).flatMap fun l => l ++ [lf]) :
    configLoad readFile s = (pieces lf ((sectorLines c).flatMap fun l => l ++ [lf])).foldl configLine {} := by
  have hlen := sectorLines_length hsmall
  have hne : (sectorLines c).flatMap (fun l => l ++ [lf]) ≠ [] := by
    intro h
    rw [h] at hlen
    exact absurd hlen (by decide)
  have hplain := @not_mem_sectorLines 0 c (fun l hl => (wifiHead_clean l hl).2) (by decide) hnul.1 hnul.2
  have hall : ((sectorLines c).flatMap fun l => l ++ [lf]).takeWhile (· ≠ 0)
      = (sectorLines c).flatMap fun l => l ++ [lf] := by
    refine List.takeWhile_eq_self_iff.mpr fun b hb => ?_
    rw [decide_eq_true_eq]
    rintro rfl
    obtain ⟨l, hl, hbl⟩ := List.mem_flatMap.mp hb
    rcases List.mem_append.mp hbl with hbl | hbl
    · exact hplain l hl hbl
    · exact absurd (List.mem_singleton.mp hbl) (by decide)
  unfold configLoad
  dsimp only
  rw [hread, if_neg hne, hall]

theorem netConfigure_eq {c : Cfg} (hsmall : Small c) (cfg : Cfg) (s : σ) :
    netConfigure overwrite (some c.ssid) (some c.psk) c.on cfg s
      = ((configSave overwrite c s).1, c, (configSave overwrite c s).2) := by
  have hssid : (snprintf ssidSize (text "%s") [.ptr 1 c.ssid]).2 = c.ssid := by
    refine snprintf_str (Nat.lt_succ_of_le hsmall.ssid) ?_
    unfold ssidSize
    omega
  have hpsk : (snprintf pskSize (text "%s") [.ptr 1 c.psk]).2 = c.psk := by
    refine snprintf_str (Nat.lt_succ_of_le hsmall.psk) ?_
    unfold pskSize
    omega
  unfold netConfigure
  dsimp only
  rw [hssid, hpsk]

theorem configSave_eq {c : Cfg} (hsmall : Small c) (s : σ) :
    configSave overwrite c s
      = overwrite wifiTxt ((sectorLines c).flatMap fun l => l ++ [lf]) wifiMagic s := by
  have hwrite : configSave overwrite c s
      = writeText overwrite (some ((sectorLines c).flatMap fun l => l ++ [lf])) s :=
    congrArg (fun t => writeText overwrite t s) (configText_eq hsmall)
  rw [hwrite]
  rfl

theorem netConfigure_wrote {c cfg cfg' : Cfg} (hsmall : Small c) {s s' : σ}
    (hok : netConfigure overwrite (some c.ssid) (some c.psk) c.on cfg s = (true, cfg', s')) :
    overwrite wifiTxt ((sectorLines c).flatMap fun l => l ++ [lf]) wifiMagic s = (true, s') := by
  rw [netConfigure_eq overwrite hsmall, configSave_eq overwrite hsmall, Prod.mk.injEq,
    Prod.mk.injEq] at hok
  exact Prod.ext hok.1 hok.2.2

/-- What `net_configure` wrote is loaded as it was given, exactly if a line can
hold the name, and one the passphrase. -/
theorem wifi_kept
    (hstore : ∀ path data magic s s', overwrite path data magic s = (true, s') → data.length = 512 →
      readFile path 512 s' = data)
    {ssid psk : List UInt8} (hssid : ssid.length ≤ 32) (hpsk : psk.length ≤ 63)
    (hnul : (0 : UInt8) ∉ ssid ∧ (0 : UInt8) ∉ psk) {on : Int} (hon : on = 0 ∨ on = 1)
    {cfg cfg' : Cfg} {s s' : σ}
    (hok : netConfigure overwrite (some ssid) (some psk) on cfg s = (true, cfg', s')) :
    configLoad readFile s' = { ssid, psk, on } ↔ OneLine ssid ∧ OneLine psk := by
  have hsmall : Small { ssid, psk, on } := ⟨hon, hssid, hpsk⟩
  have hwrote := netConfigure_wrote overwrite hsmall hok
  rw [load_sectorLines readFile hsmall hnul (hstore _ _ _ _ _ hwrote (sectorLines_length hsmall))]
  constructor
  · intro h
    have hclean := @foldl_clean (pieces lf ((sectorLines { ssid, psk, on }).flatMap fun l => l ++ [lf]))
      (fun l hl => not_mem_pieces hl) {} ⟨by decide, by decide⟩
    rw [h] at hclean
    have hlines := @not_mem_sectorLines lf { ssid, psk, on } (fun l hl => (wifiHead_clean l hl).1)
      (by decide) hclean.1 hclean.2
    have hpieces := pieces_lines hlines []
    rw [List.append_nil, pieces_nil, List.append_nil] at hpieces
    rw [hpieces, foldl_sectorLines hsmall, Cfg.mk.injEq] at h
    exact ⟨⟨hclean.1, trimCr_eq_self.1 h.1⟩, hclean.2, trimCr_eq_self.1 h.2.1⟩
  · rintro ⟨⟨hlf, hcr⟩, hlf', hcr'⟩
    have hlines := @not_mem_sectorLines lf { ssid, psk, on } (fun l hl => (wifiHead_clean l hl).1)
      (by decide) hlf hlf'
    have hpieces := pieces_lines hlines []
    rw [List.append_nil, pieces_nil, List.append_nil] at hpieces
    rw [hpieces, foldl_sectorLines hsmall, trimCr_eq_self.2 hcr, trimCr_eq_self.2 hcr']

/-- A stick with this one file. -/
def oneFile (_ data _ : List UInt8) (_ : List UInt8) : Bool × List UInt8 := (true, data)

theorem oneFile_store : ∀ path data magic s s', oneFile path data magic s = (true, s') →
    data.length = 512 → (fun _ n s => s.take n : List UInt8 → Nat → List UInt8 → List UInt8) path 512 s' = data := by
  intro path data magic s s' h hlen
  cases h
  exact List.take_of_length_le (Nat.le_of_eq hlen)

theorem oneFile_ok {c : Cfg} (hsmall : Small c) :
    ∃ s', netConfigure oneFile (some c.ssid) (some c.psk) c.on {} [] = (true, c, s') := by
  rw [netConfigure_eq oneFile hsmall, configSave_eq oneFile hsmall]
  exact ⟨_, rfl⟩

theorem wifi_kept_home : OneLine (text "home") ∧ OneLine (text "secret99") ∧ ∃ s',
    netConfigure oneFile (some (text "home")) (some (text "secret99")) 1 {} []
      = (true, ⟨text "home", text "secret99", 1⟩, s')
    ∧ configLoad (fun _ n s => s.take n) s' = ⟨text "home", text "secret99", 1⟩ := by
  have hsmall : Small ⟨text "home", text "secret99", 1⟩ := ⟨.inr rfl, by decide, by decide⟩
  have hssid : OneLine (text "home") := ⟨by decide, by decide⟩
  have hpsk : OneLine (text "secret99") := ⟨by decide, by decide⟩
  obtain ⟨s', hok⟩ := oneFile_ok hsmall
  exact ⟨hssid, hpsk, s', hok, (wifi_kept (fun _ n s => s.take n) oneFile oneFile_store (by decide)
    (by decide) ⟨by decide, by decide⟩ (.inr rfl) hok).2 ⟨hssid, hpsk⟩⟩

/-- A network whose name has a line feed in it. -/
theorem wifi_lost : ∃ s', netConfigure oneFile (some [ch 'a', lf, ch 'b']) (some (text "secret99")) 1 {} []
      = (true, ⟨[ch 'a', lf, ch 'b'], text "secret99", 1⟩, s')
    ∧ configLoad (fun _ n s => s.take n) s' ≠ ⟨[ch 'a', lf, ch 'b'], text "secret99", 1⟩ := by
  have hsmall : Small ⟨[ch 'a', lf, ch 'b'], text "secret99", 1⟩ := ⟨.inr rfl, by decide, by decide⟩
  obtain ⟨s', hok⟩ := oneFile_ok hsmall
  refine ⟨s', hok, fun h => ?_⟩
  have hlf : lf ∉ (configLoad (fun _ n s => s.take n : List UInt8 → Nat → List UInt8 → List UInt8) s').ssid :=
    (foldl_clean (fun l hl => not_mem_pieces hl) ⟨by decide, by decide⟩).1
  rw [h] at hlf
  exact hlf (by decide)

end Ncmips.Net
