/-
An app's settings are loaded as they were saved.

A table's keys are different and fit on a line, and its values stay on
theirs (`Table`); every setting keeps that. The saved text is the table's
lines between comments, so reading it sets the same entries again.
-/
import Mathlib.Data.List.Induction
import Mathlib.Data.List.Nodup
import Ncmips.Libc.Proofs.Text
import Ncmips.Sdk.Config

namespace Ncmips.Sdk

open Words Libc Lines

-- ================================================================== values

/-- The longest beginning of `v` with at most 31 characters and neither CR
nor LF. -/
structure Clipped (v w : List UInt8) : Prop where
  beginning : w <+: v
  short : w.length ≤ 31
  line : cr ∉ w ∧ lf ∉ w
  longest : ∀ u, u <+: v → u.length ≤ 31 → cr ∉ u → lf ∉ u → u <+: w

theorem configValue_clipped (v : List UInt8) : Clipped v (configValue v) where
  beginning := (List.takeWhile_prefix _).trans (List.take_prefix _ _)
  short := by
    have htake := (List.takeWhile_prefix (fun c => decide (c ≠ cr ∧ c ≠ lf)) (l := v.take 31)).length_le
    rw [List.length_take] at htake
    exact Nat.le_trans htake (Nat.min_le_left _ _)
  line := by
    constructor
    · intro h
      have := List.mem_takeWhile_imp h
      simp at this
    · intro h
      have := List.mem_takeWhile_imp h
      simp at this
  longest := by
    intro u hu hlen hcr hlf
    have htake : u <+: v.take 31 := List.prefix_take_iff.mpr ⟨hu, hlen⟩
    obtain ⟨rest, hrest⟩ := htake
    unfold configValue valSize
    rw [← hrest, List.takeWhile_append_of_pos fun c hc => by
      rw [decide_eq_true_eq]
      exact ⟨fun h => hcr (h ▸ hc), fun h => hlf (h ▸ hc)⟩]
    exact List.prefix_append _ _

theorem configValue_of_clipped {v : List UInt8} (hlen : v.length ≤ 31) (hline : cr ∉ v ∧ lf ∉ v) :
    configValue v = v := by
  have hlongest := (configValue_clipped v).longest v (List.prefix_refl v) hlen hline.1 hline.2
  exact (configValue_clipped v).beginning.eq_of_length
    (Nat.le_antisymm (configValue_clipped v).beginning.length_le hlongest.length_le)

-- =================================================================== tables

/-- A key that a line can start with. -/
structure GoodKey (k : List UInt8) : Prop where
  pos : k ≠ []
  short : k.length ≤ 15
  plain : ch '=' ∉ k ∧ lf ∉ k ∧ (0 : UInt8) ∉ k
  first : k.head? ≠ some (ch '#')

structure GoodEntry (e : Entry) : Prop where
  key : GoodKey e.key
  short : e.val.length ≤ 31
  line : cr ∉ e.val ∧ lf ∉ e.val
  str : (0 : UInt8) ∉ e.val

structure Table (cfg : List Entry) : Prop where
  length : cfg.length ≤ cfgMax
  keys : (cfg.map (·.key)).Nodup
  good : ∀ e ∈ cfg, GoodEntry e

theorem table_nil : Table [] := ⟨Nat.zero_le _, .nil, fun _ h => nomatch h⟩

theorem goodEntry_new {k v : List UInt8} (hk : GoodKey k) (hv : (0 : UInt8) ∉ v) :
    GoodEntry { key := k.take (keySize - 1), val := configValue v } := by
  have hclip := configValue_clipped v
  have htake : k.take (keySize - 1) = k := List.take_of_length_le hk.short
  refine ⟨?_, hclip.short, hclip.line, fun h => hv (hclip.beginning.subset h)⟩
  show GoodKey (k.take (keySize - 1))
  rw [htake]
  exact hk

/-- A new key's entry goes to the end, while there is room. -/
theorem configSet_new {cfg : List Entry} {k : List UInt8} (hnew : k ∉ cfg.map (·.key))
    (hroom : cfg.length ≠ cfgMax) (v : List UInt8) :
    configSet cfg k v = cfg ++ [{ key := k.take (keySize - 1), val := configValue v }] := by
  have hnone : cfg.findIdx? (fun e => e.key = k) = none := by
    rw [List.findIdx?_eq_none_iff]
    intro e he
    rw [decide_eq_false_iff_not]
    rintro rfl
    exact hnew (List.mem_map_of_mem he)
  unfold configSet
  rw [hnone]
  exact if_neg hroom

/-- The entry of a key that is there gets the new value. -/
theorem configSet_old {cfg : List Entry} {k : List UInt8} {i : Nat}
    (hi : cfg.findIdx? (fun e => e.key = k) = some i) (v : List UInt8) :
    configSet cfg k v = cfg.modify i fun e => { e with val := configValue v } := by
  unfold configSet
  rw [hi]

theorem modify_keys (cfg : List Entry) (i : Nat) (v : List UInt8) :
    (cfg.modify i fun e => { e with val := v }).map (·.key) = cfg.map (·.key) := by
  refine List.ext_getElem? fun j => ?_
  rw [List.getElem?_map, List.getElem?_map, List.getElem?_modify]
  split
  · cases cfg[j]? with
    | none => rfl
    | some e => rfl
  · cases cfg[j]? with
    | none => rfl
    | some e => rfl

/-- An entry after a setting: the one that was set, or one as before. -/
theorem Table.mem_set {cfg : List Entry} (h : Table cfg) {k v : List UInt8} (hk : GoodKey k)
    {e : Entry} (he : e ∈ configSet cfg k v) :
    (e.key = k ∧ e.val = configValue v) ∨ (e ∈ cfg ∧ e.key ≠ k) := by
  cases hi : cfg.findIdx? (fun e => e.key = k) with
  | some i =>
      rw [configSet_old hi] at he
      obtain ⟨hlt, hkey, -⟩ := List.findIdx?_eq_some_iff_getElem.mp hi
      rw [decide_eq_true_eq] at hkey
      obtain ⟨j, hj⟩ := List.mem_iff_getElem?.mp he
      rw [List.getElem?_modify] at hj
      cases hc : cfg[j]? with
      | none =>
          rw [hc] at hj
          exact nomatch hj
      | some e' =>
          rw [hc] at hj
          obtain ⟨hjlt, hje⟩ := List.getElem?_eq_some_iff.mp hc
          by_cases hij : i = j
          · subst hij
            have he' : (if i = i then { e' with val := configValue v } else e') = e :=
              Option.some.inj hj
            rw [if_pos rfl] at he'
            rw [← he', ← hje]
            exact .inl ⟨hkey, rfl⟩
          · have he' : (if i = j then { e' with val := configValue v } else e') = e :=
              Option.some.inj hj
            rw [if_neg hij] at he'
            subst he'
            refine .inr ⟨List.mem_of_getElem? hc, fun hek => hij ?_⟩
            have hnodup := h.keys
            rw [List.nodup_iff_injective_getElem] at hnodup
            have := @hnodup ⟨i, by rw [List.length_map]; exact hlt⟩
              ⟨j, by rw [List.length_map]; exact hjlt⟩ (by simp [hkey, hje, hek])
            exact congrArg Fin.val this
  | none =>
      have hall : ∀ e ∈ cfg, e.key ≠ k := by
        intro e he
        exact of_decide_eq_false (List.findIdx?_eq_none_iff.mp hi e he)
      have hnew : k ∉ cfg.map (·.key) := by
        intro hmem
        obtain ⟨e, he, hek⟩ := List.mem_map.mp hmem
        exact hall e he hek
      by_cases hfull : cfg.length = cfgMax
      · have hsame : configSet cfg k v = cfg := by
          unfold configSet
          rw [hi]
          exact if_pos hfull
        rw [hsame] at he
        exact .inr ⟨he, hall e he⟩
      · rw [configSet_new hnew hfull] at he
        rcases List.mem_append.mp he with he | he
        · exact .inr ⟨he, hall e he⟩
        · rw [List.mem_singleton.mp he]
          exact .inl ⟨List.take_of_length_le hk.short, rfl⟩

theorem Table.set {cfg : List Entry} (h : Table cfg) {k v : List UInt8} (hk : GoodKey k)
    (hv : (0 : UInt8) ∉ v) : Table (configSet cfg k v) := by
  have hclip := configValue_clipped v
  have hgood : ∀ e ∈ configSet cfg k v, GoodEntry e := by
    intro e he
    rcases h.mem_set hk he with ⟨hkey, hval⟩ | ⟨hold, -⟩
    · refine ⟨by rw [hkey]; exact hk, ?_, ?_, ?_⟩
      · rw [hval]
        exact hclip.short
      · rw [hval]
        exact hclip.line
      · rw [hval]
        exact fun h0 => hv (hclip.beginning.subset h0)
    · exact h.good e hold
  cases hi : cfg.findIdx? (fun e => e.key = k) with
  | some i =>
      refine ⟨?_, ?_, hgood⟩
      · rw [configSet_old hi, List.length_modify]
        exact h.length
      · rw [configSet_old hi, modify_keys]
        exact h.keys
  | none =>
      have hnew : k ∉ cfg.map (·.key) := by
        intro hmem
        obtain ⟨e, he, hek⟩ := List.mem_map.mp hmem
        exact of_decide_eq_false (List.findIdx?_eq_none_iff.mp hi e he) hek
      by_cases hfull : cfg.length = cfgMax
      · have hsame : configSet cfg k v = cfg := by
          unfold configSet
          rw [hi]
          exact if_pos hfull
        rw [hsame]
        exact h
      · have hlen := h.length
        refine ⟨?_, ?_, hgood⟩
        · rw [configSet_new hnew hfull, List.length_append, List.length_singleton]
          omega
        · rw [configSet_new hnew hfull, List.map_append]
          have htake : k.take (keySize - 1) = k := List.take_of_length_le hk.short
          show (cfg.map (·.key) ++ [k.take (keySize - 1)]).Nodup
          rw [htake, ← List.concat_eq_append]
          exact h.keys.concat hnew

/-- The value that was set last for a key. -/
def lastSet (sets : List (List UInt8 × List UInt8)) (k : List UInt8) : Option (List UInt8) :=
  (sets.reverse.find? fun kv => kv.1 = k).map (·.2)

/-- The table after some settings, from none. -/
def tableOf (sets : List (List UInt8 × List UInt8)) : List Entry :=
  sets.foldl (fun cfg kv => configSet cfg kv.1 kv.2) []

/-- Settings with keys that fit, and strings. -/
def GoodSets (sets : List (List UInt8 × List UInt8)) : Prop :=
  ∀ kv ∈ sets, GoodKey kv.1 ∧ (0 : UInt8) ∉ kv.2

theorem tableOf_spec {sets : List (List UInt8 × List UInt8)} (h : GoodSets sets) :
    Table (tableOf sets)
      ∧ ∀ e ∈ tableOf sets, ∃ v, lastSet sets e.key = some v ∧ e.val = configValue v := by
  induction sets using List.reverseRecOn with
  | nil => exact ⟨table_nil, fun _ he => nomatch he⟩
  | append_singleton sets kv ih =>
      obtain ⟨htable, hlast⟩ := ih fun kv' hkv => h kv' (List.mem_append_left _ hkv)
      obtain ⟨hk, hv⟩ := h kv (List.mem_append_right _ List.mem_cons_self)
      have hfold : tableOf (sets ++ [kv]) = configSet (tableOf sets) kv.1 kv.2 := by
        unfold tableOf
        rw [List.foldl_append]
        rfl
      rw [hfold]
      refine ⟨htable.set hk hv, fun e he => ?_⟩
      unfold lastSet
      rw [List.reverse_append, List.reverse_singleton, List.singleton_append]
      rcases htable.mem_set hk he with ⟨hkey, hval⟩ | ⟨hold, hne⟩
      · rw [List.find?_cons_of_pos (by rw [decide_eq_true_eq]; exact hkey.symm)]
        exact ⟨kv.2, rfl, hval⟩
      · rw [List.find?_cons_of_neg (by rw [decide_eq_true_eq]; exact fun heq => hne heq.symm)]
        exact hlast e hold

-- ==================================================================== text

/-- The lines in front of the entries. -/
def headLines : List (List UInt8) :=
  [configMagic, text "# Written by the app. Keep it exactly 512 bytes (overwritten in place)."]

def entryLine (e : Entry) : List UInt8 := e.key ++ ch '=' :: e.val

set_option maxRecDepth 4000 in
theorem configHead_eq : configHead = headLines.flatMap (fun l => l ++ [lf])
    ∧ ch '%' ∉ configHead ∧ configHead.length ≤ 510 := by
  decide

set_option maxRecDepth 4000 in
theorem headLines_plain : ∀ l ∈ headLines, lf ∉ l ∧ (0 : UInt8) ∉ l ∧ ch '=' ∉ l := by
  decide

theorem fullText_entry {e : Entry} (h : GoodEntry e) :
    fullText noFloat (text "%s=%s\n") [.ptr 1 e.key, .ptr 1 e.val] = entryLine e ++ [lf] := by
  have hkey := h.key.short
  have hval := h.short
  have hfmt : text "%s=%s\n" = ch '%' :: ch 's' :: ([ch '='] ++ (ch '%' :: ch 's' :: ([lf] ++ []))) := by
    decide
  rw [hfmt, fullText_s (by decide) (by omega), fullText_lit (by decide),
    fullText_s (by decide) (by omega), fullText_lit (by decide), fullText_nil]
  unfold entryLine
  simp only [List.append_assoc, List.cons_append, List.nil_append]

/-- The lines of the entries, if they were all written. -/
theorem entriesText_eq {es : List Entry} (h : ∀ e ∈ es, GoodEntry e) {t t' : List UInt8}
    (ht : t.length ≤ 510) (hsome : entriesText es t = some t') :
    t' = t ++ (es.map entryLine).flatMap (fun l => l ++ [lf]) ∧ t'.length ≤ 510 := by
  induction es generalizing t with
  | nil =>
      cases hsome
      exact ⟨(List.append_nil _).symm, ht⟩
  | cons e es ih =>
      have he := h e List.mem_cons_self
      have hkey := he.key.short
      have hval := he.short
      have hlen : (entryLine e ++ [lf]).length ≤ 48 := by
        unfold entryLine
        simp only [List.length_append, List.length_cons, List.length_nil]
        omega
      have hn : (vsnprintf noFloat (cfgSize - t.length) (text "%s=%s\n") [.ptr 1 e.key, .ptr 1 e.val]).1
          = (entryLine e ++ [lf]).length := by
        rw [vsnprintf_result, fullText_entry he, u32_of_lt (by omega),
          s32_of_range (by omega) (by omega)]
      unfold entriesText snprintf at hsome
      dsimp only at hsome
      rw [hn, fullText_entry he] at hsome
      unfold cfgSize at hsome
      split at hsome
      · exact nomatch hsome
      · next hroom =>
        rw [List.take_of_length_le (by omega)] at hsome
        obtain ⟨ht', hle⟩ := ih (fun e' he' => h e' (List.mem_cons_of_mem e he'))
          (by rw [List.length_append]; omega) hsome
        refine ⟨?_, hle⟩
        rw [ht', List.map_cons, List.flatMap_cons, List.append_assoc]

/-- All the lines of the sector. -/
def allLines (cfg : List Entry) (pad : Nat) : List (List UInt8) :=
  headLines ++ cfg.map entryLine ++ [ch '#' :: List.replicate pad (ch '#')]

theorem sectorText_eq {cfg : List Entry} (h : ∀ e ∈ cfg, GoodEntry e) {t : List UInt8}
    (hsome : sectorText cfg = some t) :
    t.length = 512 ∧ ∃ pad, t = (allLines cfg pad).flatMap fun l => l ++ [lf] := by
  have hhead : (snprintf cfgSize configHead []).2 = configHead := by
    have htext : fullText noFloat configHead [] = configHead := by
      have hlit := @fullText_lit Unit noFloat configHead configHead_eq.2.1 [] []
      rw [List.append_nil, fullText_nil, List.append_nil] at hlit
      exact hlit
    have hlen := configHead_eq.2.2
    unfold snprintf cfgSize
    dsimp only
    rw [htext]
    exact List.take_of_length_le (by omega)
  unfold sectorText at hsome
  rw [hhead] at hsome
  obtain ⟨t', ht', rfl⟩ := Option.map_eq_some_iff.mp hsome
  obtain ⟨heq, hlen⟩ := entriesText_eq h configHead_eq.2.2 ht'
  refine ⟨?_, 510 - t'.length, ?_⟩
  · unfold cfgSize
    simp only [List.length_append, List.length_replicate, List.length_cons, List.length_nil]
    omega
  · have hpad : cfgSize - 1 - t'.length = 510 - t'.length + 1 := by
      unfold cfgSize
      omega
    rw [hpad, List.replicate_succ]
    unfold allLines
    rw [List.flatMap_append, List.flatMap_append, ← configHead_eq.1, ← heq]
    simp only [List.flatMap_cons, List.flatMap_nil, List.append_nil, List.append_assoc,
      List.cons_append]

-- ================================================================== loading

theorem configParse_comment (cfg : List Entry) {l : List UInt8} (h : l.head? = some (ch '#')) :
    configParse cfg l = cfg := by
  unfold configParse
  split
  · rfl
  · exact if_neg fun hl => hl.1 h

theorem foldl_comments {ls : List (List UInt8)} (h : ∀ l ∈ ls, l.head? = some (ch '#'))
    (cfg : List Entry) : ls.foldl configParse cfg = cfg := by
  induction ls with
  | nil => rfl
  | cons l ls ih =>
      rw [List.foldl_cons, configParse_comment cfg (h l List.mem_cons_self)]
      exact ih fun k hk => h k (List.mem_cons_of_mem l hk)

theorem configParse_entry {cfg : List Entry} {e : Entry} (he : GoodEntry e)
    (hnew : e.key ∉ cfg.map (·.key)) (hroom : cfg.length ≠ cfgMax) :
    configParse cfg (entryLine e) = cfg ++ [e] := by
  have hpos := he.key.pos
  have hhead : (entryLine e).head? ≠ some (ch '#') := by
    have hfirst := he.key.first
    unfold entryLine
    cases hk : e.key with
    | nil => exact absurd hk hpos
    | cons c k =>
        rw [hk] at hfirst
        exact hfirst
  have htake : e.key.take (keySize - 1) = e.key := List.take_of_length_le he.key.short
  unfold configParse
  rw [entryLine, keyValue_eq he.key.plain.1]
  rw [entryLine] at hhead
  dsimp only
  rw [if_pos ⟨hhead, hpos⟩, configSet_new hnew hroom, configValue_of_clipped he.short he.line,
    htake]

/-- A table's lines set its entries. -/
theorem foldl_entries {cfg es : List Entry} (h : Table (cfg ++ es)) :
    (es.map entryLine).foldl configParse cfg = cfg ++ es := by
  induction es generalizing cfg with
  | nil => exact (List.append_nil cfg).symm
  | cons e es ih =>
      have hlen := h.length
      rw [List.length_append, List.length_cons] at hlen
      have hkeys := h.keys
      rw [List.map_append, List.nodup_append] at hkeys
      have hnew : e.key ∉ cfg.map (·.key) := by
        intro hmem
        exact hkeys.2.2 e.key hmem e.key List.mem_cons_self rfl
      rw [List.map_cons, List.foldl_cons,
        configParse_entry (h.good e (List.mem_append_right _ List.mem_cons_self)) hnew (by omega),
        ih (by rw [List.append_assoc]; exact h), List.append_assoc]
      rfl

theorem hashes_clean {c : UInt8} (hc : c ≠ ch '#') (pad : Nat) :
    c ∉ ch '#' :: List.replicate pad (ch '#') := by
  rw [← List.replicate_succ]
  exact fun h => hc (List.eq_of_mem_replicate h)

/-- No line feed and no NUL is within a line. -/
theorem allLines_clean {cfg : List Entry} (h : ∀ e ∈ cfg, GoodEntry e) {pad : Nat} {l : List UInt8}
    (hl : l ∈ allLines cfg pad) : lf ∉ l ∧ (0 : UInt8) ∉ l := by
  unfold allLines at hl
  rcases List.mem_append.mp hl with hl | hl
  · rcases List.mem_append.mp hl with hl | hl
    · exact ⟨(headLines_plain l hl).1, (headLines_plain l hl).2.1⟩
    · obtain ⟨e, he, rfl⟩ := List.mem_map.mp hl
      have hgood := h e he
      have hplain := hgood.key.plain
      unfold entryLine
      constructor
      · intro hmem
        rcases List.mem_append.mp hmem with hkey | hval
        · exact hplain.2.1 hkey
        · rcases List.mem_cons.mp hval with heq | hval
          · exact absurd heq (by decide)
          · exact hgood.line.2 hval
      · intro hmem
        rcases List.mem_append.mp hmem with hkey | hval
        · exact hplain.2.2 hkey
        · rcases List.mem_cons.mp hval with heq | hval
          · exact absurd heq (by decide)
          · exact hgood.str hval
  · rw [List.mem_singleton.mp hl]
    exact ⟨hashes_clean (by decide) pad, hashes_clean (by decide) pad⟩

/-- The lines of a table's sector parse to the table. -/
theorem foldl_allLines {cfg : List Entry} (h : Table cfg) (pad : Nat) :
    (allLines cfg pad).foldl configParse [] = cfg := by
  have hhead : ∀ l ∈ headLines, l.head? = some (ch '#') := by decide
  have hpad : ∀ l ∈ [ch '#' :: List.replicate pad (ch '#')], l.head? = some (ch '#') := by
    intro l hl
    rw [List.mem_singleton.mp hl]
    rfl
  unfold allLines
  rw [List.foldl_append, List.foldl_append, foldl_comments hhead, foldl_comments hpad]
  exact @foldl_entries [] cfg h

section Files

variable {σ : Type} (readFile : List UInt8 → Nat → σ → List UInt8)
  (overwrite : List UInt8 → List UInt8 → List UInt8 → σ → Bool × σ)

theorem configLoad_text {cfg : List Entry} (h : Table cfg) {dir path t : List UInt8} {s : σ}
    (hpath : cfgPath dir = some path) (htext : sectorText cfg = some t)
    (hread : readFile path cfgSize s = t) : configLoad readFile dir s = (true, cfg) := by
  obtain ⟨hlen, pad, hlines⟩ := sectorText_eq h.good htext
  have hne : t ≠ [] := by
    rintro rfl
    exact absurd hlen (by decide)
  have hnul : t.takeWhile (· ≠ 0) = t := by
    rw [List.takeWhile_eq_self_iff]
    intro c hc
    rw [hlines] at hc
    obtain ⟨l, hl, hcl⟩ := List.mem_flatMap.mp hc
    rw [decide_eq_true_eq]
    rintro rfl
    rcases List.mem_append.mp hcl with hcl | hcl
    · exact (allLines_clean h.good hl).2 hcl
    · exact absurd (List.mem_singleton.mp hcl) (by decide)
  have hpieces : pieces lf t = allLines cfg pad := by
    have hall := @pieces_lines _ _ lf (allLines cfg pad)
      (fun l hl => (allLines_clean h.good hl).1) []
    rw [List.append_nil, pieces_nil, List.append_nil] at hall
    rw [hlines]
    exact hall
  unfold configLoad
  rw [hpath]
  dsimp only
  rw [hread, if_neg hne, hnul, hpieces, foldl_allLines h]

/-- Settings that were saved load again, in order; a table that does not fit
is refused and nothing is written. -/
theorem config_kept
    (hstore : ∀ path data magic s s', overwrite path data magic s = (true, s') →
      data.length = 512 → readFile path 512 s' = data)
    {sets : List (List UInt8 × List UInt8)} (h : GoodSets sets) (dir : List UInt8) (s : σ) :
    let cfg := tableOf sets
    (∀ s', configSave overwrite dir cfg s = (true, s') → configLoad readFile dir s' = (true, cfg))
      ∧ (∀ e ∈ cfg, ∃ v, lastSet sets e.key = some v ∧ Clipped v e.val)
      ∧ (sectorText cfg = none → configSave overwrite dir cfg s = (false, s)) := by
  intro cfg
  obtain ⟨htable, hlast⟩ := tableOf_spec h
  refine ⟨fun s' hsave => ?_, fun e he => ?_, fun hnone => ?_⟩
  · unfold configSave at hsave
    cases hpath : cfgPath dir with
    | none =>
        rw [hpath] at hsave
        exact nomatch hsave
    | some path =>
        cases htext : sectorText cfg with
        | none =>
            rw [hpath, htext] at hsave
            exact nomatch hsave
        | some t =>
            rw [hpath, htext] at hsave
            have hlen := (sectorText_eq htable.good htext).1
            exact configLoad_text readFile htable hpath htext (hstore _ _ _ _ _ hsave hlen)
  · obtain ⟨v, hv, hval⟩ := hlast e he
    exact ⟨v, hv, hval ▸ configValue_clipped v⟩
  · unfold configSave
    rw [hnone]
    cases cfgPath dir <;> rfl

end Files

/-- A stick of one file. -/
def oneSector (_ data _ : List UInt8) (_ : List UInt8) : Bool × List UInt8 := (true, data)

theorem oneSector_store : ∀ path data magic s s', oneSector path data magic s = (true, s') →
    data.length = 512 →
      (fun _ n s => s.take n : List UInt8 → Nat → List UInt8 → List UInt8) path 512 s' = data := by
  intro path data magic s s' h hlen
  cases h
  exact List.take_of_length_le (Nat.le_of_eq hlen)

def volumeSets : List (List UInt8 × List UInt8) :=
  [(text "volume", text "70"), (text "song", text "a=b#c"), (text "volume", text "75\n")]

theorem config_kept_volume :
    (∃ s', configSave oneSector (text "MUSIC") (tableOf volumeSets) [] = (true, s'))
      ∧ ∀ s', configSave oneSector (text "MUSIC") (tableOf volumeSets) [] = (true, s') →
        configLoad (fun _ n s => s.take n) (text "MUSIC") s' = (true, tableOf volumeSets) := by
  have hgood : GoodSets volumeSets := by
    have hvolume : GoodKey (text "volume") := ⟨by decide, by decide, by decide, by decide⟩
    have hsong : GoodKey (text "song") := ⟨by decide, by decide, by decide, by decide⟩
    intro kv hkv
    simp only [volumeSets, List.mem_cons, List.not_mem_nil, or_false] at hkv
    rcases hkv with rfl | rfl | rfl
    · exact ⟨hvolume, by decide⟩
    · exact ⟨hsong, by decide⟩
    · exact ⟨hvolume, by decide⟩
  have hroom : (sectorText (tableOf volumeSets)).isSome := by decide +kernel
  have hpath : (cfgPath (text "MUSIC")).isSome := by decide
  refine ⟨?_, (config_kept (fun _ n s => s.take n) oneSector oneSector_store hgood _ []).1⟩
  obtain ⟨t, ht⟩ := Option.isSome_iff_exists.mp hroom
  obtain ⟨path, hp⟩ := Option.isSome_iff_exists.mp hpath
  unfold configSave
  rw [hp, ht]
  exact ⟨t, rfl⟩

end Ncmips.Sdk
