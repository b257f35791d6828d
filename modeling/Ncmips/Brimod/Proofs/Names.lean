/-
WiFi names on their way from the bridge's scan to its `wifi_connect`.

The box sees the reply as far as its buffer goes: some lines, and what is
left of one (`seen`). Of a line it takes the numbers and the name without
its leading spaces (`taken`). What `brimod_wifi_scan` returns is the first
entry of each name so taken (`scanLoop_seen`).
-/
import Ncmips.Lib.Firsts
import Ncmips.Brimod.Proofs.Mailbox

namespace Ncmips.Brimod

open Libc (ch text lf isDigit)
open Firsts Lines Words

-- ================================================================== numbers

/-- A digit's character: its value, and what it is not. -/
theorem digit_char {d : Nat} (hd : d < 10) :
    isDigit (ch '0' + UInt8.ofNat d) = true ∧ (ch '0' + UInt8.ofNat d - ch '0').toNat = d
      ∧ isSpace (ch '0' + UInt8.ofNat d) = false
      ∧ ch '0' + UInt8.ofNat d ∉ [ch '-', ch '+', sp, lf] := by
  have h : ∀ d < 10, isDigit (ch '0' + UInt8.ofNat d) = true
      ∧ (ch '0' + UInt8.ofNat d - ch '0').toNat = d
      ∧ isSpace (ch '0' + UInt8.ofNat d) = false
      ∧ ch '0' + UInt8.ofNat d ∉ [ch '-', ch '+', sp, lf] := by decide
  exact h d hd

theorem decimalNat_digit {n : Nat} {c : UInt8} (hc : c ∈ decimalNat n) :
    ∃ d < 10, c = ch '0' + UInt8.ofNat d := by
  fun_induction decimalNat n with
  | case1 n hn => exact ⟨n, hn, List.mem_singleton.1 hc⟩
  | case2 n hn ih =>
      rcases List.mem_append.1 hc with h | h
      · exact ih h
      · exact ⟨n % 10, Nat.mod_lt n (by decide), List.mem_singleton.1 h⟩

theorem decimalNat_isDigit {n : Nat} {c : UInt8} (hc : c ∈ decimalNat n) : isDigit c = true := by
  obtain ⟨d, hd, rfl⟩ := decimalNat_digit hc
  exact (digit_char hd).1

theorem decimalNat_plain {n : Nat} {c : UInt8} (hc : c ∈ decimalNat n) :
    isSpace c = false ∧ c ∉ [ch '-', ch '+', sp, lf] := by
  obtain ⟨d, hd, rfl⟩ := decimalNat_digit hc
  exact (digit_char hd).2.2

theorem decimalNat_ne_nil (n : Nat) : decimalNat n ≠ [] := by
  unfold decimalNat
  split
  · exact List.cons_ne_nil _ _
  · exact List.append_ne_nil_of_right_ne_nil _ (List.cons_ne_nil _ _)

theorem decimalNat_length {n k : Nat} (hk : 0 < k) (hn : n < 10 ^ k) :
    (decimalNat n).length ≤ k := by
  fun_induction decimalNat n generalizing k with
  | case1 n h => exact hk
  | case2 n h ih =>
      rw [List.length_append, List.length_singleton]
      rcases Nat.lt_or_ge 1 k with h1 | h1
      · have hpow : 10 ^ k = 10 ^ (k - 1) * 10 := by
          rw [← Nat.pow_succ]
          congr 1
          omega
        have := ih (show 0 < k - 1 by omega) (by omega)
        omega
      · obtain rfl : k = 1 := by omega
        omega

theorem digitsFrom_snoc {t : List UInt8} (h : ∀ c ∈ t, isDigit c = true) {c : UInt8}
    (hc : isDigit c = true) (v : Nat) :
    digitsFrom v (t ++ [c]) = u32 (digitsFrom v t * 10 + (c - ch '0').toNat) := by
  induction t generalizing v with
  | nil => simp [digitsFrom, hc]
  | cons d t ih =>
      rw [List.cons_append, digitsFrom, if_pos (h d List.mem_cons_self), digitsFrom,
        if_pos (h d List.mem_cons_self)]
      exact ih (fun c hc => h c (List.mem_cons_of_mem d hc)) _

theorem digitsFrom_decimalNat {n : Nat} (hn : n < 2 ^ 32) : digitsFrom 0 (decimalNat n) = n := by
  fun_induction decimalNat n with
  | case1 n h =>
      obtain ⟨hdigit, hval, -⟩ := digit_char h
      rw [digitsFrom, if_pos hdigit, hval, digitsFrom, Nat.zero_mul, Nat.zero_add, u32_of_lt hn]
  | case2 n h ih =>
      obtain ⟨hdigit, hval, -⟩ := digit_char (Nat.mod_lt n (show 0 < 10 by decide))
      rw [digitsFrom_snoc (fun c hc => decimalNat_isDigit hc) hdigit, ih (by omega), hval,
        Nat.div_add_mod' n 10, u32_of_lt hn]

/-- A number that the box reads whole. -/
def Short (n : Int) : Prop := -10 ^ 6 < n ∧ n < 10 ^ 7

theorem decimal_length {n : Int} (h : Short n) : (decimal n).length ≤ 7 := by
  unfold Short at h
  unfold decimal
  split
  · have := @decimalNat_length n.natAbs 6 (by decide) (by omega)
    rw [List.length_cons]
    omega
  · exact decimalNat_length (by decide) (by omega)

theorem decimal_plain {n : Int} {c : UInt8} (hc : c ∈ decimal n) : c ≠ sp ∧ c ≠ lf := by
  have hdigits : ∀ {m}, c ∈ decimalNat m → c ≠ sp ∧ c ≠ lf := by
    intro m hm
    obtain ⟨-, hnot⟩ := decimalNat_plain hm
    exact ⟨fun h => hnot (by simp [h]), fun h => hnot (by simp [h])⟩
  unfold decimal at hc
  split at hc
  · rcases List.mem_cons.1 hc with rfl | hc
    · decide
    · exact hdigits hc
  · exact hdigits hc

theorem decimal_ne_nil (n : Int) : decimal n ≠ [] := by
  unfold decimal
  split
  · exact List.cons_ne_nil _ _
  · exact decimalNat_ne_nil _

theorem atoi_decimal {n : Int} (h : Short n) : atoi (decimal n) = n := by
  unfold Short at h
  unfold decimal
  split
  · next hneg =>
    have hdash : (ch '-' :: decimalNat n.natAbs).dropWhile isSpace
        = ch '-' :: decimalNat n.natAbs := rfl
    unfold atoi
    rw [hdash]
    dsimp only
    rw [if_pos rfl, digitsFrom_decimalNat (by omega), s32_of_range (by omega) (by omega)]
    omega
  · next hpos =>
    obtain ⟨c, t, hct⟩ := List.exists_cons_of_ne_nil (decimalNat_ne_nil n.natAbs)
    have hmem : c ∈ decimalNat n.natAbs := by
      rw [hct]
      exact List.mem_cons_self
    obtain ⟨hspace, hnot⟩ := decimalNat_plain hmem
    have hval := @digitsFrom_decimalNat n.natAbs (by omega)
    rw [hct] at hval ⊢
    unfold atoi
    rw [List.dropWhile_cons_of_neg (by simp [hspace])]
    dsimp only
    rw [if_neg fun h => hnot (by simp [h]), if_neg fun h => hnot (by simp [h]), hval,
      s32_of_range (by omega) (by omega)]
    omega

-- ==================================================================== words

variable {p : UInt8 → Bool} {w rest : List UInt8} {room : Nat}

/-- A stretch ends where the next byte, if there is one, is not of it. -/
theorem takeWhile_stop (hw : ∀ c ∈ w, p c = true) {c : UInt8} (hc : p c = false) (k : Nat) :
    (w ++ (c :: rest).take k).takeWhile p = w := by
  rw [List.takeWhile_append_of_pos hw]
  cases k with
  | zero => rw [List.take_zero, List.takeWhile_nil, List.append_nil]
  | succ k => rw [List.take_succ_cons, List.takeWhile_cons_of_neg (by simp [hc]), List.append_nil]

theorem dropWhile_stop (hw : ∀ c ∈ w, p c = true) {c : UInt8} (hc : p c = false) (k : Nat) :
    (w ++ (c :: rest).take k).dropWhile p = (c :: rest).take k := by
  rw [List.dropWhile_append_of_pos hw]
  cases k with
  | zero => rfl
  | succ k => rw [List.take_succ_cons, List.dropWhile_cons_of_neg (by simp [hc])]

/-- A word that is not empty, in a text that ends anywhere. -/
theorem word_take (hne : w ≠ []) (hw : ∀ c ∈ w, c ≠ sp ∧ c ≠ lf) (max : Nat) :
    word ((w ++ sp :: rest).take room) max
      = ((w.take room).take (max - 1), (sp :: rest).take (room - w.length)) := by
  have hskip : ((w ++ sp :: rest).take room).dropWhile (· = sp) = (w ++ sp :: rest).take room := by
    obtain ⟨c, t, rfl⟩ := List.exists_cons_of_ne_nil hne
    have hc := (hw c List.mem_cons_self).1
    cases room with
    | zero => rfl
    | succ room =>
        rw [List.cons_append, List.take_succ_cons, List.dropWhile_cons_of_neg (by simp [hc])]
  have hall : ∀ c ∈ w.take room, decide (c ≠ sp ∧ c ≠ lf) = true :=
    fun c hc => decide_eq_true (hw c (List.mem_of_mem_take hc))
  have hstop : decide (sp ≠ sp ∧ sp ≠ lf) = false := by decide
  unfold word
  rw [hskip, List.take_append]
  dsimp only
  rw [takeWhile_stop hall hstop, dropWhile_stop hall hstop]

/-- The space before a word does not count. -/
theorem word_space (rest : List UInt8) (k max : Nat) :
    word ((sp :: rest).take k) max = word (rest.take (k - 1)) max := by
  cases k with
  | zero => rfl
  | succ k =>
      rw [List.take_succ_cons, Nat.add_sub_cancel]
      unfold word
      rw [List.dropWhile_cons_of_pos (by decide)]

/-- A name up to the end of its line or of the text, without the spaces it
begins with. -/
theorem copyLine_take {name : List UInt8} (hname : lf ∉ name) (hlen : name.length ≤ 32) :
    copyLine ((name ++ lf :: rest).take room) 33 = (name.take room).dropWhile (· = sp) := by
  have hdrop : ((name ++ lf :: rest).take room).dropWhile (· = sp)
      = (name.take room).dropWhile (· = sp) ++ (lf :: rest).take (room - name.length) := by
    rw [List.take_append, List.dropWhile_append]
    split
    · next hempty =>
      rw [List.isEmpty_iff.1 hempty, List.nil_append]
      exact @dropWhile_stop (· = sp) [] rest (fun c hc => nomatch hc) lf (by decide) _
    · rfl
  have hall : ∀ c ∈ (name.take room).dropWhile (· = sp), decide (c ≠ lf) = true := by
    intro c hc
    have hmem := List.mem_of_mem_take ((List.dropWhile_sublist _).subset hc)
    refine decide_eq_true ?_
    rintro rfl
    exact hname hmem
  unfold copyLine
  rw [hdrop, takeWhile_stop hall (by decide)]
  apply List.take_of_length_le
  have h1 := (List.dropWhile_sublist (l := name.take room) (· = sp)).length_le
  rw [List.length_take] at h1
  omega

-- ==================================================================== lines

/-- What the WiFi library promises of a network: a name of 1 to 32 bytes
(a line break or a 0 in it is beyond this protocol), and numbers of a few
digits. -/
structure Visible (n : Net) : Prop where
  name : n.ssid ≠ []
  short : n.ssid.length ≤ 32
  line : lf ∉ n.ssid
  nul : 0 ∉ n.ssid
  rssi : Short n.rssi
  channel : Short n.channel

/-- The box's entry for a network. -/
def Net.entry (n : Net) : Entry :=
  { ssid := n.ssid, rssi := n.rssi, channel := n.channel, secure := n.secure.toInt }

/-- What the box takes for the name. -/
def Net.taken (n : Net) : Entry := { n.entry with ssid := n.ssid.dropWhile (· = sp) }

/-- A network whose line is cut off after `room` bytes. -/
def Net.cut (n : Net) (room : Nat) : Net :=
  { n with ssid := n.ssid.take (room - n.head.length) }

theorem secure_short (b : Bool) : Short b.toInt := by
  cases b <;> exact ⟨by decide, by decide⟩

/-- A line, or what is left of it, read as far as the name. -/
theorem scanLine_take {n : Net} (hn : Visible n) :
    (scanLine ((n.line ++ rest).take room)).2
        = (n.ssid ++ lf :: rest).take (room - n.head.length)
      ∧ (scanLine ((n.line ++ rest).take room)).1.ssid = (n.cut room).taken.ssid
      ∧ ((n.cut room).ssid ≠ [] →
          (scanLine ((n.line ++ rest).take room)).1 = (n.cut room).taken) := by
  have htext : n.line ++ rest = decimal n.rssi ++ sp :: (decimal n.channel ++ sp ::
      (decimal n.secure.toInt ++ sp :: (n.ssid ++ lf :: rest))) := by
    simp [Net.line, Net.head, List.append_assoc]
  have hhead : n.head.length = (decimal n.rssi).length + 1 + ((decimal n.channel).length + 1)
      + ((decimal n.secure.toInt).length + 1) := by
    simp [Net.head]
    omega
  set N := n.ssid ++ lf :: rest
  have hw := fun (m : Int) (X : List UInt8) (k : Nat) =>
    @word_take (decimal m) X k (decimal_ne_nil m) (fun c hc => decimal_plain hc) 8
  have hlast : ∀ k : Nat, skipSpace ((sp :: N).take k) = N.take (k - 1) := by
    intro k
    cases k with
    | zero => rfl
    | succ k => rfl
  have hroom : room - (decimal n.rssi).length - 1 - (decimal n.channel).length - 1
      - (decimal n.secure.toInt).length - 1 = room - n.head.length := by omega
  have hread : scanLine ((n.line ++ rest).take room)
      = ({ ssid := (n.ssid.take (room - n.head.length)).dropWhile (· = sp)
           rssi := atoi (((decimal n.rssi).take room).take 7)
           channel := atoi (((decimal n.channel).take (room - (decimal n.rssi).length - 1)).take 7)
           secure := atoi (((decimal n.secure.toInt).take (room - (decimal n.rssi).length - 1
              - (decimal n.channel).length - 1)).take 7) },
          N.take (room - n.head.length)) := by
    unfold scanLine
    rw [htext, hw]
    dsimp only
    rw [word_space, hw]
    dsimp only
    rw [word_space, hw]
    dsimp only
    rw [hlast, hroom, copyLine_take hn.line hn.short]
  rw [hread]
  refine ⟨rfl, rfl, fun hne => ?_⟩
  -- some of the name is there, so the numbers are
  have hpos : n.head.length < room := by
    by_contra hle
    apply hne
    show n.ssid.take (room - n.head.length) = []
    rw [show room - n.head.length = 0 by omega, List.take_zero]
  have hnum : ∀ {m : Int} {k : Nat}, Short m → (decimal m).length ≤ k →
      atoi (((decimal m).take k).take 7) = m := by
    intro m k hm hk
    rw [List.take_of_length_le hk, List.take_of_length_le (decimal_length hm), atoi_decimal hm]
  rw [hnum hn.rssi (by omega), hnum hn.channel (by omega),
    hnum (secure_short n.secure) (by omega)]
  rfl

-- ==================================================================== the scan

/-- The networks as the first `room` bytes of their lines show them. -/
def seen : Nat → List Net → List Net
  | _, [] => []
  | room, n :: ns => n.cut room :: seen (room - n.line.length) ns

def collectEntries (max : Nat) (acc l : List Entry) : List Entry :=
  collect Entry.ssid (· ≠ []) max acc l

def collectNets (max : Nat) (acc l : List Net) : List Net :=
  collect Net.ssid (· ≠ []) max acc l

theorem line_length (n : Net) : n.line.length = n.head.length + (n.ssid.length + 1) := by
  rw [Net.line, List.length_append, List.length_append, List.length_singleton]

/-- Where the text has ended there are no names. -/
theorem seen_zero {m : Net} {nets : List Net} (h : m ∈ seen 0 nets) : m.ssid = [] := by
  induction nets with
  | nil => exact nomatch h
  | cons n ns ih =>
      rw [seen, Nat.zero_sub] at h
      rcases List.mem_cons.1 h with rfl | h
      · show n.ssid.take (0 - n.head.length) = []
        rw [Nat.zero_sub, List.take_zero]
      · exact ih h

theorem collect_seen_zero (max : Nat) (acc : List Entry) (nets : List Net) :
    collectEntries max acc ((seen 0 nets).map Net.taken) = acc := by
  apply collect_none
  intro e he hne
  obtain ⟨m, hm, rfl⟩ := List.mem_map.1 he
  apply hne
  show m.ssid.dropWhile (· = sp) = []
  rw [seen_zero hm]
  rfl

theorem addEntry_eq (nets : List Entry) (e : Entry) :
    addEntry nets e = add Entry.ssid (· ≠ []) nets e := by
  unfold addEntry add
  congr

/-- What the loop makes of the text is what it makes of the names it
sees. -/
theorem scanLoop_seen {max : Nat} {nets : List Net} (hnets : ∀ n ∈ nets, Visible n) (room : Nat)
    (acc : List Entry) :
    scanLoop max ((nets.flatMap Net.line).take room) acc
      = collectEntries max acc ((seen room nets).map Net.taken) := by
  induction nets generalizing room acc with
  | nil =>
      rw [List.flatMap_nil, List.take_nil, scanLoop, if_pos (.inl rfl)]
      rfl
  | cons n ns ih =>
      have hn := hnets n List.mem_cons_self
      have ih := ih fun m hm => hnets m (List.mem_cons_of_mem n hm)
      rcases Nat.lt_or_ge acc.length max with hlt | hge
      · rcases Nat.eq_zero_or_pos room with rfl | hpos
        · rw [List.take_zero, scanLoop, if_pos (.inl rfl), collect_seen_zero]
        · have hne : ((n :: ns).flatMap Net.line).take room ≠ [] := by
            rw [Ne, List.take_eq_nil_iff, not_or]
            refine ⟨by omega, fun hnil => ?_⟩
            have := congrArg List.length hnil
            rw [List.flatMap_cons, List.length_append, line_length, List.length_nil] at this
            omega
          rw [scanLoop, if_neg (not_or.2 ⟨hne, by omega⟩), List.flatMap_cons]
          obtain ⟨hrest, hname, hentry⟩ := @scanLine_take (ns.flatMap Net.line) room n hn
          have hadd : addEntry acc (scanLine ((n.line ++ ns.flatMap Net.line).take room)).1
              = add Entry.ssid (· ≠ []) acc (n.cut room).taken := by
            rw [addEntry_eq]
            by_cases hcut : (n.cut room).ssid = []
            · have hnil : (n.cut room).taken.ssid = [] := by
                show (n.cut room).ssid.dropWhile (· = sp) = []
                rw [hcut]
                rfl
              unfold add
              rw [if_neg fun h => h.1 (hname.trans hnil), if_neg fun h => h.1 hnil]
            · rw [hentry hcut]
          rw [seen, List.map_cons, collectEntries, collect_cons hlt, hadd, hrest]
          have hsplit : (n.ssid ++ lf :: ns.flatMap Net.line).take (room - n.head.length)
              = n.ssid.take (room - n.head.length) ++ (lf :: ns.flatMap Net.line).take
                  (room - n.head.length - n.ssid.length) := List.take_append
          have hall : ∀ c ∈ n.ssid.take (room - n.head.length), decide (c ≠ lf) = true := by
            intro c hc
            refine decide_eq_true ?_
            rintro rfl
            exact hn.line (List.mem_of_mem_take hc)
          have hnext : ((n.ssid ++ lf :: ns.flatMap Net.line).take
              (room - n.head.length)).dropWhile (· ≠ lf)
              = (lf :: ns.flatMap Net.line).take (room - n.head.length - n.ssid.length) := by
            rw [hsplit]
            exact dropWhile_stop hall (by decide) _
          rcases Nat.lt_or_ge (n.head.length + n.ssid.length) room with hmore | hend
          · -- the line is complete
            have hk : room - n.head.length - n.ssid.length
                = room - n.line.length + 1 := by
              rw [line_length]
              omega
            rw [hk, List.take_succ_cons] at hnext
            split
            · next h => exact absurd (hnext.symm.trans h) (List.cons_ne_nil _ _)
            · next rest h =>
              obtain ⟨-, rfl⟩ := List.cons.inj (hnext.symm.trans h)
              exact ih _ _
          · -- it is the last one
            rw [show room - n.head.length - n.ssid.length = 0 by omega, List.take_zero] at hnext
            have hzero : room - n.line.length = 0 := by
              rw [line_length]
              omega
            rw [hzero]
            split
            · exact (collect_seen_zero max _ ns).symm
            · next rest h => exact absurd (hnext.symm.trans h).symm (List.cons_ne_nil _ _)
      · rw [scanLoop, if_pos (.inr hge)]
        exact (collect_full hge _).symm

-- ==================================================================== names

/-- No space comes before the name's first letter. -/
def Plain (name : List UInt8) : Prop := name.head? ≠ some sp

theorem plain_iff {name : List UInt8} : Plain name ↔ name.dropWhile (· = sp) = name := by
  unfold Plain
  cases name with
  | nil => exact ⟨fun _ => rfl, fun _ => nofun⟩
  | cons c t =>
      by_cases hc : c = sp
      · subst hc
        refine ⟨fun h => absurd rfl h, fun h => ?_⟩
        rw [List.dropWhile_cons_of_pos (by decide)] at h
        have hle := (List.dropWhile_sublist (l := t) (· = sp)).length_le
        rw [h, List.length_cons] at hle
        omega
      · rw [List.dropWhile_cons_of_neg (by simp [hc])]
        simp [hc]

theorem plain_dropWhile (name : List UInt8) : Plain (name.dropWhile (· = sp)) := by
  induction name with
  | nil => exact nofun
  | cons c t ih =>
      by_cases hc : c = sp
      · rwa [List.dropWhile_cons_of_pos (by simpa using hc)]
      · rw [List.dropWhile_cons_of_neg (by simpa using hc)]
        exact fun h => hc (Option.some.inj h)

/-- What is left of a plain name is plain. -/
theorem Plain.take {name : List UInt8} (h : Plain name) (k : Nat) : Plain (name.take k) := by
  cases name with
  | nil => rwa [List.take_nil]
  | cons c t =>
      cases k with
      | zero => exact nofun
      | succ k => exact h

theorem taken_of_plain {n : Net} (h : Plain n.ssid) : n.taken = n.entry := by
  unfold Net.taken
  rw [plain_iff.1 h]
  rfl

theorem entry_inj {m n : Net} (h : m.entry = n.entry) : m = n := by
  obtain ⟨a, b, c, d⟩ := m
  obtain ⟨a', b', c', d'⟩ := n
  obtain ⟨rfl, rfl, rfl, hd⟩ := Entry.mk.inj h
  have hinj : ∀ d d' : Bool, d.toInt = d'.toInt → d = d' := by decide
  rw [hinj d d' hd]

theorem collect_entries (max : Nat) (acc l : List Net) :
    collectEntries max (acc.map Net.entry) (l.map Net.entry)
      = (collectNets max acc l).map Net.entry := collect_map (fun _ => rfl) acc l

/-- Where all names that are wanted are plain, the box takes each name it
sees as it is. -/
theorem collect_plain {max : Nat} {nets : List Net} (hnets : ∀ n ∈ nets, Visible n) (room : Nat)
    {acc : List Net} (hacc : ∀ n ∈ acc, Plain n.ssid)
    (hall : ∀ n ∈ collectNets max acc nets, Plain n.ssid) :
    collectEntries max (acc.map Net.entry) ((seen room nets).map Net.taken)
      = (collectNets max acc (seen room nets)).map Net.entry := by
  induction nets generalizing room acc with
  | nil => rfl
  | cons n ns ih =>
      have hn := hnets n List.mem_cons_self
      rcases Nat.lt_or_ge acc.length max with hlt | hge
      · rw [collectNets, collect_cons hlt] at hall
        have hplain : Plain n.ssid := by
          obtain ⟨m, hm, hkey⟩ := @key_mem_add _ _ _ Net.ssid (· ≠ []) _ n hn.name acc
          rw [← hkey]
          exact hall m (mem_collect_left hm ns)
        have htaken : (n.cut room).taken = (n.cut room).entry := taken_of_plain (hplain.take _)
        rcases Nat.lt_or_ge (n.head.length + n.ssid.length) (room + 1) with hwhole | hcut
        · have hsame : n.cut room = n := by
            unfold Net.cut
            rw [List.take_of_length_le (by omega)]
          have hadd : add Entry.ssid (· ≠ []) (acc.map Net.entry) n.entry
              = (add Net.ssid (· ≠ []) acc n).map Net.entry := add_map (fun _ => rfl) acc n
          rw [seen, List.map_cons, htaken, hsame, collectEntries,
            collect_cons (by rwa [List.length_map]), hadd, collectNets, collect_cons hlt]
          refine ih (fun m hm => hnets m (List.mem_cons_of_mem n hm)) _ (fun m hm => ?_) hall
          exact hall m (mem_collect_left hm ns)
        · -- nothing is seen of the lines after this one
          have hzero : room - n.line.length = 0 := by
            rw [line_length]
            omega
          have hrest : ∀ m ∈ seen 0 ns, m.taken = m.entry := by
            intro m hm
            refine taken_of_plain ?_
            rw [seen_zero hm]
            exact nofun
          rw [seen, hzero, List.map_cons, htaken, List.map_congr_left hrest, ← List.map_cons]
          exact collect_entries max acc _
      · rw [collectEntries, collect_full (by rwa [List.length_map]), collectNets, collect_full hge]

-- ================================================================= commands

variable {others : List UInt8 → Station → Bool × Station} {s : Station}

theorem rep_calls (s : Station) (t : List UInt8) : (s.rep t).calls = s.calls := by
  unfold Station.rep
  split <;> rfl

theorem rep_tx (s : Station) (t : List UInt8) : (s.rep t).bridge.tx = s.bridge.tx := by
  unfold Station.rep
  split <;> rfl

theorem rep_fits {t : List UInt8} (h : s.bridge.reply.length + t.length ≤ replyMax - 1) :
    (s.rep t).bridge.reply = s.bridge.reply ++ t := by
  unfold Station.rep
  split
  · next hfull =>
    have hnil : t = [] := List.length_eq_zero_iff.1 (by omega)
    rw [hnil, List.append_nil]
  · exact List.take_of_length_le (by rwa [List.length_append])

theorem foldl_rep (nets : List Net) (s : Station)
    (h : s.bridge.reply.length + (nets.flatMap Net.line).length ≤ replyMax - 1) :
    (nets.foldl (fun s n => s.rep n.line) s).bridge.reply
        = s.bridge.reply ++ nets.flatMap Net.line
      ∧ (nets.foldl (fun s n => s.rep n.line) s).bridge.tx = s.bridge.tx := by
  induction nets generalizing s with
  | nil => exact ⟨(List.append_nil _).symm, rfl⟩
  | cons n ns ih =>
      rw [List.flatMap_cons, List.length_append] at h
      have hrep := @rep_fits s n.line (by omega)
      obtain ⟨hreply, htx⟩ := ih (s.rep n.line) (by rw [hrep, List.length_append]; omega)
      rw [hrep, List.append_assoc, ← List.flatMap_cons] at hreply
      exact ⟨hreply, htx.trans (rep_tx s n.line)⟩

/-- A scan whose reply fits: the box looks through the first 3071 bytes of
it. -/
theorem scan_result (hs : Ready s)
    (hfits : (s.nets.flatMap Net.line).length ≤ replyMax - 1) {turns : Nat}
    (hturns : s.pauses + 2 ≤ turns) (max : Nat) :
    (brimodWifiScan others true turns max s).1
      = (((scanLoop max ((s.nets.flatMap Net.line).take 3071) []).length : Int),
          scanLoop max ((s.nets.flatMap Net.line).take 3071) []) := by
  set t := Station.served { s with bridge := s.bridge.taken (text "SCAN"), pauses := 0 } with ht
  have hrun : cmdRun others (text "SCAN") t = cmdScan t := by
    unfold cmdRun
    have hname : ((arg (text "SCAN") 0 false).takeWhile (· ≠ tab)).map toUpper = text "SCAN" := by
      decide
    rw [hname]
    dsimp only
    rw [if_neg (by decide), if_pos rfl]
  obtain ⟨hreply, htx⟩ := foldl_rep s.nets t (by
    rw [show t.bridge.reply.length = 0 from rfl, Nat.zero_add]
    exact hfits)
  have hreply : (cmdScan t).2.bridge.reply = s.nets.flatMap Net.line := hreply
  have hcmd := @brimodCmd_reply others s hs (text "SCAN") (by decide) (by decide) (by decide)
    turns 3072 hturns (by decide) (cmdScan t) hrun (htx.trans hs.clean) (by
      rw [hreply]
      exact Nat.lt_of_le_of_lt hfits (by decide))
  rw [hreply] at hcmd
  unfold brimodWifiScan
  rcases hres : brimodCmd others true turns (text "SCAN") 3072 s with ⟨⟨r, reply⟩, s'⟩
  rw [hres] at hcmd
  obtain ⟨rfl, rfl⟩ := Prod.mk.inj hcmd
  dsimp only
  rw [if_neg]
  exact Int.not_lt.2 (Int.natCast_nonneg _)

theorem wifiArgs_plain {ssid : List UInt8} (h : tab ∉ ssid) (pass : List UInt8) :
    wifiArgs (text "WIFI" ++ tab :: (ssid ++ tab :: pass)) = (ssid, pass) := by
  unfold wifiArgs
  rw [keyValue_eq (by decide)]
  dsimp only
  rw [keyValue_eq h]

/-- The bridge takes a name up to its first tab. -/
theorem wifiArgs_tab {ssid : List UInt8} (h : tab ∈ ssid) (pass : List UInt8) :
    (wifiArgs (text "WIFI" ++ tab :: (ssid ++ tab :: pass))).1 ≠ ssid := by
  obtain ⟨a, b, rfl, ha⟩ := List.eq_append_cons_of_mem h
  unfold wifiArgs
  rw [keyValue_eq (by decide)]
  dsimp only
  rw [List.append_assoc, List.cons_append, keyValue_eq ha]
  intro heq
  have hlen : a.length = (a ++ tab :: b).length := congrArg List.length heq
  rw [List.length_append, List.length_cons] at hlen
  omega

theorem cmdRun_wifi (rest : List UInt8) (t : Station) :
    cmdRun others (text "WIFI" ++ tab :: rest) t = cmdWifi (text "WIFI" ++ tab :: rest) t := by
  have hname : ((arg (text "WIFI" ++ tab :: rest) 0 false).takeWhile (· ≠ tab)).map toUpper
      = text "WIFI" := rfl
  unfold cmdRun
  rw [hname]
  exact if_pos rfl

theorem cmdWifi_calls (line : List UInt8) (t : Station) :
    (cmdWifi line t).2.calls
        = t.calls ++ (if (wifiArgs line).1 = [] then [] else [wifiArgs line])
      ∧ (cmdWifi line t).2.bridge.tx = t.bridge.tx := by
  unfold cmdWifi
  rcases wifiArgs line with ⟨ssid, pass⟩
  dsimp only
  split
  · exact ⟨(rep_calls _ _).trans (List.append_nil _).symm, rep_tx _ _⟩
  · have hcalls : ∀ u, ((wifiConnect ssid pass t).rep u).calls = t.calls ++ [(ssid, pass)] :=
      fun u => rep_calls _ _
    have htx : ∀ u, ((wifiConnect ssid pass t).rep u).bridge.tx = t.bridge.tx :=
      fun u => rep_tx _ _
    split <;> exact ⟨hcalls _, htx _⟩

/-- The bridge connects to the name and with the password it makes out of
the command. -/
theorem connect_calls (hs : Ready s) {ssid pass : List UInt8} (hne : ssid ≠ [])
    (hlen : ssid.length ≤ 32) (hnul : 0 ∉ ssid) (hpass : pass.length ≤ 63) (hnul' : 0 ∉ pass)
    {turns : Nat} (hturns : s.pauses + 2 ≤ turns) (max : Nat) :
    (brimodWifiConnect others true turns ssid pass max s).2.calls
      = s.calls ++ (if (wifiArgs (text "WIFI" ++ tab :: (ssid ++ tab :: pass))).1 = [] then []
          else [wifiArgs (text "WIFI" ++ tab :: (ssid ++ tab :: pass))]) := by
  set line := text "WIFI" ++ tab :: (ssid ++ tab :: pass) with hline
  have hlength : line.length = ssid.length + pass.length + 6 := by
    rw [hline, List.length_append, List.length_cons, List.length_append, List.length_cons,
      show (text "WIFI").length = 4 from rfl]
    omega
  have hmax : line.length ≤ boxCmdMax := by
    rw [hlength]
    unfold boxCmdMax
    omega
  have hzero : 0 ∉ line := by
    rw [hline, List.mem_append, List.mem_cons, List.mem_append, List.mem_cons]
    rintro (h | h | h | h | h)
    · exact absurd h (by decide)
    · exact absurd h (by decide)
    · exact hnul h
    · exact absurd h (by decide)
    · exact hnul' h
  set t := Station.served { s with bridge := s.bridge.taken line, pauses := 0 } with ht
  obtain ⟨hcalls, htx⟩ := cmdWifi_calls line t
  have hcmd := @brimodCmd_calls others s hs line (List.cons_ne_nil _ _) hmax hzero turns hturns max
    _ (cmdRun_wifi _ t) (htx.trans hs.clean)
  unfold brimodWifiConnect
  rw [← hlength, if_neg (by
    rintro (h | h | h | h)
    · exact hne h
    · omega
    · omega
    · omega)]
  rw [List.take_of_length_le hmax]
  exact hcmd.trans hcalls

-- ============================================================ names survive

/-- One entry for each name: the first `max` in the reply's order. -/
def wanted (max : Nat) (nets : List Net) : List Net := (firsts Net.ssid nets).take max

/-- The networks as the box's buffer shows them: the last name may be cut,
and the rest is not there. -/
def received (nets : List Net) : List Net := (seen 3071 nets).filter (·.ssid ≠ [])

/-- The names wanted are without leading spaces and tabs, and what the
buffer shows has the same first names. -/
structure Survives (max : Nat) (nets : List Net) : Prop where
  plain : ∀ n ∈ wanted max nets, Plain n.ssid
  tabless : ∀ n ∈ wanted max nets, tab ∉ n.ssid
  whole : wanted max (received nets) = wanted max nets

theorem collectNets_wanted (max : Nat) (nets : List Net) :
    collectNets max [] nets = wanted max (nets.filter (·.ssid ≠ [])) := by
  unfold collectNets
  rw [collect_firsts nets (Nat.zero_le max), List.nil_append]
  unfold wanted
  congr 1
  exact List.filter_eq_self.2 fun _ _ => rfl

theorem wanted_collect {max : Nat} {nets : List Net} (h : ∀ n ∈ nets, Visible n) :
    collectNets max [] nets = wanted max nets := by
  rw [collectNets_wanted, List.filter_eq_self.2 fun n hn => decide_eq_true (h n hn).name]

theorem wanted_sub {max : Nat} {nets : List Net} (h : ∀ n ∈ nets, Visible n) {n : Net}
    (hn : n ∈ wanted max nets) : n ∈ nets := by
  rw [← wanted_collect h] at hn
  rcases mem_collect hn with hn | hn
  · exact nomatch hn
  · exact hn

/-- What the box lists, when the names wanted are plain. -/
theorem scanLoop_plain {max : Nat} {nets : List Net} (h : ∀ n ∈ nets, Visible n)
    (hplain : ∀ n ∈ wanted max nets, Plain n.ssid) :
    scanLoop max ((nets.flatMap Net.line).take 3071) []
      = (wanted max (received nets)).map Net.entry := by
  rw [scanLoop_seen h]
  have hall : ∀ n ∈ collectNets max [] nets, Plain n.ssid := by
    rwa [wanted_collect h]
  have hlist := @collect_plain max nets h 3071 [] (fun _ hn => absurd hn List.not_mem_nil) hall
  rw [collectNets_wanted] at hlist
  exact hlist

/-- No name that the box lists begins with a space. -/
theorem scanLoop_names {max : Nat} {nets : List Net} (h : ∀ n ∈ nets, Visible n) (room : Nat)
    {e : Entry} (he : e ∈ scanLoop max ((nets.flatMap Net.line).take room) []) : Plain e.ssid := by
  rw [scanLoop_seen h] at he
  rcases mem_collect he with he | he
  · exact nomatch he
  · obtain ⟨m, -, rfl⟩ := List.mem_map.1 he
    exact plain_dropWhile _

theorem scan_exact {max : Nat} {nets : List Net} (h : ∀ n ∈ nets, Visible n) :
    scanLoop max ((nets.flatMap Net.line).take 3071) [] = (wanted max nets).map Net.entry
      ↔ (∀ n ∈ wanted max nets, Plain n.ssid) ∧ wanted max (received nets) = wanted max nets := by
  constructor
  · intro heq
    have hplain : ∀ n ∈ wanted max nets, Plain n.ssid := by
      intro n hn
      have hmem : n.entry ∈ scanLoop max ((nets.flatMap Net.line).take 3071) [] := by
        rw [heq]
        exact List.mem_map_of_mem hn
      exact scanLoop_names h 3071 hmem
    refine ⟨hplain, ?_⟩
    rw [scanLoop_plain h hplain] at heq
    exact List.map_injective_iff.2 (fun m n => entry_inj) heq
  · rintro ⟨hplain, hwhole⟩
    rw [scanLoop_plain h hplain, hwhole]

theorem connect_exact (hs : Ready s) {n : Net} (hn : Visible n) {turns : Nat}
    (hturns : s.pauses + 2 ≤ turns) {pass : List UInt8} (hpass : pass.length ≤ 63)
    (hnul : 0 ∉ pass) (max : Nat) :
    (brimodWifiConnect others true turns n.ssid pass max s).2.calls = s.calls ++ [(n.ssid, pass)]
      ↔ tab ∉ n.ssid := by
  rw [connect_calls hs hn.name hn.short hn.nul hpass hnul hturns]
  by_cases htab : tab ∈ n.ssid
  · refine ⟨fun heq => ?_, fun h => absurd htab h⟩
    have hargs := List.append_cancel_left heq
    split at hargs
    · exact nomatch hargs
    · exact absurd (congrArg Prod.fst (List.cons.inj hargs).1) (wifiArgs_tab htab pass)
  · rw [wifiArgs_plain htab, if_neg hn.name]
    exact ⟨fun _ => htab, fun _ => rfl⟩

theorem head_length {n : Net} (h : Visible n) : n.head.length ≤ 24 := by
  have h1 := decimal_length h.rssi
  have h2 := decimal_length h.channel
  have h3 := decimal_length (secure_short n.secure)
  simp only [Net.head, List.length_append, List.length_cons, List.length_nil]
  omega

/-- A reply that fits the box's buffer shows all names. -/
theorem received_fits {nets : List Net} (h : ∀ n ∈ nets, Visible n)
    (hfits : (nets.flatMap Net.line).length ≤ 3071) : received nets = nets := by
  have hseen : ∀ room, (nets.flatMap Net.line).length ≤ room → seen room nets = nets := by
    clear hfits
    induction nets with
    | nil => exact fun _ _ => rfl
    | cons n ns ih =>
        intro room hroom
        rw [List.flatMap_cons, List.length_append] at hroom
        have hline := line_length n
        rw [seen, ih (fun m hm => h m (List.mem_cons_of_mem n hm)) _ (by omega)]
        congr 1
        unfold Net.cut
        rw [List.take_of_length_le (by omega)]
  unfold received
  rw [hseen 3071 hfits, List.filter_eq_self.2 fun n hn => decide_eq_true (h n hn).name]

/-- Names survive the bridge just when no wanted name begins with a space
or has a tab in it, and the box's buffer shows all of them. -/
theorem names_survive (hnets : ∀ n ∈ s.nets, Visible n)
    (hfits : (s.nets.flatMap Net.line).length ≤ replyMax - 1) (hs : Ready s) {turns : Nat}
    (hturns : s.pauses + 2 ≤ turns) (max : Nat) :
    ((brimodWifiScan others true turns max s).1
          = (((wanted max s.nets).length : Int), (wanted max s.nets).map Net.entry)
        ∧ ∀ e ∈ (brimodWifiScan others true turns max s).1.2, ∀ pass : List UInt8,
            pass.length ≤ 63 → 0 ∉ pass → ∀ (t : Station) (turns max : Nat), Ready t →
            t.pauses + 2 ≤ turns →
            (brimodWifiConnect others true turns e.ssid pass max t).2.calls
              = t.calls ++ [(e.ssid, pass)])
      ↔ Survives max s.nets := by
  have hscan := @scan_result others s hs hfits turns hturns max
  constructor
  · rintro ⟨hlist, hconnect⟩
    have hexact : scanLoop max ((s.nets.flatMap Net.line).take 3071) []
        = (wanted max s.nets).map Net.entry := (Prod.mk.inj (hscan.symm.trans hlist)).2
    obtain ⟨hplain, hwhole⟩ := (scan_exact hnets).1 hexact
    refine ⟨hplain, fun n hn => ?_, hwhole⟩
    have hmem : n.entry ∈ (brimodWifiScan others true turns max s).1.2 := by
      rw [hlist]
      exact List.mem_map_of_mem hn
    exact (@connect_exact others s hs n (hnets n (wanted_sub hnets hn)) turns hturns []
      (Nat.zero_le _) List.not_mem_nil 0).1
      (hconnect n.entry hmem [] (Nat.zero_le _) List.not_mem_nil s turns 0 hs hturns)
  · intro h
    have hexact := (scan_exact hnets).2 ⟨h.plain, h.whole⟩
    rw [hscan, hexact, List.length_map]
    refine ⟨rfl, fun e he pass hpass hnul t turns' max' ht hturns' => ?_⟩
    obtain ⟨n, hn, rfl⟩ := List.mem_map.1 he
    exact (connect_exact ht (hnets n (wanted_sub hnets hn)) hturns' hpass hnul max').2
      (h.tabless n hn)

/-- A bridge at rest that sees these networks. -/
def resting (nets : List Net) : Station :=
  { bridge := quiet, nets := nets, joins := fun _ _ => .connected (text "10.0.0.2") }

theorem resting_ready (nets : List Net) : Ready (resting nets) :=
  ⟨show (0 : UInt8) ≠ 1 by decide, rfl⟩

def home : Net := { ssid := text "my home", rssi := -50, channel := 6, secure := true }

/-- The same with a space before it. -/
def spaced : Net := { home with ssid := sp :: home.ssid }

theorem home_visible : Visible home :=
  ⟨by decide, by decide, by decide, by decide, ⟨by decide, by decide⟩, ⟨by decide, by decide⟩⟩

theorem spaced_visible : Visible spaced :=
  ⟨by decide, by decide, by decide, by decide, ⟨by decide, by decide⟩, ⟨by decide, by decide⟩⟩

theorem one_line {n : Net} (h : Visible n) : ([n].flatMap Net.line).length ≤ 57 := by
  have hhead := head_length h
  have hname := h.short
  rw [List.flatMap_cons, List.flatMap_nil, List.append_nil, line_length]
  omega

theorem names_survive_home :
    (brimodWifiScan (fun _ s => (false, s)) true 2 4 (resting [home])).1 = (1, [home.entry])
      ∧ (brimodWifiConnect (fun _ s => (false, s)) true 2 home.ssid (text "pass word") 64
          (resting [home])).2.calls = [(home.ssid, text "pass word")] := by
  have hvisible : ∀ n ∈ (resting [home]).nets, Visible n := by
    intro n hn
    rw [List.mem_singleton.1 hn]
    exact home_visible
  have hfits := one_line home_visible
  have hwanted : ∀ n ∈ wanted 4 [home], n = home := fun n hn => List.mem_singleton.1 hn
  obtain ⟨hscan, hconnect⟩ := (@names_survive (fun _ s => (false, s)) (resting [home]) hvisible
    (hfits.trans (by decide)) (resting_ready _) 2 (by decide) 4).2
    { plain := fun n hn => by rw [hwanted n hn]; exact nofun
      tabless := fun n hn => by rw [hwanted n hn]; decide
      whole := congrArg (wanted 4) (received_fits hvisible (hfits.trans (by decide))) }
  refine ⟨hscan, ?_⟩
  refine hconnect home.entry ?_ (text "pass word") (by decide) (by decide) (resting [home]) 2 64
    (resting_ready _) (by decide)
  rw [hscan]
  exact List.mem_cons_self

/-- A name that begins with a space comes back without it. -/
theorem leading_space_lost :
    Visible spaced ∧ ([spaced].flatMap Net.line).length ≤ replyMax - 1
      ∧ Ready (resting [spaced])
      ∧ (brimodWifiScan (fun _ s => (false, s)) true 2 4 (resting [spaced])).1
          ≠ (((wanted 4 [spaced]).length : Int), (wanted 4 [spaced]).map Net.entry) := by
  have hvisible : ∀ n ∈ [spaced], Visible n := by
    intro n hn
    rw [List.mem_singleton.1 hn]
    exact spaced_visible
  have hfits := (one_line spaced_visible).trans (show 57 ≤ replyMax - 1 by decide)
  refine ⟨spaced_visible, hfits, resting_ready _, fun heq => ?_⟩
  rw [@scan_result (fun _ s => (false, s)) (resting [spaced]) (resting_ready _) hfits 2 (by decide)
    4] at heq
  have hlist : scanLoop 4 (([spaced].flatMap Net.line).take 3071) [] = [spaced.entry] :=
    (Prod.mk.inj heq).2
  have hmem : spaced.entry ∈ scanLoop 4 (([spaced].flatMap Net.line).take 3071) [] := by
    rw [hlist]
    exact List.mem_cons_self
  exact scanLoop_names hvisible 3071 hmem rfl

end Ncmips.Brimod
