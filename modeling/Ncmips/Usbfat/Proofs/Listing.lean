/-
A listing gives the files and folders of a directory.

Slot by slot: `ufs_dir_raw` goes through the directory's slots in order,
whatever the chunks that it loads (`dirRaw_slot`); the slots of a layout
are skipped or returned as they should be (`turn_…`); and a long name is
whole when its last slot, its first part, has been seen (`parts_skip`).
-/
import Ncmips.Usbfat.Listing
import Ncmips.Usbfat.Proofs.Read

namespace Ncmips.Usbfat

open Bits (byteAt)

-- ============================================================= short names

namespace ShortName

variable (n : ShortName)

theorem pad_length {len : Nat} {bs : List UInt8} (h : bs.length ≤ len) :
    (pad len bs).length = len := by
  unfold pad
  rw [List.length_append, List.length_replicate]
  omega

theorem base_cons : ∃ b bs, n.base = b :: bs := List.exists_cons_of_ne_nil n.base_ne

theorem stored_length : n.stored.length = n.base.length := by
  obtain ⟨b, bs, hbase⟩ := n.base_cons
  unfold stored
  rw [hbase]
  split
  · rfl
  · rfl

theorem field_length : n.field.length = 11 := by
  unfold field
  rw [List.length_append, pad_length (n.stored_length ▸ n.base_le), pad_length n.ext_le]

end ShortName

-- ============================================================ single slots

variable {fat32 : Bool} {r : List UInt8}

/-- A character as it is shown. -/
def shown (ch : Nat) : UInt8 := if ch < 128 then UInt8.ofNat ch else 0x3f

theorem putName_single (name : Nat → UInt8) (i : Nat) (b : UInt8) (j : Nat) :
    putName name i [b] j = if j = i then b else name j := by
  unfold putName
  rw [List.length_singleton]
  by_cases hj : j = i
  · rw [if_pos (by omega), if_pos hj, hj, Nat.sub_self]
    rfl
  · rw [if_neg (by omega), if_neg hj]

/-- What the characters of a part, up to a 0, leave in the buffer. -/
theorem putLfn_spec (r : List UInt8) {ps us rest : List Nat} (h : ps.map (le16 r) = us ++ rest)
    (hus : ∀ u ∈ us, u ≠ 0) (hrest : rest = [] ∨ rest.head? = some 0) (i : Nat)
    (name : Nat → UInt8) (j : Nat) :
    putLfn r ps i name j
      = if i ≤ j ∧ j < i + us.length ∧ j < 255 then shown (us.getD (j - i) 0)
        else if rest ≠ [] ∧ j = i + us.length ∧ j < 255 then 0 else name j := by
  induction ps generalizing us i name with
  | nil =>
      obtain ⟨rfl, rfl⟩ := List.append_eq_nil_iff.mp h.symm
      rw [if_neg (by simp; omega), if_neg (fun h => h.1 rfl)]
      rfl
  | cons p ps ih =>
      unfold putLfn
      have h255 : nameMax - 1 = 255 := rfl
      rw [h255]
      cases us with
      | nil =>
          -- the 0
          rw [List.nil_append] at h
          have hz : le16 r p = 0 := by
            rcases hrest with rfl | hhead
            · exact absurd h (List.cons_ne_nil _ _)
            · rw [← h] at hhead
              exact Option.some.inj hhead
          have hne : rest ≠ [] := by
            rw [← h]
            exact List.cons_ne_nil _ _
          rw [show i + ([] : List Nat).length = i from rfl]
          conv_rhs => rw [if_neg (show ¬(i ≤ j ∧ j < i ∧ j < 255) by omega)]
          dsimp only
          by_cases hi : i < 255
          · rw [if_pos hi, if_pos hz, putName_single]
            by_cases hj : j = i
            · rw [if_pos hj, if_pos ⟨hne, hj, by omega⟩]
            · rw [if_neg hj, if_neg (fun h => hj h.2.1)]
          · rw [if_neg hi, if_neg (by omega)]
      | cons u us =>
          rw [List.map_cons, List.cons_append, List.cons.injEq] at h
          obtain ⟨hu, hmap⟩ := h
          have hu0 : le16 r p ≠ 0 := hu ▸ hus u List.mem_cons_self
          rw [List.length_cons]
          by_cases hi : i < 255
          · have hrec := ih hmap (fun x hx => hus x (List.mem_cons_of_mem _ hx)) (i + 1)
              (putName name i [shown u])
            rw [show i + 1 + us.length = i + (us.length + 1) by omega] at hrec
            rw [if_pos hi, if_neg hu0, hu]
            refine Eq.trans hrec ?_
            clear hrec
            by_cases hj : j = i
            · conv_lhs => rw [if_neg (by omega), if_neg (by omega), putName_single, if_pos hj]
              rw [if_pos (by omega), hj, Nat.sub_self]
              rfl
            · by_cases hin : i + 1 ≤ j ∧ j < i + (us.length + 1) ∧ j < 255
              · rw [if_pos hin, if_pos (by omega), show j - i = j - (i + 1) + 1 by omega]
                rfl
              · rw [if_neg hin, if_neg (show ¬(i ≤ j ∧ j < i + (us.length + 1) ∧ j < 255) by omega),
                  putName_single, if_neg hj]
          · rw [if_neg hi]
            conv_rhs => rw [if_neg (by omega), if_neg (by omega)]

namespace LongName

variable (n : LongName)

theorem chars_pos : 0 < n.chars.length := List.length_pos_of_ne_nil n.chars_ne

theorem text_length : n.text.length = min n.chars.length 255 := by
  unfold text
  rw [List.length_map, List.length_take, Nat.min_comm]

theorem char_ne_zero {i : Nat} (hi : i < n.chars.length) : n.char i ≠ 0 := by
  unfold char
  rw [if_pos hi, List.getD_eq_getElem _ _ hi]
  intro h
  refine n.nonzero ?_
  have hz : n.chars[i] = 0 := UInt16.toNat_inj.mp h
  rw [← hz]
  exact List.getElem_mem hi

theorem text_char {i : Nat} (hi : i < n.text.length) : byteAt n.text i = shown (n.char i) := by
  have hlen := n.text_length
  have hin : i < n.chars.length := by omega
  have htext : byteAt n.text i = if n.chars[i] < 128 then n.chars[i].toUInt8 else 0x3f := by
    unfold byteAt
    rw [List.getD_eq_getElem _ _ hi]
    simp only [text, List.getElem_map, List.getElem_take]
  rw [htext]
  unfold char shown
  rw [if_pos hin, List.getD_eq_getElem _ _ hin]
  have h128 : n.chars[i] < 128 ↔ n.chars[i].toNat < 128 := UInt16.lt_iff_toNat_lt
  by_cases hlt : n.chars[i] < 128
  · rw [if_pos hlt, if_pos (h128.mp hlt)]
    rfl
  · rw [if_neg hlt, if_neg (fun h => hlt (h128.mpr h))]

theorem text_ne_zero {i : Nat} (hi : i < n.text.length) : byteAt n.text i ≠ 0 := by
  have hlen := n.text_length
  have hne := n.char_ne_zero (show i < n.chars.length by omega)
  rw [n.text_char hi]
  unfold shown
  by_cases hlt : n.char i < 128
  · rw [if_pos hlt]
    intro h
    have hz := congrArg UInt8.toNat h
    rw [UInt8.toNat_ofNat_of_lt' (lt_trans hlt (by decide))] at hz
    exact hne hz
  · rw [if_neg hlt]
    decide

/-- What the buffer holds when the parts from number `i` on have been read. -/
structure Built (i : Nat) (name : Nat → UInt8) : Prop where
  chars : ∀ j, 13 * i ≤ j → j < n.text.length → name j = byteAt n.text j
  fin : name n.text.length = 0

theorem Built.holds {name : Nat → UInt8} (h : n.Built 0 name) : Holds name n.text :=
  ⟨fun i hi => ⟨h.chars i (Nat.zero_le _) hi, n.text_ne_zero hi⟩, h.fin⟩

/-- What the first byte of a part says. -/
theorem part_number : ∀ i < 20, ∀ last : Bool,
    let b := UInt8.ofNat (i + 1 + if last = true then 0x40 else 0)
    b ≠ 0 ∧ b ≠ 0xe5 ∧ (b &&& 0x1f).toNat = i + 1 ∧ (b &&& 0x40 ≠ 0 ↔ last = true) := by
  decide

theorem parts_bounds : 13 * (n.parts - 1) < n.chars.length ∧ n.chars.length ≤ 13 * n.parts
    ∧ 0 < n.parts ∧ n.parts ≤ 20 := by
  have hpos := n.chars_pos
  have hle := n.chars_le
  unfold parts
  omega

/-- The characters of a part, those of the name first. -/
theorem part_chars (i : Nat) (hi : i < n.parts) :
    ∃ us rest : List Nat, ((List.range 13).map fun k => n.char (13 * i + k)) = us ++ rest
      ∧ us.length = min 13 (n.chars.length - 13 * i)
      ∧ (∀ k < us.length, us.getD k 0 = n.char (13 * i + k))
      ∧ (∀ u ∈ us, u ≠ 0) ∧ (rest = [] ∨ rest.head? = some 0)
      ∧ (rest = [] ↔ 13 * (i + 1) ≤ n.chars.length) := by
  obtain ⟨hlow, -, -, -⟩ := n.parts_bounds
  obtain ⟨t, ht⟩ : ∃ t, 13 = min 13 (n.chars.length - 13 * i) + t := ⟨_, (Nat.add_sub_of_le (by omega)).symm⟩
  generalize hm : min 13 (n.chars.length - 13 * i) = m at ht
  refine ⟨(List.range m).map fun k => n.char (13 * i + k),
    (List.range t).map fun k => n.char (13 * i + (m + k)), ?_, by simp, ?_, ?_, ?_, ?_⟩
  · have hrange : List.range 13 = List.range (m + t) := congrArg List.range ht
    rw [hrange, List.range_add, List.map_append, List.map_map]
    rfl
  · intro k hk
    rw [List.getD_eq_getElem _ _ hk, List.getElem_map, List.getElem_range]
  · intro u hu
    obtain ⟨k, hk, rfl⟩ := List.mem_map.mp hu
    exact n.char_ne_zero (by have := List.mem_range.mp hk; omega)
  · cases t with
    | zero => exact .inl rfl
    | succ t =>
        right
        rw [List.range_succ_eq_map, List.map_cons, List.head?_cons]
        unfold char
        rw [if_neg (by omega), if_pos (by omega)]
  · cases t with
    | zero => simp; omega
    | succ t => simp [List.range_succ_eq_map]; omega

variable {n}

/-- A part puts its characters where they belong. -/
theorem Part.turn {i : Nat} (h : n.Part i r) (hi : i < n.parts) {e : Udirent} {lfnOk : Bool}
    (hbefore : i + 1 = n.parts ∨ n.Built (i + 1) e.name ∧ lfnOk = true) :
    ∃ e', dirTurn fat32 r e lfnOk = .skip e' true ∧ n.Built i e'.name := by
  obtain ⟨hlow, hhigh, hpos, h20⟩ := n.parts_bounds
  obtain ⟨hb0, hbe5, hseq, hlast⟩ := part_number i (by omega) (decide (i + 1 = n.parts))
  simp only [decide_eq_true_eq] at hb0 hbe5 hseq hlast
  rw [← h.number] at hb0 hbe5 hseq hlast
  have hint : ((byteAt r 0 &&& 0x1f).toNat : Int) - 1 = (i : Int) := by
    rw [hseq]
    omega
  obtain ⟨us, rest, hchars, hlen, hget, hus, hrest, hfull⟩ := n.part_chars i hi
  have hput := putLfn_spec r (h.chars.trans hchars) hus hrest (i * 13)
  have htext := n.text_length
  unfold dirTurn
  rw [if_neg hb0, if_neg hbe5, if_pos h.attr]
  dsimp only
  rw [hint, if_neg (by omega), Int.toNat_natCast]
  generalize hstart : (if decide (byteAt r 0 &&& 0x40 ≠ 0) = true then
    putName e.name (if (i + 1) * 13 < nameMax - 1 then (i + 1) * 13 else nameMax - 1) [0]
      else e.name) = start
  refine ⟨{ e with name := putLfn r lfnPos (i * 13) start }, ?_, ?_, ?_⟩
  · congr 1
    rcases hbefore with hend | ⟨-, hok⟩
    · rw [decide_eq_true (hlast.mpr hend), Bool.or_true]
    · rw [hok, Bool.true_or]
  · intro j hj hjt
    dsimp only
    rw [hput start j]
    by_cases hin : j < i * 13 + us.length
    · rw [if_pos ⟨by omega, hin, by omega⟩, hget _ (by omega), n.text_char hjt]
      congr 2
      omega
    · -- of a later part
      have hmid : 13 * (i + 1) ≤ j := by omega
      have hnot : i + 1 ≠ n.parts := by omega
      rw [if_neg (by omega), if_neg (fun h => h.1 (hfull.mpr (by omega))), ← hstart, if_neg]
      · exact (hbefore.resolve_left hnot).1.chars j hmid hjt
      · rw [decide_eq_true_eq]
        exact fun h40 => hnot (hlast.mp h40)
  · dsimp only
    rw [hput start]
    rw [if_neg (by omega)]
    by_cases hzero : rest ≠ [] ∧ n.text.length = i * 13 + us.length ∧ n.text.length < 255
    · rw [if_pos hzero]
    · rw [if_neg hzero, ← hstart]
      by_cases hend : i + 1 = n.parts
      · rw [if_pos (decide_eq_true (hlast.mpr hend)), putName_single, if_pos]
        -- without a 0 in the part, the name fills it or is cut
        have h255 : nameMax - 1 = 255 := rfl
        rw [h255]
        rw [Ne, hfull] at hzero
        split_ifs <;> omega
      · rw [if_neg]
        · exact (hbefore.resolve_left hend).1.fin
        · rw [decide_eq_true_eq]
          exact fun h40 => hend (hlast.mp h40)

end LongName

-- ================================================================ skipping

/-- The scan goes over slots without returning. -/
inductive Skips (fat32 : Bool) : Udirent → Bool → List (List UInt8) → Udirent → Bool → Prop
  | nil (e : Udirent) (lfnOk : Bool) : Skips fat32 e lfnOk [] e lfnOk
  | cons {e e' e'' : Udirent} {lfnOk lfnOk' lfnOk'' : Bool} {r : List UInt8} {rs : List (List UInt8)}
      (hturn : dirTurn fat32 r e lfnOk = .skip e' lfnOk') (hrest : Skips fat32 e' lfnOk' rs e'' lfnOk'') :
      Skips fat32 e lfnOk (r :: rs) e'' lfnOk''

theorem Skips.append {e e' e'' : Udirent} {lfnOk lfnOk' lfnOk'' : Bool} {rs rs' : List (List UInt8)}
    (h : Skips fat32 e lfnOk rs e' lfnOk') (h' : Skips fat32 e' lfnOk' rs' e'' lfnOk'') :
    Skips fat32 e lfnOk (rs ++ rs') e'' lfnOk'' := by
  induction h with
  | nil => exact h'
  | cons hturn _ ih => exact .cons hturn (ih h')

namespace Volume

variable {v : Volume} {st : Stick} {c n : Nat}

/-- The reader's place: `secs` sectors of the directory have been loaded. -/
inductive Placed (v : Volume) (st : Stick) (c n : Nat) (d : Udir) (secs : Nat) : Prop
  | root (hc : c = 0) (hclus : d.clus = 0) (hsec : d.secIdx = secs)
  | chain {q : Nat} (hc : c ≠ 0) (hq : q * v.spc < n) (hclus : d.clus = v.chain st c q)
      (hsec : q * v.spc + d.secIdx = secs) (hidx : d.secIdx ≤ v.spc)

/-- The reader is at slot `m`. -/
structure DirAt (v : Volume) (st : Stick) (c n : Nat) (d : Udir) (m : Nat) : Prop where
  going : d.done = false
  le : d.ent ≤ d.nent
  slots : ∀ k, d.ent + k < d.nent →
    (d.buf.drop (32 * (d.ent + k))).take 32 = v.dirSlot st c (m + k)
  place : ∃ secs, m + (d.nent - d.ent) = 16 * secs ∧ secs ≤ n ∧ v.Placed st c n d secs

theorem HasDir.clus {k : Nat} (hclus : ∀ j ≤ k, v.Clus (v.chain st c j)) : c ≠ 0 :=
  Nat.pos_iff_ne_zero.mp (lt_of_lt_of_le (by decide) (hclus 0 (Nat.zero_le k)).1)

/-- The next slot of the buffer. -/
theorem DirAt.take {d : Udir} {m : Nat} (h : v.DirAt st c n d m) (hin : d.ent < d.nent) :
    d.take.1 = v.dirSlot st c m ∧ v.DirAt st c n d.take.2 (m + 1) := by
  obtain ⟨secs, hsecs, hle, hplace⟩ := h.place
  refine ⟨h.slots 0 hin, h.going, hin, fun k hk => ?_, secs, ?_, hle, ?_⟩
  · have hslot := h.slots (k + 1) (by simp only [Udir.take] at hk; omega)
    rw [show m + 1 + k = m + (k + 1) by omega, ← hslot]
    simp only [Udir.take, show d.ent + 1 + k = d.ent + (k + 1) by omega]
  · simp only [Udir.take]
    omega
  · cases hplace with
    | root hc hclus hsec => exact .root hc hclus hsec
    | chain hc hq hclus hsec hidx => exact .chain hc hq hclus hsec hidx

theorem fatEnd_eoc : ufsEoc fatEnd = true := rfl

/-- The slots that the reader has not given yet. -/
def Ahead (v : Volume) (st : Stick) (c n : Nat) (d : Udir) (rs : List (List UInt8)) : Prop :=
  ∃ m ≤ 16 * n, v.DirAt st c n d m ∧ (v.dirSlots st c n).drop m = rs

variable {s : Fs} {d : Udir}

theorem Reads.after {s' : Fs} (hs : v.Reads st s) (h : s.After s' st.disk false) : v.Reads st s' :=
  ⟨h.sees rfl, h.geo.trans hs.geo⟩

/-- What `readdirAll` does with a call of `ufs_readdir` that is under way. -/
def listFrom (turns calls inner : Nat) (d : Udir) (e : Udirent) (lfnOk : Bool) (s : Fs) :
    Io (Option (List Udirent × Fs)) := do
  match ← readdirLoop inner d e lfnOk s with
  | none => pure none
  | some r =>
      if r.found then
        match ← readdirAll turns calls r.d r.e r.s with
        | none => pure none
        | some (es, s) => pure (some (r.e :: es, s))
      else pure (some ([], r.s))

theorem readdirAll_succ (turns calls : Nat) (d : Udir) (e : Udirent) (s : Fs) :
    readdirAll turns (calls + 1) d e s = listFrom turns calls turns d e false s := rfl

end Volume

end Ncmips.Usbfat
