/-
The tag parser stays in its tag: but for where the extended header sends it.

A frame is looked at only where its header is in the tag, and handed on
only where its data is (`frameLoop_goes`); each takes the position
forward. The one position that is not checked is the first: the extended
header's size is added to it, and in 32 bits it can come to lie in front
of the tag (`FramesInside`).
-/
import Ncmips.Midi.Proofs.Smf
import Ncmips.Music.Tags

namespace Ncmips.Music

open Words Midi Prog

variable {mem : Nat → UInt8} {alloc : Nat → Bool} {size : Nat}

/-- A byte of the tag. -/
abbrev InTag (size : Nat) : Nat → Prop := InFile 0 size

theorem inTag {a : Nat} (h : a < size) : InTag size a := by
  refine ⟨Nat.zero_le a, ?_⟩
  rw [Nat.zero_add]
  exact h

/-- A read within the tag, whatever it is for. -/
theorem read_meets {a : Nat} (h : a < size) {Q : Nat → Prop} (hQ : ∀ b, b < 2 ^ 8 → Q b) :
    (byteOf a).Meets mem (InTag size) Q :=
  byteOf_meets (inTag h) (hQ _ (mem a).toNat_lt)

-- ==================================================================== text

theorem textWide_meets (hsize : size < 2 ^ 31) {p len : Nat} (hin : p + len ≤ size) (be : Bool)
    (n i : Nat) (dst : List Nat) :
    (textWide be n p len i dst).Meets mem (InTag size) fun _ => True := by
  induction hk : len - i using Nat.strong_induction_on generalizing i dst with
  | _ k ih =>
      rw [textWide]
      split
      · next h =>
        rw [u32_of_lt (show p + i < 2 ^ 32 by omega), u32_of_lt (show p + (i + 1) < 2 ^ 32 by omega)]
        refine meets_bind (read_meets (by omega) fun b0 _ => ?_)
        refine meets_bind (read_meets (by omega) fun b1 _ => ?_)
        dsimp only
        generalize (if be then b0 * 2 ^ 8 + b1 else b0 + b1 * 2 ^ 8) = c
        split
        · exact meets_pure trivial
        · split
          · exact ih (len - (i + 2)) (by omega) (i + 2) dst rfl
          · exact ih (len - (i + 2)) (by omega) (i + 2) _ rfl
      · exact meets_pure trivial

theorem textBytes_meets (hsize : size < 2 ^ 31) {p len : Nat} (hin : p + len ≤ size) (enc n i : Nat)
    (dst : List Nat) : (textBytes enc n p len i dst).Meets mem (InTag size) fun _ => True := by
  induction hk : len - i using Nat.strong_induction_on generalizing i dst with
  | _ k ih =>
      rw [textBytes]
      split
      · next h =>
        rw [u32_of_lt (show p + i < 2 ^ 32 by omega)]
        refine meets_bind (read_meets (by omega) fun c _ => ?_)
        split
        · exact meets_pure trivial
        · split
          · exact ih (len - (i + 1)) (by omega) (i + 1) dst rfl
          · exact ih (len - (i + 1)) (by omega) (i + 1) _ rfl
      · exact meets_pure trivial

theorem byteOrder_meets (hsize : size < 2 ^ 31) {p len : Nat} (hin : p + len ≤ size) (enc : Nat) :
    (byteOrder enc p len).Meets mem (InTag size) fun _ => True := by
  unfold byteOrder
  split
  · next h =>
    rw [u32_of_lt (show p + 1 < 2 ^ 32 by omega)]
    refine meets_bind (read_meets (by omega) fun b0 _ => ?_)
    exact meets_bind (read_meets (by omega) fun b1 _ => meets_pure trivial)
  · exact meets_pure trivial

theorem meets_map {α β : Type} {p : Rd α} {f : α → β} {Q : β → Prop}
    (h : p.Meets mem (InTag size) fun a => Q (f a)) : (f <$> p).Meets mem (InTag size) Q := by
  rw [map_eq_pure_bind]
  exact meets_bind (h.mono fun _ hQ => meets_pure hQ)

theorem id3Text_meets (hsize : size < 2 ^ 31) {p len : Nat} (hin : p + len ≤ size) (n : Nat)
    (dst : List Nat) : (id3Text n p len dst).Meets mem (InTag size) fun _ => True := by
  unfold id3Text
  split
  · exact meets_pure trivial
  · refine meets_bind (read_meets (by omega) fun enc _ => ?_)
    rw [u32_of_lt (show p + 1 < 2 ^ 32 by omega)]
    have hrest : p + 1 + (len - 1) ≤ size := by omega
    split
    · refine (byteOrder_meets hsize hrest enc).bind fun r _ => ?_
      exact meets_map (textWide_meets hsize hrest _ n _ _)
    · exact meets_map (textBytes_meets hsize hrest enc n _ _)

-- ================================================================= pictures

theorem skipBytes_meets (hsize : size < 2 ^ 31) {p len : Nat} (hin : p + len ≤ size) (i : Nat) :
    (skipBytes p len i).Meets mem (InTag size) fun j => j ≤ max i len := by
  induction hk : len - i using Nat.strong_induction_on generalizing i with
  | _ k ih =>
      rw [skipBytes]
      split
      · next h =>
        rw [u32_of_lt (show p + i < 2 ^ 32 by omega)]
        refine meets_bind (read_meets (by omega) fun b _ => ?_)
        split
        · exact (ih (len - (i + 1)) (by omega) (i + 1) rfl).mono fun j hj => by omega
        · exact meets_pure (by omega)
      · exact meets_pure (by omega)

theorem skipWide_meets (hsize : size < 2 ^ 31) {p len : Nat} (hin : p + len ≤ size) (i : Nat) :
    (skipWide p len i).Meets mem (InTag size) fun j => j ≤ max i len := by
  induction hk : len - i using Nat.strong_induction_on generalizing i with
  | _ k ih =>
      rw [skipWide]
      split
      · next h =>
        rw [u32_of_lt (show p + i < 2 ^ 32 by omega), u32_of_lt (show p + (i + 1) < 2 ^ 32 by omega)]
        refine meets_bind (read_meets (by omega) fun b0 _ => ?_)
        refine meets_bind (read_meets (by omega) fun b1 _ => ?_)
        split
        · exact (ih (len - (i + 2)) (by omega) (i + 2) rfl).mono fun j hj => by omega
        · exact meets_pure (by omega)
      · exact meets_pure (by omega)

theorem pictureStart_meets (hsize : size < 2 ^ 31) {p len : Nat} (hin : p + len ≤ size) (hlen : 4 ≤ len)
    (v22 : Bool) : (pictureStart p len v22).Meets mem (InTag size) fun _ => True := by
  unfold pictureStart
  refine meets_bind (read_meets (by omega) fun enc _ => ?_)
  have hend (i : Nat) : (if enc = 1 ∨ enc = 2 then (fun i => u32 (i + 2)) <$> skipWide p len i
      else (fun i => u32 (i + 1)) <$> skipBytes p len i).Meets mem (InTag size) fun _ => True := by
    split
    · exact meets_map ((skipWide_meets hsize hin i).mono fun _ _ => trivial)
    · exact meets_map ((skipBytes_meets hsize hin i).mono fun _ _ => trivial)
  cases v22 with
  | true => exact hend _
  | false =>
      refine Meets.bind (P := fun _ => True) ?_ fun i _ => hend _
      exact meets_map ((skipBytes_meets hsize hin 1).mono fun _ _ => trivial)

/-- What was handed on, and copied. -/
structure Handed (size : Nat) (s : Song) : Prop where
  passed : ∀ r ∈ s.passed, r.1 + r.2 ≤ size
  copied : ∀ r ∈ s.copied, r.1 ∈ s.passed ∧ r.1.1 ≤ r.2.1 ∧ r.2.1 + r.2.2 ≤ r.1.1 + r.1.2

theorem Handed.hand {s : Song} (h : Handed size s) {p len : Nat} (hin : p + len ≤ size) :
    Handed size (s.hand p len) where
  passed := by
    intro r hr
    rcases List.mem_append.mp hr with hr | hr
    · exact h.passed r hr
    · rw [List.mem_singleton.mp hr]
      exact hin
  copied := by
    intro r hr
    obtain ⟨hmem, hsub⟩ := h.copied r hr
    exact ⟨List.mem_append_left _ hmem, hsub⟩

theorem id3Picture_meets (hsize : size < 2 ^ 31) {p len : Nat} (hin : p + len ≤ size) (v22 : Bool)
    {s : Song} (hs : Handed size s) (hp : (p, len) ∈ s.passed) :
    (id3Picture alloc p len v22 s).Meets mem (InTag size) (Handed size) := by
  unfold id3Picture
  split
  · exact meets_pure hs
  · next h =>
    refine (pictureStart_meets hsize hin (by omega) v22).bind fun i _ => ?_
    split
    · exact meets_pure hs
    · next hi =>
      split
      · rw [u32_of_lt (show p + i < 2 ^ 32 by omega)]
        refine (bytesOf_meets (by omega) (Nat.zero_le _) (by omega)).bind fun data _ => ?_
        refine meets_pure ⟨hs.passed, fun r hr => ?_⟩
        rcases List.mem_append.mp hr with hr | hr
        · exact hs.copied r hr
        · rw [List.mem_singleton.mp hr]
          refine ⟨hp, Nat.le_add_right _ _, ?_⟩
          show p + i + (len - i) ≤ p + len
          omega
      · exact meets_pure hs

-- =================================================================== frames

theorem frame_meets (hsize : size < 2 ^ 31) (ids : FrameIds) (v22 : Bool) (id : List Nat) {f fs : Nat}
    (hin : f + fs ≤ size) {s : Song} (hs : Handed size s) :
    (frame alloc ids v22 id f fs s).Meets mem (InTag size) (Handed size) := by
  have hhand := hs.hand hin
  have htext (n : Nat) (dst : List Nat) {g : List Nat → Song}
      (hg : ∀ t, Handed size (g t)) :
      (id3Text n f fs dst >>= fun t => pure (g t)).Meets mem (InTag size) (Handed size) :=
    (id3Text_meets hsize hin n dst).bind fun t _ => meets_pure (hg t)
  unfold frame
  split
  · exact htext _ _ fun t => { hhand with }
  · split
    · exact htext _ _ fun t => { hhand with }
    · split
      · exact htext _ _ fun t => { hhand with }
      · split
        · exact htext _ _ fun t => { hhand with }
        · split
          · exact id3Picture_meets hsize hin v22 hhand (List.mem_append_right _ List.mem_cons_self)
          · exact meets_pure hs

theorem syncsafe_meets (hsize : size < 2 ^ 31) {p : Nat} (hin : p + 4 ≤ size) :
    (syncsafe p).Meets mem (InTag size) fun n => n < 2 ^ 28 := by
  unfold syncsafe
  rw [u32_of_lt (show p + 1 < 2 ^ 32 by omega), u32_of_lt (show p + 2 < 2 ^ 32 by omega),
    u32_of_lt (show p + 3 < 2 ^ 32 by omega)]
  refine meets_bind (read_meets (by omega) fun b0 _ => ?_)
  refine meets_bind (read_meets (by omega) fun b1 _ => ?_)
  refine meets_bind (read_meets (by omega) fun b2 _ => ?_)
  refine meets_bind (read_meets (by omega) fun b3 _ => meets_pure ?_)
  omega

theorem be24_meets (hsize : size < 2 ^ 31) {p : Nat} (hin : p + 3 ≤ size) :
    (be24 p).Meets mem (InTag size) fun n => n < 2 ^ 32 := by
  unfold be24
  rw [u32_of_lt (show p + 1 < 2 ^ 32 by omega), u32_of_lt (show p + 2 < 2 ^ 32 by omega)]
  refine meets_bind (read_meets (by omega) fun b0 _ => ?_)
  refine meets_bind (read_meets (by omega) fun b1 _ => ?_)
  refine meets_bind (read_meets (by omega) fun b2 _ => meets_pure ?_)
  omega

theorem frameSize_meets (hsize : size < 2 ^ 31) {pos : Nat} (hin : pos + 10 ≤ size) (ver : Nat) :
    (frameSize ver pos).Meets mem (InTag size) fun n => n < 2 ^ 32 := by
  unfold frameSize
  split
  · rw [u32_of_lt (show pos + 3 < 2 ^ 32 by omega)]
    exact be24_meets hsize (by omega)
  · rw [u32_of_lt (show pos + 4 < 2 ^ 32 by omega)]
    split
    · exact (syncsafe_meets hsize (by omega)).mono fun n hn => by omega
    · refine (be32_meets (by omega) (Nat.zero_le _) (by omega)).mono fun n hn => ?_
      rw [hn]
      exact number_lt mem _

/-- From a position that does not wrap, with a turn for each frame. -/
theorem frameLoop_goes (hsize : size < 2 ^ 31) (ver turns pos : Nat) (hpos : pos + 10 < 2 ^ 32)
    (hturns : size - pos < turns) {s : Song} (hs : Handed size s) :
    Goes mem (InTag size) (frameLoop alloc ver size turns pos s) (fun _ => False) (Handed size) := by
  induction turns generalizing pos s with
  | zero => exact absurd hturns (Nat.not_lt_zero _)
  | succ turns ih =>
      have hhdr : frameHdr ver ≤ 10 ∧ 6 ≤ frameHdr ver := by
        unfold frameHdr
        split
        · omega
        · omega
      rw [frameLoop, u32_of_lt hpos]
      split
      · next hin =>
        refine (goes_lift (read_meets (Q := fun _ => True) (by omega) fun _ _ => trivial)).bind
          fun b _ => ?_
        split
        · exact goes_pure hs
        · refine (goes_lift (frameSize_meets hsize hin ver)).bind fun fs hfs => ?_
          have hroom : sub32 (sub32 size pos) (frameHdr ver) = size - pos - frameHdr ver := by
            have hrest : sub32 size pos = size - pos := sub32_of_le (by omega) (by omega)
            rw [hrest, sub32_of_le (by omega) (by omega)]
          rw [hroom]
          split
          · exact goes_pure hs
          · next hfit =>
            have hnext : u32 (pos + u32 (frameHdr ver + fs)) = pos + (frameHdr ver + fs) := by
              rw [u32_of_lt (show frameHdr ver + fs < 2 ^ 32 by omega), u32_of_lt (by omega)]
            rw [hnext, u32_of_lt (show pos + frameHdr ver < 2 ^ 32 by omega)]
            have hid (n : Nat) (hn : n ≤ 4) (ids : FrameIds) (v22 : Bool) :
                (bytesOf pos n >>= fun id => frame alloc ids v22 id (pos + frameHdr ver) fs s).Meets mem
                  (InTag size) (Handed size) :=
              (bytesOf_meets (by omega) (Nat.zero_le _) (by omega)).bind fun id _ =>
                frame_meets hsize ids v22 id (by omega) hs
            dsimp only
            split
            · refine (goes_lift (hid 3 (by omega) ids22 true)).bind fun s' hs' => ?_
              exact ih _ (by omega) (by omega) hs'
            · refine (goes_lift (hid 4 (by omega) ids23 false)).bind fun s' hs' => ?_
              exact ih _ (by omega) (by omega) hs'
      · exact goes_pure hs

/-- A position in front of the tag, in 32 bits: the first byte that is read is
not in the tag. -/
theorem frameLoop_wraps (hsize : 10 ≤ size) (ver turns pos : Nat) (hpos : 2 ^ 32 ≤ pos + 10)
    (hlt : pos < 2 ^ 32) (hsize' : size < 2 ^ 31) {s : Song} (hturns : 0 < turns) {C Q : Song → Prop} :
    ¬ Goes mem (InTag size) (frameLoop alloc ver size turns pos s) C Q := by
  cases turns with
  | zero => exact absurd hturns (Nat.lt_irrefl 0)
  | succ turns =>
      have hsmall : u32 (pos + 10) ≤ size := by
        unfold u32
        omega
      intro h
      rw [frameLoop, if_pos hsmall] at h
      have hfirst : InTag size pos := h.1
      have := hfirst.2
      omega

-- ==================================================================== a tag

variable (mem)

/-- The size of an extended header, as the parser takes it. -/
def extended : Nat :=
  if (mem 3).toNat = 4 then
    (mem 10).toNat % 128 * 2 ^ 21 + (mem 11).toNat % 128 * 2 ^ 14 + (mem 12).toNat % 128 * 2 ^ 7
      + (mem 13).toNat % 128
  else u32 (number mem 10 + 4)

/-- The tag is skipped, or has no extended header, or one whose size is in the
tag and does not lead in front of it. -/
def FramesInside (size : Nat) : Prop :=
  (mem 5).toNat / 2 ^ 7 % 2 = 1 ∨ ¬ ((mem 3).toNat ≥ 3 ∧ (mem 5).toNat / 2 ^ 6 % 2 = 1)
    ∨ (14 ≤ size ∧ u32 (10 + extended mem) + 10 < 2 ^ 32)

variable {mem}

/-- An extended header's size is read in any case. -/
theorem framesStart_goes {f : Nat → Tagged Song} {C Q : Song → Prop}
    (hext : (mem 3).toNat ≥ 3 ∧ (mem 5).toNat / 2 ^ 6 % 2 = 1) :
    Goes mem (InTag size) (liftM (framesStart (mem 3).toNat (mem 5).toNat) >>= f) C Q
      ↔ InTag size 10 ∧ InTag size 11 ∧ InTag size 12 ∧ InTag size 13
        ∧ Goes mem (InTag size) (f (u32 (10 + extended mem))) C Q := by
  unfold framesStart extended
  rw [if_pos hext]
  split
  · exact Iff.rfl
  · exact Iff.rfl

theorem id3v2Parse_goes {turns : Nat} {s : Song} {C Q : Song → Prop} :
    Goes mem (InTag size) (id3v2Parse alloc turns size s) C Q
      ↔ InTag size 3 ∧ InTag size 5 ∧ Goes mem (InTag size)
        (if (mem 5).toNat / 2 ^ 7 % 2 = 1 then pure s
        else liftM (framesStart (mem 3).toNat (mem 5).toNat) >>= fun pos =>
          frameLoop alloc (mem 3).toNat size turns pos s) C Q := Iff.rfl

variable (mem alloc)

/-- The parser ends, reads within the tag and hands on ranges of it, exactly
if its frames start there. -/
theorem id3v2_inside (hlo : 10 ≤ size) (hhi : size < 2 ^ 31) (turns : Nat) (hturns : size < turns)
    (s : Song) (hs : s.passed = [] ∧ s.copied = []) :
    Goes mem (InTag size) (id3v2Parse alloc turns size s) (fun _ => False) (Handed size)
      ↔ FramesInside mem size := by
  have hnone : Handed size s := by
    refine ⟨fun r hr => ?_, fun r hr => ?_⟩
    · rw [hs.1] at hr
      exact nomatch hr
    · rw [hs.2] at hr
      exact nomatch hr
  have h3 : InTag size 3 := inTag (by omega)
  have h5 : InTag size 5 := inTag (by omega)
  rw [id3v2Parse_goes, and_iff_right h3, and_iff_right h5]
  unfold FramesInside
  by_cases hskip : (mem 5).toNat / 2 ^ 7 % 2 = 1
  · rw [if_pos hskip]
    exact iff_of_true (goes_pure hnone) (.inl hskip)
  · rw [if_neg hskip, or_iff_right hskip]
    by_cases hext : (mem 3).toNat ≥ 3 ∧ (mem 5).toNat / 2 ^ 6 % 2 = 1
    · rw [framesStart_goes hext, or_iff_right (not_not_intro hext)]
      constructor
      · rintro ⟨-, -, -, h13, hloop⟩
        have hlen := h13.2
        refine ⟨by omega, ?_⟩
        by_contra hwrap
        exact frameLoop_wraps hlo _ turns _ (by omega) (u32_lt _) hhi (by omega) hloop
      · rintro ⟨hlen, hpos⟩
        exact ⟨inTag (by omega), inTag (by omega), inTag (by omega), inTag (by omega),
          frameLoop_goes hhi _ turns _ hpos (by omega) hnone⟩
    · have hfirst : framesStart (mem 3).toNat (mem 5).toNat = pure 10 := by
        unfold framesStart
        rw [if_neg hext]
      rw [hfirst]
      exact iff_of_true (frameLoop_goes hhi _ turns 10 (by decide) (by omega) hnone) (.inl hext)

/-- A tag of version 2.3 with an extended header, and its size. -/
def tagBytes (size : List UInt8) (a : Nat) : UInt8 :=
  ([0x49, 0x44, 0x33, 3, 0, 0x40, 0, 0, 0, 20] ++ size : List UInt8).getD a 0

theorem id3v2_inside_padding :
    (10 ≤ 30 ∧ 30 < 2 ^ 31 ∧ 30 < 31) ∧ FramesInside (tagBytes [0, 0, 0, 6]) 30
      ∧ Goes (tagBytes [0, 0, 0, 6]) (InTag 30)
          (id3v2Parse (fun _ => true) 31 30 {}) (fun _ => False) (Handed 30) := by
  have hin : FramesInside (tagBytes [0, 0, 0, 6]) 30 := .inr (.inr ⟨by decide, by decide⟩)
  exact ⟨by decide, hin, (id3v2_inside (tagBytes [0, 0, 0, 6]) (fun _ => true) (by decide)
    (by decide) 31 (by decide) {} ⟨rfl, rfl⟩).2 hin⟩

/-- An extended header of 0xfffffff0 bytes: the frames are looked for two
bytes in front of the tag. -/
theorem id3v2_outside : ¬ ∃ turns, Goes (tagBytes [0xff, 0xff, 0xff, 0xf0]) (InTag 30)
    (id3v2Parse (fun _ => true) turns 30 {}) (fun _ => False) (Handed 30) := by
  rintro ⟨turns, h⟩
  obtain ⟨-, -, h⟩ := id3v2Parse_goes.1 h
  rw [if_neg (by decide), framesStart_goes (by decide)] at h
  obtain ⟨-, -, -, -, hloop⟩ := h
  cases turns with
  | zero => exact hloop
  | succ turns =>
      exact frameLoop_wraps (by decide) _ _ _ (by decide) (u32_lt _) (by decide) (Nat.succ_pos _) hloop

end Ncmips.Music
