/-
The header's parser, where no length wraps.

Chunks are found by their lengths, items of a LIST chunk by theirs, and
both are added up in 32 bits. As long as none of these sums wraps
(`ChunksFit`), each walk goes forward, and stays in what it walks over.
-/
import Ncmips.Music.Proofs.Tags
import Ncmips.Music.Wav

namespace Ncmips.Music

open Words Prog

variable {file : Nat → UInt8} {size : Nat} {alloc : Nat → Bool} {stack : Nat → UInt8}

-- ============================================================ where lengths are

/-- A chunk's length. -/
def chunkLen (file : Nat → UInt8) (pos : Nat) : Nat := ofBytes (fileBytes file (pos + 4) 4)

/-- Rounded up to even. -/
def padded (n : Nat) : Nat := (n + 1) / 2 * 2

/-- The chunks' headers within the file, one after the other. -/
inductive AtChunk (file : Nat → UInt8) (size : Nat) : Nat → Prop
  | first : 12 + 8 ≤ size → AtChunk file size 12
  | next {pos : Nat} : AtChunk file size pos → pos + 8 + padded (chunkLen file pos) + 8 ≤ size →
      AtChunk file size (pos + 8 + padded (chunkLen file pos))

/-- The items' headers within a LIST chunk of `len` bytes at `base`. -/
inductive AtItem (file : Nat → UInt8) (base len : Nat) : Nat → Prop
  | first : 4 + 8 ≤ len → AtItem file base len 4
  | next {i : Nat} : AtItem file base len i → i + 8 + padded (chunkLen file (base + i)) + 8 ≤ len →
      AtItem file base len (i + 8 + padded (chunkLen file (base + i)))

/-- A LIST chunk has room for its type, and no item's end wraps. -/
structure ListFits (file : Nat → UInt8) (base len : Nat) : Prop where
  type : 4 ≤ len
  items : fileBytes file base 4 = infoId → ∀ i, AtItem file base len i →
    i + 8 + chunkLen file (base + i) < 2 ^ 32

/-- No chunk's end wraps, and the LIST chunks that are read fit. -/
structure ChunksFit (file : Nat → UInt8) (size : Nat) (alloc : Nat → Bool) : Prop where
  ends : ∀ pos, AtChunk file size pos → pos + 8 + padded (chunkLen file pos) < 2 ^ 32
  lists : ∀ pos, AtChunk file size pos → fileBytes file pos 4 = listId →
    chunkLen file pos < 65536 → alloc (chunkLen file pos) = true →
    pos + 8 + chunkLen file pos ≤ size → ListFits file (pos + 8) (chunkLen file pos)

theorem le_padded (n : Nat) : n ≤ padded n ∧ padded n ≤ n + 1 := by
  unfold padded
  omega

theorem pad32_eq {n : Nat} (h : n + 1 < 2 ^ 32) : pad32 n = padded n := by
  unfold pad32 padded
  rw [u32_of_lt h]

-- =============================================================== the buffer

/-- What a cell holds, and that it is one of the buffer's. -/
abbrev cellAt (file : Nat → UInt8) (c : Cell) : UInt8 := file (c.base + c.i)

abbrev InBuf (c : Cell) : Prop := c.i < c.len

theorem cellsOf_meets {base len n i : Nat} (hin : i + n ≤ len) (hlen : len < 2 ^ 31) :
    (cellsOf base len i n).Meets (cellAt file) InBuf fun bs => bs = fileBytes file (base + i) n := by
  induction n generalizing i with
  | zero => exact rfl
  | succ n ih =>
      rw [cellsOf, u32_of_lt (show i + 1 < 2 ^ 32 by omega)]
      refine meets_bind ⟨show i < len by omega, ?_⟩
      refine (ih (by omega)).bind fun bs hbs => meets_pure ?_
      rw [hbs]
      unfold fileBytes
      rw [List.range_succ_eq_map, List.map_cons, List.map_map]
      refine congrArg₂ List.cons rfl (List.map_congr_left fun k _ => ?_)
      show (file (base + (i + 1) + k)).toNat = (file (base + i + (k + 1))).toNat
      rw [show base + (i + 1) + k = base + i + (k + 1) by omega]

theorem ofBytes_lt (bs : List Nat) (h : ∀ b ∈ bs, b < 2 ^ 8) : ofBytes bs < 2 ^ (8 * bs.length) := by
  induction bs with
  | nil => exact Nat.one_pos
  | cons b bs ih =>
      have hrest := ih fun c hc => h c (List.mem_cons_of_mem b hc)
      have hb := h b List.mem_cons_self
      rw [List.length_cons, Nat.mul_succ, Nat.pow_add]
      unfold ofBytes
      omega

theorem fileBytes_lt (pos n : Nat) : ∀ b ∈ fileBytes file pos n, b < 2 ^ 8 := by
  intro b hb
  obtain ⟨k, -, rfl⟩ := List.mem_map.mp hb
  exact (file (pos + k)).toNat_lt

theorem chunkLen_lt (file : Nat → UInt8) (pos : Nat) : chunkLen file pos < 2 ^ 32 := by
  have h := ofBytes_lt _ (@fileBytes_lt file (pos + 4) 4)
  rwa [show (fileBytes file (pos + 4) 4).length = 4 from rfl] at h

theorem cellLe32_meets {base len i : Nat} (hin : i + 8 ≤ len) (hlen : len < 2 ^ 31) :
    (cellLe32 base len (i + 4)).Meets (cellAt file) InBuf fun n => n = chunkLen file (base + i) := by
  unfold cellLe32
  rw [map_eq_pure_bind]
  refine (cellsOf_meets (by omega) hlen).bind fun bs hbs => meets_pure ?_
  rw [hbs]
  rfl

theorem itemLoop_goes {base len : Nat} (hlen : len < 2 ^ 31)
    (hitems : ∀ i, AtItem file base len i → i + 8 + chunkLen file (base + i) < 2 ^ 32)
    (turns i : Nat) (hi : i + 8 ≤ len → AtItem file base len i) (hbound : i ≤ len + 1)
    (hturns : len + 1 - i < turns) (w : Wav) :
    Goes (cellAt file) InBuf (itemLoop base len turns i w) (fun _ => False)
      fun w' => ∃ s, w' = { w with song := s } := by
  induction turns generalizing i w with
  | zero => exact absurd hturns (Nat.not_lt_zero _)
  | succ turns ih =>
      rw [itemLoop, u32_of_lt (show i + 8 < 2 ^ 32 by omega)]
      split
      · next hin =>
        have hat := hi hin
        have hfit := hitems i hat
        rw [u32_of_lt (show i + 4 < 2 ^ 32 by omega)]
        refine (goes_lift (cellLe32_meets hin hlen)).bind fun sl hsl => ?_
        refine (goes_lift (@cellsOf_meets file base len 4 i (by omega) hlen)).bind fun id _ => ?_
        rw [u32_of_lt (show i + 8 + sl < 2 ^ 32 by omega)]
        split
        · exact goes_pure ⟨w.song, rfl⟩
        · next hroom =>
          have hpad := le_padded sl
          have hnext : u32 (i + u32 (8 + pad32 sl)) = i + 8 + padded sl := by
            rw [pad32_eq (by omega), u32_of_lt (show 8 + padded sl < 2 ^ 32 by omega),
              u32_of_lt (by omega), Nat.add_assoc]
          have hgo (w : Wav) := ih (i + 8 + padded sl)
            (fun hmore => by rw [hsl] at hmore ⊢; exact .next hat hmore) (by omega) (by omega) w
          rw [hnext]
          split
          · have hbytes : i + 8 + min sl tagLen ≤ len := by omega
            refine (goes_lift (cellsOf_meets hbytes hlen)).bind fun bytes _ => ?_
            exact hgo { w with song := setItem id bytes w.song }
          · exact hgo w
      · exact goes_pure ⟨w.song, rfl⟩

-- ================================================================== chunks

/-- Where the sound is: within the file. -/
def DataInside (size : Nat) (w : Wav) : Prop := w.dataStart ≤ w.dataEnd ∧ w.dataEnd ≤ size

theorem AtChunk.room {pos : Nat} (h : AtChunk file size pos) : pos + 8 ≤ size := by
  cases h with
  | first h => exact Nat.le_trans (by decide) h
  | next _ h => exact h

theorem listChunk_goes {items pos : Nat} (hfit : ChunksFit file size alloc)
    (hat : AtChunk file size pos) (hid : fileBytes file pos 4 = listId)
    (hlen : chunkLen file pos < 65536) (hitems : 65536 < items) (w : Wav) :
    Goes (cellAt file) InBuf (listChunk size alloc items (pos + 8) (chunkLen file pos) w)
      (fun _ => False) fun w' => ∃ s, w' = { w with song := s } := by
  unfold listChunk
  split
  · next h =>
    obtain ⟨halloc, hread⟩ := h
    have hroom := hat.room
    have hends := hfit.ends pos hat
    have hpad := le_padded (chunkLen file pos)
    have hin : pos + 8 + chunkLen file pos ≤ size := by
      unfold readCount at hread
      omega
    have hlist := hfit.lists pos hat hid hlen halloc hin
    have htype := hlist.type
    refine (goes_lift (@cellsOf_meets file (pos + 8) _ 4 0 (by omega) (by omega))).bind
      fun id hid' => ?_
    split
    · next hinfo =>
      rw [hinfo, Nat.add_zero] at hid'
      exact itemLoop_goes (by omega) (hlist.items hid'.symm) items 4 .first (by omega) (by omega) w
    · exact goes_pure ⟨w.song, rfl⟩
  · exact goes_pure ⟨w.song, rfl⟩

theorem chunkLoop_goes {items : Nat} (hsize : size < 2 ^ 32) (hfit : ChunksFit file size alloc)
    (hitems : 65536 < items) (turns pos : Nat) (hpos : pos < 2 ^ 32)
    (hat : pos + 8 ≤ size → AtChunk file size pos) (hturns : size - pos < turns) (w : Wav) :
    Goes (cellAt file) InBuf (chunkLoop file size alloc stack items turns pos w) (fun _ => False)
      fun w' => DataInside size w' ∨ w'.dataStart = w.dataStart ∧ w'.dataEnd = w.dataEnd := by
  induction turns generalizing pos w with
  | zero => exact absurd hturns (Nat.not_lt_zero _)
  | succ turns ih =>
      by_cases hin : pos + 8 ≤ size
      · have hat' := hat hin
        have hends := hfit.ends pos hat'
        have hpad := le_padded (chunkLen file pos)
        have hread : ¬ readCount size pos 8 ≠ 8 := by
          unfold readCount
          omega
        have hnext : u32 (pos + u32 (8 + pad32 (chunkLen file pos)))
            = pos + 8 + padded (chunkLen file pos) := by
          have hlt := chunkLen_lt file pos
          rw [pad32_eq (by omega), u32_of_lt (show 8 + padded (chunkLen file pos) < 2 ^ 32 by omega),
            u32_of_lt (by omega), Nat.add_assoc]
        have hgo (w : Wav) := ih (pos + 8 + padded (chunkLen file pos)) hends (.next hat')
          (by omega) w
        rw [chunkLoop, u32_of_lt (show pos + 8 < 2 ^ 32 by omega), if_pos hin, if_neg hread]
        have hlen : ofBytes (fileBytes file (pos + 4) 4) = chunkLen file pos := rfl
        dsimp only
        rw [hlen, hnext]
        split
        · exact hgo _
        · split
          · refine (hgo _).mono (fun _ h => h) fun w' hw' => ?_
            have hdata : DataInside size (setData size pos (chunkLen file pos) w) := by
              unfold DataInside setData
              dsimp only
              rw [u32_of_lt (show pos + 8 < 2 ^ 32 by omega),
                u32_of_lt (show pos + 8 + chunkLen file pos < 2 ^ 32 by omega)]
              split
              · omega
              · omega
            rcases hw' with hw' | ⟨hstart, hend⟩
            · exact .inl hw'
            · unfold DataInside at hdata ⊢
              rw [hstart, hend]
              exact .inl hdata
          · split
            · next hlist =>
              refine (listChunk_goes hfit hat' hlist.1 hlist.2 hitems w).bind fun w' hw' => ?_
              obtain ⟨s, rfl⟩ := hw'
              exact hgo { w with song := s }
            · exact hgo w
      · have hread : u32 (pos + 8) ≤ size → readCount size pos 8 ≠ 8 := by
          unfold readCount
          omega
        rw [chunkLoop]
        split
        · next h =>
          rw [if_pos (hread h)]
          exact goes_pure (.inr ⟨rfl, rfl⟩)
        · exact goes_pure (.inr ⟨rfl, rfl⟩)

-- ============================================================== open_wav

variable (file size alloc stack)

/-- A file of one frame: 8 kHz, mono, 16 bits. -/
def oneFrame (a : Nat) : UInt8 :=
  ([0x52, 0x49, 0x46, 0x46, 38, 0, 0, 0, 0x57, 0x41, 0x56, 0x45,
    0x66, 0x6d, 0x74, 0x20, 16, 0, 0, 0, 1, 0, 1, 0, 0x40, 0x1f, 0, 0, 0x80, 0x3e, 0, 0, 2, 0, 16, 0,
    0x64, 0x61, 0x74, 0x61, 2, 0, 0, 0, 5, 1] : List UInt8).getD a 0

end Ncmips.Music
