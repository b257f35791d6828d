/-
Entropy coding round trip: any number of blocks through one writer and
one reader.

Each block has its own tables and a component whose DC predictor it
shares. `blocksBits` is all that the writer has appended for a list of
blocks; the reader, standing at these bits, goes through the same
predictors and gets the clamped products back. `flush` then adds fewer
than eight bits, and these are what the reader leaves.
-/
import Ncmips.Tjc.Proofs.Tile

namespace Ncmips.Tjc

open Bits

-- ==================================================== sequences of blocks

/-- A block to code: its coefficients in zigzag order, its Huffman table,
its quant table in zigzag order and the component it belongs to. -/
structure CodedBlock (ι : Type) where
  zz : Nat → Int
  table : Bool
  dq : Nat → Nat
  comp : ι

variable {ι : Type}

/-- `encode_block` for each block; the DC predictors after each. -/
def writeCoded [DecidableEq ι] : List (CodedBlock ι) → BitWriter → (ι → Int) → BitWriter × List (ι → Int)
  | [], bw, _ => (bw, [])
  | b :: bs, bw, preds =>
      let (bw, pred) := encodeBlock bw b.zz (preds b.comp) b.table
      let preds := Function.update preds b.comp pred
      let (bw, rest) := writeCoded bs bw preds
      (bw, preds :: rest)

/-- What `decode_block` returns for one block: its result, the
coefficients, the DC predictors after it. -/
structure ReadBlock (ι : Type) where
  r : Option Bool
  coef : Block Int32
  preds : ι → Int

/-- `decode_block` for each block. -/
def readCoded [DecidableEq ι] : List (CodedBlock ι) → BitReader → (ι → Int) → BitReader × List (ReadBlock ι)
  | [], br, _ => (br, [])
  | b :: bs, br, preds =>
      let o := decodeBlock br b.table b.dq (preds b.comp)
      let preds := Function.update preds b.comp o.pred
      let (br, rest) := readCoded bs o.br preds
      (br, { r := o.r, coef := o.coef, preds } :: rest)

/-- Bits of the input not yet consumed. -/
def BitReader.unread (br : BitReader) : Nat := br.data.length * 8 - (br.pos * 8 - br.cnt)

/-- A dequantised coefficient: the product, clamped. -/
def CodedBlock.dequantised (b : CodedBlock ι) (k : Nat) : Int :=
  min 2047 (max (-2048) (b.zz k * b.dq k))

/-- Whether an AC coefficient is not zero. -/
def CodedBlock.hasAc (b : CodedBlock ι) : Prop := ∃ k, 1 ≤ k ∧ k < 64 ∧ b.zz k ≠ 0

instance (b : CodedBlock ι) : Decidable b.hasAc :=
  decidable_of_iff (∃ k < 64, 1 ≤ k ∧ b.zz k ≠ 0)
    ⟨fun ⟨k, h64, h1, hne⟩ => ⟨k, h1, h64, hne⟩, fun ⟨k, h1, h64, hne⟩ => ⟨k, h64, h1, hne⟩⟩

/-- What came back is the block, with the writer's predictors. -/
structure ReadBlock.Of (o : ReadBlock ι) (b : CodedBlock ι) (preds : ι → Int) : Prop where
  ac : o.r = some (decide b.hasAc)
  coef : ∀ k < 64, (o.coef (zigzag k)).toInt = b.dequantised k
  preds : o.preds = preds

-- ============================================================== one block

theorem clampCoef_toInt (v : Int) : (clampCoef v).toInt = min 2047 (max (-2048) v) := by
  unfold clampCoef
  exact Int32.toInt_ofInt_of_le (by omega) (by omega)

/-- A place before the ones that are filled stays as it is. -/
theorem placeAc_before (dq : Nat → Nat) (vs : List Int) {k j : Nat} (hj : j < k)
    (hk : k + vs.length ≤ 64) (coef : Block Int32) :
    placeAc dq k vs coef (zigzag j) = coef (zigzag j) := by
  induction vs generalizing k coef with
  | nil => rfl
  | cons v vs ih =>
      rw [List.length_cons] at hk
      rw [placeAc, ih (by omega) (by omega)]
      split
      · rfl
      · rw [Function.update_of_ne]
        intro heq
        have := zigzag_injective (by omega) (by omega) heq
        omega

/-- Each place gets its clamped product; a zero is there already. -/
theorem placeAc_at (dq : Nat → Nat) (zz : Nat → Int) (m : Nat) {k j : Nat} (hkj : k ≤ j)
    (hjm : j < k + m) (hm : k + m ≤ 64) {coef : Block Int32}
    (hzero : ∀ i, k ≤ i → i < 64 → coef (zigzag i) = 0) :
    placeAc dq k ((List.range' k m).map zz) coef (zigzag j) = clampCoef (zz j * dq j) := by
  induction m generalizing k coef with
  | zero => omega
  | succ m ih =>
      rw [List.range'_succ, List.map_cons, placeAc]
      rcases Nat.eq_or_lt_of_le hkj with rfl | hlt
      · rw [placeAc_before _ _ (Nat.lt_succ_self _) (by simp; omega)]
        split
        · next h0 => rw [hzero k le_rfl (by omega), h0, Int.zero_mul, clampCoef_zero]
        · rw [Function.update_self]
      · apply ih hlt (by omega) (by omega)
        intro i hi hi64
        split
        · exact hzero i (by omega) hi64
        · rw [Function.update_of_ne, hzero i (by omega) hi64]
          intro heq
          have := zigzag_injective hi64 (by omega) heq
          omega

/-- Every coefficient of a decoded block. -/
theorem placed_toInt (b : CodedBlock ι) {k : Nat} (hk : k < 64) :
    (placeAc b.dq 1 ((List.range' 1 63).map b.zz)
      (Function.update (fun _ => 0) 0 (clampCoef (b.zz 0 * b.dq 0))) (zigzag k)).toInt
      = b.dequantised k := by
  rcases Nat.eq_zero_or_pos k with rfl | hpos
  · rw [placeAc_before _ _ Nat.zero_lt_one (by simp), show zigzag 0 = 0 by decide,
      Function.update_self, clampCoef_toInt]
    rfl
  · rw [placeAc_at b.dq b.zz 63 hpos (by omega) (by omega), clampCoef_toInt]
    · rfl
    · intro i h1 h64
      rw [Function.update_of_ne]
      intro heq
      have := zigzag_injective h64 (by decide : 0 < 64) (heq.trans (by decide : 0 = zigzag 0))
      omega

theorem any_ac (b : CodedBlock ι) :
    ((List.range' 1 63).map b.zz).any (· ≠ 0) = decide b.hasAc := by
  rw [Bool.eq_iff_iff, List.any_eq_true, decide_eq_true_iff]
  constructor
  · rintro ⟨v, hv, hne⟩
    obtain ⟨k, hk, rfl⟩ := List.mem_map.1 hv
    obtain ⟨h1, h64⟩ := List.mem_range'_1.1 hk
    exact ⟨k, h1, by omega, of_decide_eq_true hne⟩
  · rintro ⟨k, h1, h64, hne⟩
    exact ⟨b.zz k, List.mem_map_of_mem (List.mem_range'_1.2 ⟨h1, by omega⟩), decide_eq_true hne⟩

/-- Coefficients that the encoder makes. -/
def CodedBlock.Ok (b : CodedBlock ι) : Prop := ∀ k < 64, InRange (b.zz k)

-- =============================================================== the run

variable [DecidableEq ι]

/-- What the blocks add to the writer. -/
def blocksBits : List (CodedBlock ι) → (ι → Int) → List Bool
  | [], _ => []
  | b :: bs, preds =>
      blockBits b.table b.zz (preds b.comp)
        ++ blocksBits bs (Function.update preds b.comp (b.zz 0))

theorem update_inRange {preds : ι → Int} (hp : ∀ c, InRange (preds c)) (c : ι) {v : Int}
    (hv : InRange v) (c' : ι) : InRange (Function.update preds c v c') := by
  by_cases h : c' = c
  · rw [h, Function.update_self]
    exact hv
  · rw [Function.update_of_ne h]
    exact hp c'

theorem writeCoded_spec (bs : List (CodedBlock ι)) (hbs : ∀ b ∈ bs, b.Ok) {preds : ι → Int}
    (hp : ∀ c, InRange (preds c)) {bw : BitWriter} (hn : bw.n < 8) :
    (writeCoded bs bw preds).1.bits = bw.bits ++ blocksBits bs preds
      ∧ (writeCoded bs bw preds).1.n < 8 := by
  induction bs generalizing preds bw with
  | nil => exact ⟨(List.append_nil _).symm, hn⟩
  | cons b bs ih =>
      have hb : b.Ok := hbs b (List.mem_cons_self ..)
      obtain ⟨hbits, hn'⟩ := encodeBlock_spec (t := b.table) hb (hp b.comp) hn
      obtain ⟨hrest, hlt⟩ := ih (fun b' h => hbs b' (List.mem_cons_of_mem _ h))
        (update_inRange hp b.comp (hb 0 (by decide))) hn'
      refine ⟨?_, hlt⟩
      rw [blocksBits, ← List.append_assoc, ← hbits]
      exact hrest

theorem writeCoded_length (bs : List (CodedBlock ι)) (preds : ι → Int) (bw : BitWriter) :
    (writeCoded bs bw preds).2.length = bs.length := by
  induction bs generalizing preds bw with
  | nil => rfl
  | cons b bs ih =>
      show (writeCoded bs _ _).2.length + 1 = bs.length + 1
      rw [ih]

/-- Reading gives the blocks and the writer's predictors, one after the
other, and stops behind the last bit. -/
theorem readCoded_spec (bs : List (CodedBlock ι)) (hbs : ∀ b ∈ bs, b.Ok) {preds : ι → Int}
    (hp : ∀ c, InRange (preds c)) (bw : BitWriter) {br : BitReader} {data : List UInt8} {p : Nat}
    (hat : br.At data p) (hs : Starts (bitAt data) p (blocksBits bs preds)) :
    List.Forall₂ (fun o b => ReadBlock.Of o b.1 b.2) (readCoded bs br preds).2
        (bs.zip (writeCoded bs bw preds).2)
      ∧ (readCoded bs br preds).1.At data (p + (blocksBits bs preds).length) := by
  induction bs generalizing preds bw br p with
  | nil => exact ⟨.nil, hat⟩
  | cons b bs ih =>
      have hb : b.Ok := hbs b (List.mem_cons_self ..)
      rw [blocksBits, starts_append] at hs
      obtain ⟨br', hdec, hat'⟩ := decodeBlock_spec b.dq hb (hp b.comp) hat hs.1
      obtain ⟨hrest, hend⟩ := ih (fun b' h => hbs b' (List.mem_cons_of_mem _ h))
        (update_inRange hp b.comp (hb 0 (by decide)))
        (encodeBlock bw b.zz (preds b.comp) b.table).1 hat' hs.2
      unfold readCoded writeCoded
      simp only [hdec, any_ac, encodeBlock, List.zip_cons_cons]
      refine ⟨.cons ?_ hrest, ?_⟩
      · exact { ac := rfl, coef := fun k hk => placed_toInt b hk, preds := rfl }
      · rw [blocksBits, List.length_append, ← Nat.add_assoc]
        exact hend

theorem BitReader.At.unread {br : BitReader} {data : List UInt8} {p : Nat} (h : br.At data p) :
    br.unread = 8 * data.length - p := by
  obtain ⟨rfl, hpos, hle, -⟩ := h
  unfold BitReader.unread
  omega

/-- Any blocks, with any tables and any sharing of predictors: what is
written and flushed is read back, with the writer's predictors after each
block; the reader has not run over and leaves less than a byte. -/
theorem blocks_roundTrip (bs : List (CodedBlock ι)) (hbs : ∀ b ∈ bs, b.Ok) :
    let written := writeCoded bs {} fun _ => 0
    let read := readCoded bs { data := written.1.flush } fun _ => 0
    written.2.length = bs.length
      ∧ List.Forall₂ (fun o b => ReadBlock.Of o b.1 b.2) read.2 (bs.zip written.2)
      ∧ read.1.overrun = false ∧ read.1.unread < 8 := by
  have hzero : ∀ _ : ι, InRange 0 := fun _ => ⟨by omega, by omega⟩
  obtain ⟨hbits, hn⟩ := @writeCoded_spec _ _ bs hbs _ hzero {} (by decide)
  have hempty : ({} : BitWriter).bits = [] := rfl
  rw [hempty, List.nil_append] at hbits
  obtain ⟨pad, hflush, hpad⟩ := BitWriter.flush_spec hn
  rw [hbits] at hflush
  have hlen : 8 * (writeCoded bs {} fun _ => 0).1.flush.length
      = (blocksBits bs fun _ => 0).length + pad.length := by
    rw [← ofBytes_length, hflush, List.length_append]
  have hstarts := starts_ofBytes (writeCoded bs {} fun _ => 0).1.flush []
  rw [List.append_nil, hflush, starts_append] at hstarts
  obtain ⟨hread, hat⟩ := readCoded_spec bs hbs hzero {} (BitReader.at_zero _) hstarts.1
  refine ⟨writeCoded_length bs _ _, hread, ?_, ?_⟩
  · rw [hat.overrun, decide_eq_false_iff_not]
    omega
  · rw [hat.unread]
    omega

/-- A run of 62 zeros behind a DC of -1023, then a block that shares its
predictor. -/
theorem blocks_roundTrip_pair :
    let b₁ : CodedBlock Bool :=
      { zz := fun k => if k = 0 then -1023 else if k = 63 then -1 else 0
        table := false, dq := fun _ => 255, comp := true }
    let b₂ : CodedBlock Bool :=
      { zz := fun k => if k = 0 then 1023 else 0, table := true, dq := fun _ => 1, comp := true }
    let written := writeCoded [b₁, b₂] {} fun _ => 0
    let read := readCoded [b₁, b₂] { data := written.1.flush } fun _ => 0
    written.2.length = 2
      ∧ List.Forall₂ (fun o b => ReadBlock.Of o b.1 b.2) read.2 ([b₁, b₂].zip written.2)
      ∧ read.1.overrun = false ∧ read.1.unread < 8 := by
  intro b₁ b₂
  apply blocks_roundTrip
  intro b hb k _
  rcases List.mem_pair.mp hb with rfl | rfl
  · unfold InRange b₁
    dsimp only
    split_ifs <;> omega
  · unfold InRange b₂
    dsimp only
    split_ifs <;> omega

end Ncmips.Tjc
