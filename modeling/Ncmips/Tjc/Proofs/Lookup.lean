/-
The tables of `build_huff` for every histogram that leaves room, against
plain decoding: the code words in a list, and the first one the bits start
with.

Where the bits match no code up to some length they lie past all codes of
that length (`past_of_none`). So one comparison with the last code of the
next length is enough, and the place it computes is in the table.
-/
import Ncmips.Tjc.Proofs.Entropy

namespace Ncmips.Tjc

open Bits Canonical

-- ============================================================== histograms

/-- Different symbols of a byte each, `bits[len - 1]` of them with a code
of `len` bits, and a Kraft sum of at most 1. -/
structure Histogram (bits vals : List Nat) : Prop where
  lengths : bits.length = 16
  count : vals.length = bits.sum
  nodup : vals.Nodup
  byte : ∀ v ∈ vals, v < 256
  kraft : ((List.range 16).map fun i => bits.getD i 0 * 2 ^ (15 - i)).sum ≤ 2 ^ 16

variable {bits vals : List Nat}

theorem index_hist (bits : List Nat) (L : Nat) :
    index (hist bits) (L + 1) = ((List.range L).map fun i => bits.getD i 0).sum := by
  induction L with
  | zero => rfl
  | succ L ih =>
      rw [List.range_succ, List.map_append, List.sum_append, ← ih]
      rfl

theorem index_sum (h : bits.length = 16) : index (hist bits) 17 = bits.sum := by
  rw [index_hist, ← h]
  congr 1
  apply List.ext_getElem
  · rw [List.length_map, List.length_range]
  · intro i hi _
    rw [List.length_map, List.length_range] at hi
    rw [List.getElem_map, List.getElem_range, List.getD_eq_getElem _ _ hi]

theorem Histogram.canon (h : Histogram bits vals) : Canon bits vals where
  nodup := h.nodup
  count := by rw [index_sum h.lengths, h.count]
  fits := by
    apply fits_of_kraft
    refine le_trans (le_of_eq ?_) h.kraft
    rw [List.range_succ_eq_map, List.map_cons, List.sum_cons, List.map_map]
    simp only [hist, Nat.zero_mul, Nat.zero_add]
    rfl
  byte := h.byte

/-- Symbols are bytes, so no table of 256 runs over. -/
theorem Histogram.length_le (h : Histogram bits vals) : vals.length ≤ 256 := by
  have hsub : vals.toFinset ⊆ Finset.range 256 := by
    intro v hv
    exact Finset.mem_range.2 (h.byte v (List.mem_toFinset.1 hv))
  have hcard := Finset.card_le_card hsub
  rwa [Finset.card_range, List.toFinset_card_of_nodup h.nodup] at hcard

-- ============================================================= plain codes

/-- The code words, shortest first, each with its symbol. -/
def codeWords (bits vals : List Nat) : List (List Bool × Nat) :=
  (List.range' 1 16).flatMap fun l =>
    (List.range (hist bits l)).map fun j =>
      (Bits.ofNat l (first (hist bits) l + j), vals.getD (index (hist bits) l + j) 0)

/-- Plain prefix decoding: the symbol of the code word that the bits start
with, and the word's length. -/
def plainDecode (bits vals : List Nat) (s : Nat → Bool) (p : Nat) : Option (Nat × Nat) :=
  ((codeWords bits vals).find? fun c => Starts s p c.1).map fun c => (c.2, c.1.length)

theorem mem_codeWords {c : List Bool × Nat} :
    c ∈ codeWords bits vals ↔ ∃ l j, 1 ≤ l ∧ l ≤ 16 ∧ j < hist bits l
      ∧ c = (Bits.ofNat l (first (hist bits) l + j), vals.getD (index (hist bits) l + j) 0) := by
  simp only [codeWords, List.mem_flatMap, List.mem_map, List.mem_range, List.mem_range'_1]
  constructor
  · rintro ⟨l, ⟨h1, hl⟩, j, hj, rfl⟩
    exact ⟨l, j, h1, by omega, hj, rfl⟩
  · rintro ⟨l, j, h1, hl, hj, rfl⟩
    exact ⟨l, ⟨h1, by omega⟩, j, hj, rfl⟩

/-- Where plain decoding finds a code, that code is the window. -/
theorem plain_some (h : Canon bits vals) {s : Nat → Bool} {p v len : Nat}
    (hs : plainDecode bits vals s p = some (v, len)) :
    ∃ j, 1 ≤ len ∧ len ≤ 16 ∧ j < hist bits len
      ∧ window s p len = first (hist bits) len + j
      ∧ vals.getD (index (hist bits) len + j) 0 = v := by
  obtain ⟨c, hc, hpair⟩ := Option.map_eq_some_iff.1 hs
  obtain ⟨l, j, h1, hl, hj, rfl⟩ := mem_codeWords.1 (List.mem_of_find?_eq_some hc)
  have hstarts : Starts s p (Bits.ofNat l (first (hist bits) l + j)) := by
    simpa using List.find?_some hc
  rw [ofNat_length] at hpair
  obtain ⟨rfl, rfl⟩ := Prod.mk.inj hpair
  have hw := window_of_starts hstarts
  rw [Nat.mod_eq_of_lt (by have := h.fits l hl; omega)] at hw
  exact ⟨j, h1, hl, hj, hw, rfl⟩

/-- Where it finds none, no window is a code. -/
theorem plain_none (h : Canon bits vals) {s : Nat → Bool} {p : Nat}
    (hs : plainDecode bits vals s p = none) :
    ∀ l ≤ 16, ∀ j < hist bits l, window s p l ≠ first (hist bits) l + j := by
  intro l hl j hj hw
  have hfind := Option.map_eq_none_iff.1 hs
  rw [List.find?_eq_none] at hfind
  rcases Nat.eq_zero_or_pos l with rfl | h1
  · exact absurd hj (Nat.not_lt_zero j)
  · refine hfind _ (mem_codeWords.2 ⟨l, j, h1, hl, hj, rfl⟩) (decide_eq_true ?_)
    apply starts_of_window
    rw [Nat.mod_eq_of_lt (by have := h.fits l hl; omega), hw]

/-- Bits start with one code word at most: the order of the list does not
matter. -/
theorem codeWords_unique (h : Canon bits vals) {s : Nat → Bool} {p : Nat}
    {c c' : List Bool × Nat} (hc : c ∈ codeWords bits vals) (hc' : c' ∈ codeWords bits vals)
    (hs : Starts s p c.1) (hs' : Starts s p c'.1) : c = c' := by
  obtain ⟨l, j, -, hl, hj, rfl⟩ := mem_codeWords.1 hc
  obtain ⟨l', j', -, hl', hj', rfl⟩ := mem_codeWords.1 hc'
  have hcut : ∀ {a i}, a ≤ 16 → i < hist bits a →
      Starts s p (Bits.ofNat a (first (hist bits) a + i)) →
      window s p 16 / 2 ^ (16 - a) = first (hist bits) a + i := by
    intro a i ha hi hst
    have hw := window_of_starts hst
    rw [Nat.mod_eq_of_lt (by have := h.fits a ha; omega)] at hw
    rw [← hw, ← window_div s p a (16 - a), Nat.add_sub_cancel' ha]
  obtain ⟨rfl, rfl⟩ := cut_unique hj hj' hl hl' (hcut hl hj hs) (hcut hl' hj' hs')
  rfl

-- ================================================================ decoding

variable {br : BitReader} {data : List UInt8} {p : Nat}

theorem window_double (s : Nat → Bool) (p l : Nat) : 2 * window s p l ≤ window s p (l + 1) :=
  Nat.le_add_right ..

/-- No code matches: neither table does. -/
theorem huffDecode_none (hat : br.At data p)
    (hnone : ∀ l ≤ 16, ∀ j < hist bits l,
      window (bitAt data) p l ≠ first (hist bits) l + j) :
    ∃ br', huffDecode br (buildHuff bits vals).dec = (none, br') ∧ br'.At data p := by
  obtain ⟨hB, hb⟩ := built bits vals
  obtain ⟨hrat, hcnt⟩ := hat.refill
  have hpast := past_of_none rfl (window_double (bitAt data) p) hnone
  have hmiss : (buildHuff bits vals).dec.lut (window (bitAt data) p 9) = 0 := by
    apply hB.miss
    intro l j hc hl hcode
    have hcut := window_div (bitAt data) p l (9 - l)
    rw [Nat.add_sub_cancel' hl, hcode] at hcut
    exact hnone l (by omega) j (hc.lt (Nat.zero_le _)) hcut.symm
  refine ⟨br.refill, ?_, hrat⟩
  simp only [huffDecode, hrat.peek (show 9 ≤ br.refill.cnt by omega), hmiss, ne_eq,
    not_true_eq_false, if_false]
  have hskip := @huffLong_skip br.refill (buildHuff bits vals).dec 10 7 [] (by
    intro l h10 hl
    rw [hrat.peek (show l ≤ br.refill.cnt by omega), hb.maxcode l (by omega) (by omega)]
    have := hpast l (by omega)
    split <;> omega)
  rw [List.append_nil] at hskip
  exact hskip

/-- Symbols of a length end where the next length's begin. -/
theorem Canon.index_lt (h : Canon bits vals) {l j : Nat} (hl : l ≤ 16) (hj : j < hist bits l) :
    index (hist bits) l + j < vals.length := by
  have hstep : index (hist bits) (l + 1) = index (hist bits) l + hist bits l := rfl
  have hmono : index (hist bits) (l + 1) ≤ index (hist bits) 17 := index_mono (by omega)
  rw [h.count] at hmono
  omega

/-- On all bits the tables decode what plain decoding does, and the reader
moves on by the length of the code. -/
theorem huffDecode_plain (h : Canon bits vals) (hat : br.At data p) :
    ∃ br', huffDecode br (buildHuff bits vals).dec
        = ((plainDecode bits vals (bitAt data) p).map Prod.fst, br')
      ∧ br'.At data (p + ((plainDecode bits vals (bitAt data) p).map Prod.snd).getD 0) := by
  rcases hplain : plainDecode bits vals (bitAt data) p with _ | ⟨v, len⟩
  · exact huffDecode_none hat (plain_none h hplain)
  · obtain ⟨j, h1, hl, hj, hw, rfl⟩ := plain_some h hplain
    have hin := h.index_lt hl hj
    have hbyte := h.byte _ (List.getElem_mem hin)
    rw [← List.getD_eq_getElem _ 0 hin] at hbyte
    exact huffDecode_code hat h1 hl hj hw hbyte

/-- What the encoder's table writes behind any bits, the decoder's reads. -/
theorem huffDecode_putSym (h : Canon bits vals) {bw : BitWriter} (hn : bw.n < 8) {sym : Nat}
    (hsym : sym ∈ vals)
    (hat : br.At (bw.putSym (buildHuff bits vals).enc sym).flush bw.bits.length) :
    ∃ br', huffDecode br (buildHuff bits vals).dec = (some sym, br')
      ∧ br'.At (bw.putSym (buildHuff bits vals).enc sym).flush
          (bw.bits.length + (buildHuff bits vals).enc.size sym) := by
  obtain ⟨hbits, hn'⟩ := BitWriter.putSym_spec hn h hsym
  obtain ⟨pad, hflush, -⟩ := BitWriter.flush_spec hn'
  have hstarts := starts_ofBytes (bw.putSym (buildHuff bits vals).enc sym).flush []
  rw [List.append_nil, hflush, hbits, starts_append, starts_append] at hstarts
  obtain ⟨br', hdec, hat'⟩ := h.decode hsym hat (by simpa using hstarts.1.2)
  refine ⟨br', hdec, ?_⟩
  rwa [symBits, ofNat_length] at hat'

-- ================================================================= indices

/-- The places that a turn of the inner loop of `build_huff` goes to. -/
structure SymInBounds (vals : List Nat) (len : Nat) (b : HuffBuild) : Prop where
  value : b.k < vals.length
  place : b.k < 256
  symbol : vals.getD b.k 0 < 256
  lookahead : len ≤ 9 → b.code <<< (9 - len) + 1 <<< (9 - len) ≤ 512

/-- Before symbol `i` of length `L + 1`. -/
def symState (bits vals : List Nat) (L i : Nat) : HuffBuild :=
  (HuffBuild.sym vals (L + 1))^[i]
    (((List.range' 1 L).foldl (HuffBuild.len bits vals) .init).setOff (L + 1))

theorem built_symState (bits vals : List Nat) {L i : Nat} (hi : i ≤ hist bits (L + 1)) :
    Built (hist bits) vals L i (symState bits vals L i) := by
  have hoff : Built (hist bits) vals L 0
      (((List.range' 1 L).foldl (HuffBuild.len bits vals) .init).setOff (L + 1)) :=
    (built_upTo bits vals L).1.congr rfl rfl rfl rfl
  exact hoff.syms i hi

theorem symState_inBounds (h : Histogram bits vals) {L i : Nat} (hL : L < 16)
    (hi : i < hist bits (L + 1)) : SymInBounds vals (L + 1) (symState bits vals L i) := by
  have hB := built_symState bits vals hi.le
  have hk : (symState bits vals L i).k < vals.length := by
    rw [hB.k]
    exact h.canon.index_lt (by omega) hi
  refine ⟨hk, hk.trans_le h.length_le, ?_, fun h9 => ?_⟩
  · rw [List.getD_eq_getElem _ 0 hk]
    exact h.byte _ (List.getElem_mem hk)
  · have hfit := h.canon.fits (L + 1) (by omega)
    rw [hB.code, Nat.shiftLeft_eq, Nat.shiftLeft_eq, ← Nat.add_mul]
    calc (first (hist bits) (L + 1) + i + 1) * 2 ^ (9 - (L + 1))
        ≤ 2 ^ (L + 1) * 2 ^ (9 - (L + 1)) := Nat.mul_le_mul_right _ (by omega)
      _ = 512 := by rw [← Nat.pow_add, Nat.add_sub_cancel' h9]

/-- Where the lookahead misses and the comparisons stop, the place is in
the table: the bits are no longer than the last code, and not before the
first. -/
theorem valoff_inBounds (h : Canon bits vals) (hat : br.At data p)
    (hmiss : (buildHuff bits vals).dec.lut (br.refill.peek 9) = 0) {l : Nat} (h10 : 10 ≤ l)
    (hl : l ≤ 16)
    (hpassed : ∀ a, 10 ≤ a → a < l →
      (buildHuff bits vals).dec.maxcode a < (br.refill.peek a : Int))
    (hstop : (br.refill.peek l : Int) ≤ (buildHuff bits vals).dec.maxcode l) :
    0 ≤ (br.refill.peek l : Int) + (buildHuff bits vals).dec.valoff l
      ∧ (br.refill.peek l : Int) + (buildHuff bits vals).dec.valoff l < vals.length := by
  obtain ⟨hB, hb⟩ := built bits vals
  obtain ⟨hrat, hcnt⟩ := hat.refill
  have hpeek : ∀ a ≤ 16, br.refill.peek a = window (bitAt data) p a :=
    fun a ha => hrat.peek (by omega)
  -- nothing shorter matches
  have hnone : ∀ a ≤ l - 1, ∀ j < hist bits a,
      window (bitAt data) p a ≠ first (hist bits) a + j := by
    intro a ha j hj hw
    have h1 : 1 ≤ a := by
      rcases Nat.eq_zero_or_pos a with rfl | hpos
      · exact absurd hj (Nat.not_lt_zero j)
      · exact hpos
    rcases Nat.lt_or_ge 9 a with h9 | h9
    · have hpass := hpassed a h9 (by omega)
      rw [hpeek a (by omega), hb.maxcode a h1 (by omega), if_neg (by omega)] at hpass
      omega
    · have hcut := window_div (bitAt data) p a (9 - a)
      rw [Nat.add_sub_cancel' h9] at hcut
      have hhit := hB.hit a j _ (Or.inl ⟨h1, by omega, hj⟩) h9 (hcut.trans hw)
      rw [hpeek 9 (by omega), hhit] at hmiss
      omega
  have hpast := past_of_none rfl (window_double (bitAt data) p) hnone (l - 1) le_rfl
  have hdouble := window_double (bitAt data) p (l - 1)
  have hfirst : first (hist bits) (l - 1 + 1)
      = 2 * (first (hist bits) (l - 1) + hist bits (l - 1)) := rfl
  rw [Nat.sub_add_cancel (by omega)] at hdouble hfirst
  rw [hpeek l hl, hb.maxcode l (by omega) hl] at hstop
  have hne : hist bits l ≠ 0 := by
    intro hzero
    rw [if_pos hzero] at hstop
    omega
  rw [if_neg hne] at hstop
  rw [hpeek l hl, hb.valoff l (by omega) hl hne]
  have hin := @Canon.index_lt _ _ h l (window (bitAt data) p l - first (hist bits) l) hl (by omega)
  omega

theorem peek_lt (br : BitReader) {n : Nat} (hn : n ≤ 32) : br.peek n < 2 ^ n := by
  unfold BitReader.peek
  rw [BitVec.toNat_ushiftRight, Nat.shiftRight_eq_div_pow, Nat.div_lt_iff_lt_mul (by positivity),
    ← Nat.pow_add, Nat.add_sub_cancel' hn]
  exact br.buf.isLt

-- ============================================================== the tables

/-- The tables of any histogram with room: they decode what plain decoding
does, bits without a code included; a symbol written is read back; and no
index leaves its array, neither while the tables are filled nor when they
are read. -/
theorem lookup_canonical (h : Histogram bits vals) :
    (∀ s p, ∀ c ∈ codeWords bits vals, ∀ c' ∈ codeWords bits vals,
        Starts s p c.1 → Starts s p c'.1 → c = c')
      ∧ (∀ (br : BitReader) data p, br.At data p →
          ∃ br', huffDecode br (buildHuff bits vals).dec
              = ((plainDecode bits vals (bitAt data) p).map Prod.fst, br')
            ∧ br'.At data (p + ((plainDecode bits vals (bitAt data) p).map Prod.snd).getD 0))
      ∧ (∀ sym ∈ vals, ∀ (bw : BitWriter) (br : BitReader), bw.n < 8 →
          br.At (bw.putSym (buildHuff bits vals).enc sym).flush bw.bits.length →
          ∃ br', huffDecode br (buildHuff bits vals).dec = (some sym, br')
            ∧ br'.At (bw.putSym (buildHuff bits vals).enc sym).flush
                (bw.bits.length + (buildHuff bits vals).enc.size sym))
      ∧ (∀ L < 16, ∀ i < hist bits (L + 1), SymInBounds vals (L + 1) (symState bits vals L i))
      ∧ ∀ (br : BitReader) data p, br.At data p →
          br.refill.peek 9 < 512
            ∧ ((buildHuff bits vals).dec.lut (br.refill.peek 9) = 0 →
                ∀ l, 10 ≤ l → l ≤ 16 →
                  (∀ a, 10 ≤ a → a < l →
                    (buildHuff bits vals).dec.maxcode a < (br.refill.peek a : Int)) →
                  (br.refill.peek l : Int) ≤ (buildHuff bits vals).dec.maxcode l →
                  0 ≤ (br.refill.peek l : Int) + (buildHuff bits vals).dec.valoff l
                    ∧ (br.refill.peek l : Int) + (buildHuff bits vals).dec.valoff l < 256) := by
  refine ⟨?_, ?_, ?_, ?_, ?_⟩
  · exact fun s p c hc c' hc' => codeWords_unique h.canon hc hc'
  · exact fun br data p hat => huffDecode_plain h.canon hat
  · exact fun sym hsym bw br hn hat => huffDecode_putSym h.canon hn hsym hat
  · exact fun L hL i hi => symState_inBounds h hL hi
  · intro br data p hat
    refine ⟨peek_lt br.refill (show 9 ≤ 32 by decide), fun hmiss l h10 hl hpassed hstop => ?_⟩
    obtain ⟨hpos, hlt⟩ := valoff_inBounds h.canon hat hmiss h10 hl hpassed hstop
    have hlen := h.length_le
    exact ⟨hpos, by omega⟩

/-- The table of the DC differences is one of them. -/
theorem lookup_canonical_dcLuma :
    Histogram kDcLumaBits kDcLumaVals
      ∧ ∀ s p, ∀ c ∈ codeWords kDcLumaBits kDcLumaVals,
          ∀ c' ∈ codeWords kDcLumaBits kDcLumaVals,
          Starts s p c.1 → Starts s p c'.1 → c = c' :=
  have h : Histogram kDcLumaBits kDcLumaVals :=
    ⟨by decide, by decide, by decide, by decide, by decide⟩
  ⟨h, (lookup_canonical h).1⟩

end Ncmips.Tjc
