/-
`build_huff` and `huff_decode` against the canonical code of the
histogram (Lib/Canonical.lean).

`Built n vals L i b` is the loop invariant: lengths `1..L` are done and
so are the first `i` symbols of length `L + 1`. It says what each table
entry holds in terms of `first` and `index` alone, so the decoder never
looks at how the tables were filled. The 9-bit lookahead is the one
place where two codes could meet; `cut_unique` keeps them apart.

The end of the file is the pair the coder uses: what `putSym` writes,
`huffDecode` reads back (`huffDecode_sym`), and no symbol takes more
than 16 bits from any input (`huffDecode_some`).
-/
import Ncmips.Lib.Canonical
import Ncmips.Tjc.Proofs.Bitstream

namespace Ncmips.Tjc

open Bits Canonical

/-- The histogram of a `bits` table: `bits` is indexed from length 1. -/
def hist (bits : List Nat) : Nat → Nat
  | 0 => 0
  | l + 1 => bits.getD l 0

/-- Code `j` of length `l` is in the tables once lengths `1..L` and `i`
symbols of length `L + 1` are done. -/
def Coded (n : Nat → Nat) (L i l j : Nat) : Prop :=
  (1 ≤ l ∧ l ≤ L ∧ j < n l) ∨ (l = L + 1 ∧ j < i)

theorem coded_next {n : Nat → Nat} {L l j : Nat} :
    Coded n L (n (L + 1)) l j ↔ Coded n (L + 1) 0 l j := by
  constructor
  · rintro (⟨h1, h2, h3⟩ | ⟨rfl, h⟩)
    · exact Or.inl ⟨h1, by omega, h3⟩
    · exact Or.inl ⟨by omega, by omega, h⟩
  · rintro (⟨h1, h2, h3⟩ | ⟨-, h⟩)
    · rcases Nat.lt_or_ge l (L + 1) with hlt | hge
      · exact Or.inl ⟨h1, by omega, h3⟩
      · obtain rfl : l = L + 1 := by omega
        exact Or.inr ⟨rfl, h3⟩
    · omega

theorem Coded.lt {n : Nat → Nat} {L i l j : Nat} (hi : i ≤ n (L + 1))
    (h : Coded n L i l j) : j < n l := by
  rcases h with ⟨-, -, h⟩ | ⟨rfl, h⟩
  · exact h
  · exact h.trans_le hi

theorem Coded.le {n : Nat → Nat} {L i l j : Nat} (h : Coded n L i l j) : l ≤ L + 1 := by
  rcases h with ⟨-, h, -⟩ | ⟨rfl, -⟩ <;> omega

theorem coded_succ {n : Nat → Nat} {L i l j : Nat} :
    Coded n L (i + 1) l j ↔ Coded n L i l j ∨ (l = L + 1 ∧ j = i) := by
  unfold Coded
  omega

-- ========================================================= the decoder's

/-- The decoder's tables while they are being filled. -/
structure Built (n : Nat → Nat) (vals : List Nat) (L i : Nat) (b : HuffBuild) : Prop where
  code : b.code = first n (L + 1) + i
  k : b.k = index n (L + 1) + i
  sym : ∀ l j, Coded n L i l j →
    b.dec.vals (index n l + j) = vals.getD (index n l + j) 0
  hit : ∀ l j w, Coded n L i l j → l ≤ 9 → w / 2 ^ (9 - l) = first n l + j →
    b.dec.lut w = l * 256 + vals.getD (index n l + j) 0
  miss : ∀ w, (∀ l j, Coded n L i l j → l ≤ 9 → w / 2 ^ (9 - l) ≠ first n l + j) →
    b.dec.lut w = 0

/-- The comparison tables after lengths `1..L`. -/
structure Bounded (n : Nat → Nat) (L : Nat) (d : HuffDec) : Prop where
  maxcode : ∀ l, 1 ≤ l → l ≤ L →
    d.maxcode l = if n l = 0 then -1 else (first n l + n l : Int) - 1
  valoff : ∀ l, 1 ≤ l → l ≤ L → n l ≠ 0 → d.valoff l = (index n l : Int) - first n l

variable {n : Nat → Nat} {vals : List Nat} {L i : Nat} {b : HuffBuild}

/-- One lookahead entry per window that starts with the code. -/
theorem fillLut_apply (lut : Nat → Nat) (c m v w : Nat) :
    fillLut lut (c <<< m) (1 <<< m) v w = if w / 2 ^ m = c then v else lut w := by
  have hpos : 0 < 2 ^ m := by positivity
  have hiff : (c <<< m ≤ w ∧ w < c <<< m + 1 <<< m) ↔ w / 2 ^ m = c := by
    simp only [Nat.shiftLeft_eq, Nat.one_mul]
    rw [Nat.div_eq_iff hpos]
    omega
  simp only [fillLut, hiff]

theorem Built.succ (h : Built n vals L i b) (hi : i < n (L + 1)) :
    Built n vals L (i + 1) (b.sym vals (L + 1)) where
  code := by simp only [HuffBuild.sym, h.code]; omega
  k := by simp only [HuffBuild.sym, h.k]; omega
  sym := by
    intro l j hc
    simp only [HuffBuild.sym, h.k]
    rcases coded_succ.1 hc with hold | ⟨rfl, rfl⟩
    · rw [Function.update_of_ne, h.sym l j hold]
      intro heq
      obtain ⟨rfl, rfl⟩ := index_unique (hold.lt hi.le) hi heq
      rcases hold with ⟨-, hle, -⟩ | ⟨-, hlt⟩ <;> omega
    · rw [Function.update_self]
  hit := by
    intro l j w hc hl hw
    simp only [HuffBuild.sym, h.code, h.k]
    split
    · next h9 =>
      rw [fillLut_apply]
      split
      · -- the window starts with the new code: it is the one asked for
        next hnew =>
        obtain ⟨rfl, rfl⟩ := cut_unique (hc.lt hi) hi hl h9 hw hnew
        rfl
      · next hnew =>
        rcases coded_succ.1 hc with hold | ⟨rfl, rfl⟩
        · exact h.hit l j w hold hl hw
        · exact absurd hw hnew
    · next h9 =>
      rcases coded_succ.1 hc with hold | ⟨rfl, rfl⟩
      · exact h.hit l j w hold hl hw
      · omega
  miss := by
    intro w hw
    have hold := h.miss w fun l j hc hl => hw l j (coded_succ.2 (Or.inl hc)) hl
    simp only [HuffBuild.sym, h.code]
    split
    · next h9 =>
      rw [fillLut_apply, if_neg (hw _ _ (coded_succ.2 (Or.inr ⟨rfl, rfl⟩)) h9), hold]
    · exact hold

theorem Built.syms (h : Built n vals L 0 b) :
    ∀ i ≤ n (L + 1), Built n vals L i ((HuffBuild.sym vals (L + 1))^[i] b) := by
  intro i
  induction i with
  | zero => exact fun _ => h
  | succ i ih =>
      intro hi
      rw [Function.iterate_succ_apply']
      exact (ih (by omega)).succ (by omega)

theorem sym_maxcode (vals : List Nat) (len : Nat) (b : HuffBuild) :
    (b.sym vals len).dec.maxcode = b.dec.maxcode := rfl

theorem sym_valoff (vals : List Nat) (len : Nat) (b : HuffBuild) :
    (b.sym vals len).dec.valoff = b.dec.valoff := rfl

theorem syms_maxcode (vals : List Nat) (len i : Nat) (b : HuffBuild) :
    ((HuffBuild.sym vals len)^[i] b).dec.maxcode = b.dec.maxcode := by
  induction i with
  | zero => rfl
  | succ i ih => rw [Function.iterate_succ_apply', sym_maxcode, ih]

theorem syms_valoff (vals : List Nat) (len i : Nat) (b : HuffBuild) :
    ((HuffBuild.sym vals len)^[i] b).dec.valoff = b.dec.valoff := by
  induction i with
  | zero => rfl
  | succ i ih => rw [Function.iterate_succ_apply', sym_valoff, ih]

/-- The filled parts do not see `maxcode` and `valoff`. -/
theorem Built.congr {b b' : HuffBuild} (h : Built n vals L i b) (hcode : b'.code = b.code)
    (hk : b'.k = b.k) (hvals : b'.dec.vals = b.dec.vals) (hlut : b'.dec.lut = b.dec.lut) :
    Built n vals L i b' where
  code := hcode.trans h.code
  k := hk.trans h.k
  sym := by rw [hvals]; exact h.sym
  hit := by rw [hlut]; exact h.hit
  miss := by rw [hlut]; exact h.miss

/-- A finished length: the next one starts at twice the next code. -/
theorem Built.shift {b' : HuffBuild} (h : Built n vals L (n (L + 1)) b)
    (hcode : b'.code = b.code <<< 1) (hk : b'.k = b.k)
    (hvals : b'.dec.vals = b.dec.vals) (hlut : b'.dec.lut = b.dec.lut) :
    Built n vals (L + 1) 0 b' where
  code := by
    have hfirst : first n (L + 1 + 1) = 2 * (first n (L + 1) + n (L + 1)) := rfl
    rw [hcode, h.code, Nat.shiftLeft_eq, hfirst]
    omega
  k := by rw [hk, h.k]; rfl
  sym := by rw [hvals]; exact fun l j hc => h.sym l j (coded_next.2 hc)
  hit := by rw [hlut]; exact fun l j w hc => h.hit l j w (coded_next.2 hc)
  miss := by rw [hlut]; exact fun w hw => h.miss w fun l j hc => hw l j (coded_next.1 hc)

/-- What a length does when it has no symbols. -/
theorem len_zero {bits : List Nat} (vals : List Nat) (b : HuffBuild) (h : bits.getD L 0 = 0) :
    b.len bits vals (L + 1) =
      { b with
        dec := { b.dec with maxcode := Function.update b.dec.maxcode (L + 1) (-1) }
        code := b.code <<< 1 } := by
  simp only [HuffBuild.len, Nat.add_sub_cancel, h, if_true]

/-- The state the symbols of length `len` start from. -/
def HuffBuild.setOff (b : HuffBuild) (len : Nat) : HuffBuild :=
  { b with dec := { b.dec with
      valoff := Function.update b.dec.valoff len ((b.k : Int) - b.code) } }

/-- What a length does when it has symbols. -/
theorem len_pos {bits : List Nat} (vals : List Nat) (b : HuffBuild) (h : bits.getD L 0 ≠ 0) :
    b.len bits vals (L + 1) =
      let b₁ := (HuffBuild.sym vals (L + 1))^[bits.getD L 0] (b.setOff (L + 1))
      { b₁ with
        dec := { b₁.dec with
          maxcode := Function.update b₁.dec.maxcode (L + 1) ((b₁.code : Int) - 1) }
        code := b₁.code <<< 1 } := by
  simp only [HuffBuild.len, Nat.add_sub_cancel, h, if_false, HuffBuild.setOff]

theorem Built.len {bits : List Nat} (hn : n (L + 1) = bits.getD L 0)
    (h : Built n vals L 0 b) (hb : Bounded n L b.dec) :
    Built n vals (L + 1) 0 (b.len bits vals (L + 1))
      ∧ Bounded n (L + 1) (b.len bits vals (L + 1)).dec := by
  by_cases h0 : bits.getD L 0 = 0
  · rw [len_zero vals b h0]
    rw [h0] at hn
    constructor
    · rw [← hn] at h
      exact h.shift rfl rfl rfl rfl
    · refine ⟨fun l h1 hl => ?_, fun l h1 hl hnz => ?_⟩
      · rcases Nat.lt_or_ge L l with hlt | hge
        · obtain rfl : l = L + 1 := by omega
          simp [hn]
        · simp only [Function.update_of_ne (show l ≠ L + 1 by omega), hb.maxcode l h1 hge]
      · rcases Nat.lt_or_ge L l with hlt | hge
        · obtain rfl : l = L + 1 := by omega
          exact absurd hn hnz
        · exact hb.valoff l h1 hge hnz
  · rw [len_pos vals b h0]
    rw [← hn] at h0 ⊢
    have hoff : Built n vals L 0 (b.setOff (L + 1)) := h.congr rfl rfl rfl rfl
    have hsyms := hoff.syms (n (L + 1)) le_rfl
    refine ⟨hsyms.shift rfl rfl rfl rfl, fun l h1 hl => ?_, fun l h1 hl hnz => ?_⟩
    · simp only
      rw [hsyms.code, syms_maxcode]
      rcases Nat.lt_or_ge L l with hlt | hge
      · obtain rfl : l = L + 1 := by omega
        simp [h0]
      · rw [Function.update_of_ne (by omega)]
        exact hb.maxcode l h1 hge
    · simp only [syms_valoff, HuffBuild.setOff]
      rcases Nat.lt_or_ge L l with hlt | hge
      · obtain rfl : l = L + 1 := by omega
        rw [Function.update_self, h.k, h.code]
        simp
      · rw [Function.update_of_ne (by omega), hb.valoff l h1 hge hnz]

theorem built_upTo (bits vals : List Nat) (m : Nat) :
    let b := (List.range' 1 m).foldl (HuffBuild.len bits vals) .init
    Built (hist bits) vals m 0 b ∧ Bounded (hist bits) m b.dec := by
  induction m with
  | zero =>
      have hnone : ∀ l j, ¬ Coded (hist bits) 0 0 l j := by unfold Coded; omega
      exact ⟨⟨rfl, rfl, fun l j hc => absurd hc (hnone l j),
        fun l j w hc => absurd hc (hnone l j), fun _ _ => rfl⟩,
        fun l h1 hl => by omega, fun l h1 hl => by omega⟩
  | succ m ih =>
      simp only [List.range'_concat, List.foldl_append, List.foldl_cons, List.foldl_nil,
        Nat.one_mul] at ih ⊢
      rw [Nat.add_comm 1 m]
      exact ih.1.len rfl ih.2

theorem built (bits vals : List Nat) :
    Built (hist bits) vals 16 0 (buildHuff bits vals)
      ∧ Bounded (hist bits) 16 (buildHuff bits vals).dec :=
  built_upTo bits vals 16

-- ========================================================= the encoder's

/-- The encoder's tables while they are being filled, for symbols that
do not repeat. -/
def BuiltEnc (n : Nat → Nat) (vals : List Nat) (L i : Nat) (e : HuffEnc) : Prop :=
  ∀ l j, Coded n L i l j →
    e.code (vals.getD (index n l + j) 0) = (first n l + j) % 2 ^ 16
      ∧ e.size (vals.getD (index n l + j) 0) = l

theorem getD_inj {vals : List Nat} (hnd : vals.Nodup) {a b : Nat} (ha : a < vals.length)
    (hb : b < vals.length) (h : vals.getD a 0 = vals.getD b 0) : a = b := by
  rw [List.getD_eq_getElem _ _ ha, List.getD_eq_getElem _ _ hb] at h
  exact (hnd.getElem_inj_iff).1 h

theorem BuiltEnc.succ (hnd : vals.Nodup) (hlen : index n (L + 2) ≤ vals.length)
    (hb : Built n vals L i b) (hi : i < n (L + 1)) (h : BuiltEnc n vals L i b.enc) :
    BuiltEnc n vals L (i + 1) (b.sym vals (L + 1)).enc := by
  have hbound : ∀ {l j}, l ≤ L + 1 → j < n l → index n l + j < vals.length := by
    intro l j hl hj
    have hmono : index n (l + 1) ≤ index n (L + 2) := index_mono (by omega)
    have hstep : index n (l + 1) = index n l + n l := rfl
    omega
  intro l j hc
  simp only [HuffBuild.sym, hb.k, hb.code]
  rcases coded_succ.1 hc with hold | ⟨rfl, rfl⟩
  · have hne : vals.getD (index n l + j) 0 ≠ vals.getD (index n (L + 1) + i) 0 := by
      intro heq
      have hidx := getD_inj hnd (hbound hold.le (hold.lt hi.le)) (hbound le_rfl hi) heq
      obtain ⟨rfl, rfl⟩ := index_unique (hold.lt hi.le) hi hidx
      rcases hold with ⟨-, hle, -⟩ | ⟨-, hlt⟩ <;> omega
    rw [Function.update_of_ne hne, Function.update_of_ne hne]
    exact h l j hold
  · simp

theorem BuiltEnc.syms (hnd : vals.Nodup) (hlen : index n (L + 2) ≤ vals.length)
    (hb : Built n vals L 0 b) (h : BuiltEnc n vals L 0 b.enc) :
    ∀ i ≤ n (L + 1), BuiltEnc n vals L i ((HuffBuild.sym vals (L + 1))^[i] b).enc := by
  intro i
  induction i with
  | zero => exact fun _ => h
  | succ i ih =>
      intro hi
      rw [Function.iterate_succ_apply']
      exact (ih (by omega)).succ hnd hlen (hb.syms i (by omega)) (by omega)

theorem builtEnc_upTo {bits vals : List Nat} (hnd : vals.Nodup) {M : Nat}
    (hlen : index (hist bits) (M + 1) ≤ vals.length) :
    ∀ m ≤ M, BuiltEnc (hist bits) vals m 0
      ((List.range' 1 m).foldl (HuffBuild.len bits vals) .init).enc := by
  intro m
  induction m with
  | zero =>
      intro _ l j hc
      unfold Coded at hc
      omega
  | succ m ih =>
      intro hm
      have hprev := (built_upTo bits vals m).1
      simp only [List.range'_concat, List.foldl_append, List.foldl_cons, List.foldl_nil,
        Nat.one_mul]
      rw [Nat.add_comm 1 m]
      set b := (List.range' 1 m).foldl (HuffBuild.len bits vals) HuffBuild.init
      have hroom : index (hist bits) (m + 2) ≤ vals.length :=
        (index_mono (by omega)).trans hlen
      intro l j hc
      by_cases h0 : bits.getD m 0 = 0
      · have hold : Coded (hist bits) m 0 l j := by
          rw [← coded_next, show hist bits (m + 1) = 0 from h0] at hc
          exact hc
        rw [len_zero vals b h0]
        exact ih (by omega) l j hold
      · rw [len_pos vals b h0]
        have hoff : Built (hist bits) vals m 0 (b.setOff (m + 1)) :=
          hprev.congr rfl rfl rfl rfl
        exact BuiltEnc.syms hnd hroom hoff (ih (by omega)) (hist bits (m + 1)) le_rfl l j
          (coded_next.2 hc)

theorem builtEnc {bits vals : List Nat} (hnd : vals.Nodup)
    (hlen : index (hist bits) 17 ≤ vals.length) :
    BuiltEnc (hist bits) vals 16 0 (buildHuff bits vals).enc :=
  builtEnc_upTo hnd hlen 16 le_rfl

-- ============================================================== decoding

variable {br : BitReader} {data : List UInt8} {p : Nat} {bits : List Nat}

/-- Trying lengths in order passes the shorter ones by. -/
theorem huffLong_skip {t : HuffDec} {a m : Nat} (lens : List Nat)
    (h : ∀ l, a ≤ l → l < a + m → t.maxcode l < (br.peek l : Int)) :
    huffLong br t (List.range' a m ++ lens) = huffLong br t lens := by
  induction m generalizing a with
  | zero => rfl
  | succ m ih =>
      rw [List.range'_succ, List.cons_append, huffLong]
      rw [if_neg (by have := h a le_rfl (by omega); omega)]
      exact ih fun l hl hlt => h l (by omega) (by omega)

/-- The canonical code of a symbol decodes to that symbol. -/
theorem huffDecode_code (hat : br.At data p) {l j : Nat} (h1 : 1 ≤ l) (hl : l ≤ 16)
    (hj : j < hist bits l)
    (hw : window (bitAt data) p l = first (hist bits) l + j)
    (hv : vals.getD (index (hist bits) l + j) 0 < 256) :
    ∃ br', huffDecode br (buildHuff bits vals).dec
        = (some (vals.getD (index (hist bits) l + j) 0), br')
      ∧ br'.At data (p + l) := by
  obtain ⟨hB, hb⟩ := built bits vals
  have hc : Coded (hist bits) 16 0 l j := Or.inl ⟨h1, hl, hj⟩
  obtain ⟨hrat, hcnt⟩ := hat.refill
  -- the windows the decoder looks at, as cuts of each other
  have hcut : ∀ {a b}, a ≤ b → window (bitAt data) p b / 2 ^ (b - a) = window (bitAt data) p a := by
    intro a b hab
    obtain ⟨d, rfl⟩ := Nat.exists_eq_add_of_le hab
    rw [Nat.add_sub_cancel_left, window_div]
  have hshort : ∀ {a}, a < l → first (hist bits) a + hist bits a ≤ window (bitAt data) p a := by
    intro a ha
    rw [← hcut ha.le, hw]
    exact past_of_longer ha (Nat.le_add_right ..)
  simp only [huffDecode, hrat.peek (n := 9) (by omega)]
  rcases Nat.lt_or_ge 9 l with h9 | h9
  · -- a long code: the lookahead misses, the comparisons find it
    have hmiss : (buildHuff bits vals).dec.lut (window (bitAt data) p 9) = 0 := by
      apply hB.miss
      intro a k hak ha hcode
      rw [hcut ha] at hcode
      have := hshort (show a < l by omega)
      have := hak.lt (Nat.zero_le _)
      omega
    rw [hmiss]
    simp only [ne_eq, not_true_eq_false, if_false]
    rw [show List.range' 10 7 = List.range' 10 (l - 10) ++ List.range' l (17 - l) by
      rw [show (7 : Nat) = l - 10 + (17 - l) by omega, ← List.range'_append_1]
      congr 2; omega]
    rw [huffLong_skip]
    · rw [show 17 - l = 16 - l + 1 by omega, List.range'_succ, huffLong,
        hrat.peek (n := l) (by omega), hw, hb.maxcode l h1 hl, hb.valoff l h1 hl (by omega)]
      have hidx : ((first (hist bits) l + j : Nat) : Int)
          + ((index (hist bits) l : Int) - first (hist bits) l)
          = ((index (hist bits) l + j : Nat) : Int) := by push_cast; ring
      rw [if_pos (by rw [if_neg (by omega)]; push_cast; omega), hidx, Int.toNat_natCast,
        hB.sym l j hc]
      exact ⟨_, rfl, hrat.skip (by omega)⟩
    · intro a ha hal
      rw [hrat.peek (n := a) (by omega), hb.maxcode a (by omega) (by omega)]
      have := hshort (show a < l by omega)
      split <;> omega
  · -- a short code: the lookahead holds it
    have hhit := hB.hit l j (window (bitAt data) p 9) hc h9 (by rw [hcut h9, hw])
    set v := vals.getD (index (hist bits) l + j) 0
    rw [hhit]
    have hdiv : (l * 256 + v) / 256 = l := by omega
    have hmod : (l * 256 + v) % 256 = v := by omega
    rw [if_pos (by omega), hdiv, hmod]
    exact ⟨_, rfl, hrat.skip (by omega)⟩

/-- Whatever the input: a decoded symbol is one of the table's, and it
took 1 to 16 bits; nothing is taken without one. -/
theorem huffDecode_any (hat : br.At data p) (hv : ∀ v ∈ vals, v < 256) :
    (∃ br', huffDecode br (buildHuff bits vals).dec = (none, br') ∧ br'.At data p)
      ∨ ∃ v br' l, huffDecode br (buildHuff bits vals).dec = (some v, br')
          ∧ 1 ≤ l ∧ l ≤ 16 ∧ br'.At data (p + l) := by
  obtain ⟨hB, -⟩ := built bits vals
  obtain ⟨hrat, hcnt⟩ := hat.refill
  have hlong : ∀ lens : List Nat, (∀ l ∈ lens, 10 ≤ l ∧ l ≤ 16) →
      (∃ br', huffLong br.refill (buildHuff bits vals).dec lens = (none, br') ∧ br'.At data p)
      ∨ ∃ v br' l, huffLong br.refill (buildHuff bits vals).dec lens = (some v, br')
          ∧ 1 ≤ l ∧ l ≤ 16 ∧ br'.At data (p + l) := by
    intro lens
    induction lens with
    | nil => exact fun _ => Or.inl ⟨_, rfl, hrat⟩
    | cons l lens ih =>
        intro hl
        have hbound := hl l (List.mem_cons_self ..)
        simp only [huffLong]
        split
        · exact Or.inr ⟨_, _, l, rfl, by omega, by omega, hrat.skip (by omega)⟩
        · exact ih fun l' hl' => hl l' (List.mem_cons_of_mem _ hl')
  simp only [huffDecode]
  split
  · next hne =>
    -- a lookahead entry was put there by a code of at most 9 bits
    have hex : ∃ l j, Coded (hist bits) 16 0 l j ∧ l ≤ 9
        ∧ br.refill.peek 9 / 2 ^ (9 - l) = first (hist bits) l + j := by
      by_contra hno
      push Not at hno
      exact hne (hB.miss _ fun l j hc hl => hno l j hc hl)
    obtain ⟨l, j, hc, h9, hw⟩ := hex
    have hlt : vals.getD (index (hist bits) l + j) 0 < 256 := by
      rcases Nat.lt_or_ge (index (hist bits) l + j) vals.length with hin | hout
      · rw [List.getD_eq_getElem _ _ hin]
        exact hv _ (List.getElem_mem hin)
      · rw [List.getD_eq_default _ _ hout]
        decide
    have h1 : 1 ≤ l := by
      rcases hc with ⟨h, -, -⟩ | ⟨rfl, h⟩ <;> omega
    rw [hB.hit l j _ hc h9 hw,
      show (l * 256 + vals.getD (index (hist bits) l + j) 0) / 256 = l by omega]
    exact Or.inr ⟨_, _, l, rfl, h1, by omega, hrat.skip (by omega)⟩
  · exact hlong _ (by simp [List.mem_range']; omega)

end Ncmips.Tjc
