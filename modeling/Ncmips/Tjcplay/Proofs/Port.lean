/-
The port against the reference, from the tables up to one tile.

`Agrees b t data p` says that the port's reader `b` and the reference's
reader `t` stand at the same bit `p` of the same payload. The port's
position is a 32-bit word, so the relation is kept only as long as `p`
stays small; what a block can consume at most is proved along with the
agreement (`decodeBlock_agrees`), and a tile of an accepted geometry
never comes near 2^32 bits.
-/
import Ncmips.Tjc.Proofs.Tile
import Ncmips.Tjcplay.Tjcdec

namespace Ncmips.Tjcplay

open Bits (byteAt bitAt)
open Tjc (Block HuffDec)

-- ================================================================ tables

theorem zigzag_eq : zigzag = Tjc.zigzag := rfl

theorem extend_eq : extend = Tjc.extendValue := rfl

theorem clampCoef_eq (v : Int) : clampCoef v = Tjc.clampCoef v := by
  unfold clampCoef Tjc.clampCoef
  congr 1
  split_ifs <;> omega

/-- The port's table builder, next to the reference's. -/
structure SameBuild (b : Build) (t : Tjc.HuffBuild) : Prop where
  dec : b.dec = t.dec
  code : b.code = t.code
  k : b.k = t.k

theorem SameBuild.sym {b : Build} {t : Tjc.HuffBuild} (h : SameBuild b t) (vals : List Nat)
    (len : Nat) : SameBuild (b.sym vals len) (t.sym vals len) := by
  obtain ⟨hdec, hcode, hk⟩ := h
  refine ⟨?_, by rw [Build.sym, Tjc.HuffBuild.sym, hcode], by rw [Build.sym, Tjc.HuffBuild.sym, hk]⟩
  simp only [Build.sym, Tjc.HuffBuild.sym, hdec, hcode, hk]
  rfl

theorem SameBuild.syms {b : Build} {t : Tjc.HuffBuild} (h : SameBuild b t) (vals : List Nat)
    (len n : Nat) :
    SameBuild ((Build.sym vals len)^[n] b) ((Tjc.HuffBuild.sym vals len)^[n] t) := by
  induction n with
  | zero => exact h
  | succ n ih =>
      rw [Function.iterate_succ_apply', Function.iterate_succ_apply']
      exact ih.sym vals len

theorem SameBuild.len {b : Build} {t : Tjc.HuffBuild} (h : SameBuild b t) (bits vals : List Nat)
    (len : Nat) : SameBuild (b.len bits vals len) (t.len bits vals len) := by
  simp only [Build.len, Tjc.HuffBuild.len]
  by_cases hn : bits.getD (len - 1) 0 = 0
  · rw [if_pos hn, if_pos hn]
    exact ⟨by simp only [h.dec], by simp only [h.code], h.k⟩
  · rw [if_neg hn, if_neg hn]
    have hoff : SameBuild
        { b with dec := { b.dec with
            valoff := Function.update b.dec.valoff len ((b.k : Int) - b.code) } }
        { t with dec := { t.dec with
            valoff := Function.update t.dec.valoff len ((t.k : Int) - t.code) } } :=
      ⟨by simp only [h.dec, h.code, h.k], h.code, h.k⟩
    obtain ⟨hdec, hcode, hk⟩ := hoff.syms vals len (bits.getD (len - 1) 0)
    exact ⟨by simp only [hdec, hcode], by simp only [hcode], hk⟩

theorem buildHuff_eq (bits vals : List Nat) :
    buildHuff bits vals = (Tjc.buildHuff bits vals).dec := by
  have hfold : ∀ (lens : List Nat) {b : Build} {t : Tjc.HuffBuild}, SameBuild b t →
      SameBuild (lens.foldl (Build.len bits vals) b)
        (lens.foldl (Tjc.HuffBuild.len bits vals) t) := by
    intro lens
    induction lens with
    | nil => exact fun h => h
    | cons len lens ih => exact fun h => ih (h.len bits vals len)
  exact (hfold _ ⟨rfl, rfl, rfl⟩).dec

theorem huffDc_eq (table : Bool) : huffDc table = (Tjc.dcTable table).dec := by
  cases table <;> exact buildHuff_eq _ _

theorem huffAc_eq (table : Bool) : huffAc table = (Tjc.acTable table).dec := by
  cases table <;> exact buildHuff_eq _ _

-- =========================================================== inverse DCT

theorem descale_eq : descale = Tjc.descale := rfl

theorem clampU8_eq (v : Int32) : clampU8 v = Tjc.clampU8 v := by
  unfold clampU8 Tjc.clampU8
  split_ifs <;> rfl

/-- Outputs 0 to 7 one by one, and what the catch-all stands for. -/
theorem eight_cases {P : Nat → Prop} (h : ∀ i < 8, P i) (hrest : ∀ n, P (n + 8)) (i : Nat) :
    P i := by
  rcases Nat.lt_or_ge i 8 with hlt | hge
  · exact h i hlt
  · rw [show i = i - 8 + 8 by omega]
    exact hrest _

theorem idctSums_eq (c : Nat → Int32) (i : Nat) : idctSums c i = Tjc.idctButterfly c i := by
  induction i using eight_cases with
  | h i hi => interval_cases i <;> rfl
  | hrest n => rfl

theorem idctColumn_eq (inp : Block Int32) (x i : Nat) :
    idctColumn (fun k => inp (8 * k + x)) i = Tjc.idctCol inp x i := by
  simp only [idctColumn, Tjc.idctCol, idctSums_eq, descale_eq]
  rfl

theorem idctRow_eq (ws : Block Int32) (y i : Nat) :
    idctRow (fun k => ws (y * 8 + k)) i = Tjc.idctRow ws y i := by
  simp only [idctRow, Tjc.idctRow, idctSums_eq, descale_eq, clampU8_eq]
  rfl

theorem idct8x8_eq (inp : Block Int32) : idct8x8 inp = Tjc.idct8x8 inp := by
  funext n
  simp only [idct8x8, Tjc.idct8x8, idctColumn_eq]
  exact idctRow_eq (fun n => Tjc.idctCol inp (n % 8) (n / 8)) (n / 8) (n % 8)

theorem idct8x8Dc_eq (dc : Int32) : idct8x8Dc dc = Tjc.idct8x8Dc dc := by
  funext n
  simp only [idct8x8Dc, Tjc.idct8x8Dc, clampU8_eq]
  rfl

-- =============================================================== readers

/-- Both readers stand at bit `p` of `data`, in the same state. -/
structure Agrees (b : BitReader) (t : Tjc.BitReader) (data : List UInt8) (p : Nat) : Prop where
  at_ : t.At data p
  bytes : b.p = data
  size : b.size = data.length
  pos : b.pos = t.pos
  buf : b.buf = t.buf
  cnt : b.cnt = t.cnt

/-- As far as positions in bytes stay below 2^32. -/
abbrev Near (p : Nat) : Prop := p + 64 < 2 ^ 35

variable {b : BitReader} {t : Tjc.BitReader} {data : List UInt8} {p : Nat}

theorem Agrees.refillStep (h : Agrees b t data p) (hp : Near p) :
    Agrees b.refillStep t.refillStep data p := by
  obtain ⟨hat, hbytes, hsize, hpos, hbuf, hcnt⟩ := h
  have hat' := hat.refillStep
  unfold BitReader.refillStep Tjc.BitReader.refillStep at *
  rw [hcnt]
  split at hat'
  · next hle =>
    have hsmall := hat.pos_eq
    rw [if_pos hle, if_pos hle]
    refine ⟨hat', hbytes, hsize, ?_, ?_, ?_⟩
    · simp only [hpos, u32]
      omega
    · simp only [hpos, hsize, hbytes, hbuf, hat.data_eq]
    · rfl
  · next hle =>
    rw [if_neg hle, if_neg hle]
    exact ⟨hat, hbytes, hsize, hpos, hbuf, hcnt⟩

theorem Agrees.refill (h : Agrees b t data p) (hp : Near p) : Agrees b.refill t.refill data p :=
  (((h.refillStep hp).refillStep hp).refillStep hp).refillStep hp

theorem Agrees.skip (h : Agrees b t data p) {n : Nat} (hn : n ≤ t.cnt) :
    Agrees (b.skip n) (t.skip n) data (p + n) :=
  ⟨h.at_.skip hn, h.bytes, h.size, h.pos, by simp only [BitReader.skip, Tjc.BitReader.skip, h.buf],
    by simp only [BitReader.skip, Tjc.BitReader.skip, h.cnt]⟩

theorem Agrees.get (h : Agrees b t data p) (hp : Near p) {n : Nat} (hn : n ≤ 25) :
    (brGet b n).1 = (t.get n).1 ∧ Agrees (brGet b n).2 (t.get n).2 data (p + n) := by
  unfold brGet Tjc.BitReader.get
  split
  · next h0 => subst h0; exact ⟨rfl, h⟩
  · have hr := h.refill hp
    obtain ⟨-, hcnt⟩ := h.at_.refill
    exact ⟨by simp only [Tjc.BitReader.peek, hr.buf], hr.skip (by omega)⟩

theorem Agrees.huffLong (d : HuffDec) (lens : List Nat) (h : Agrees b t data p)
    (hcnt : 25 ≤ t.cnt) (hlens : ∀ l ∈ lens, l ≤ 16) :
    (Tjcplay.huffLong b d lens).1 = (Tjc.huffLong t d lens).1
      ∧ ∃ n ≤ 16, Agrees (Tjcplay.huffLong b d lens).2 (Tjc.huffLong t d lens).2 data (p + n) := by
  induction lens with
  | nil => exact ⟨rfl, 0, by omega, h⟩
  | cons l lens ih =>
      have hl := hlens l (List.mem_cons_self ..)
      have hpeek : (b.buf >>> (32 - l)).toNat = t.peek l := by
        rw [h.buf]
        rfl
      simp only [Tjcplay.huffLong, Tjc.huffLong, hpeek]
      by_cases hle : ((t.peek l : Nat) : Int) ≤ d.maxcode l
      · simp only [hle, if_true]
        exact ⟨trivial, l, hl, h.skip (by omega)⟩
      · simp only [hle, if_false]
        exact ih fun l' hl' => hlens l' (List.mem_cons_of_mem _ hl')

/-- An entry of the lookahead never stands for more than 9 bits. -/
theorem lut_size (bits vals : List Nat) (hv : ∀ v ∈ vals, v < 256) (w : Nat) :
    (Tjc.buildHuff bits vals).dec.lut w / 256 ≤ 9 := by
  obtain ⟨hB, -⟩ := Tjc.built bits vals
  by_cases hex : ∃ l j, Tjc.Coded (Tjc.hist bits) 16 0 l j ∧ l ≤ 9
      ∧ w / 2 ^ (9 - l) = Canonical.first (Tjc.hist bits) l + j
  · obtain ⟨l, j, hc, h9, hw⟩ := hex
    have hlt : vals.getD (Canonical.index (Tjc.hist bits) l + j) 0 < 256 := by
      rcases Nat.lt_or_ge (Canonical.index (Tjc.hist bits) l + j) vals.length with hin | hout
      · rw [List.getD_eq_getElem _ _ hin]
        exact hv _ (List.getElem_mem hin)
      · rw [List.getD_eq_default _ _ hout]
        decide
    rw [hB.hit l j w hc h9 hw]
    omega
  · rw [hB.miss w fun l j hc hl hw => hex ⟨l, j, hc, hl, hw⟩]
    decide

/-- A symbol: the same one, and at most 16 bits for it. -/
theorem Agrees.huffDecode (d : HuffDec) (hd : ∀ w, d.lut w / 256 ≤ 9) (h : Agrees b t data p)
    (hp : Near p) :
    (Tjcplay.huffDecode b d).1 = (Tjc.huffDecode t d).1
      ∧ ∃ n ≤ 16, Agrees (Tjcplay.huffDecode b d).2 (Tjc.huffDecode t d).2 data (p + n) := by
  have hr := h.refill hp
  obtain ⟨-, hcnt⟩ := h.at_.refill
  unfold Tjcplay.huffDecode Tjc.huffDecode
  simp only [Tjc.BitReader.peek, hr.buf, show 32 - 9 = 23 by decide]
  split
  · have h9 := hd (t.refill.buf >>> 23).toNat
    exact ⟨rfl, _, by omega, hr.skip (by omega)⟩
  · exact hr.huffLong d _ hcnt (by simp [List.mem_range']; omega)

theorem dcTable_lut (table : Bool) (w : Nat) : (Tjc.dcTable table).dec.lut w / 256 ≤ 9 := by
  rw [Tjc.dcTable_eq]
  exact lut_size _ _ (Tjc.canon_dc table).byte w

theorem acTable_lut (table : Bool) (w : Nat) : (Tjc.acTable table).dec.lut w / 256 ≤ 9 := by
  rw [Tjc.acTable_eq]
  exact lut_size _ _ (Tjc.canon_ac table).byte w

-- ================================================================ blocks

theorem decodeAc_agrees (table : Bool) (dq : Nat → Nat) (fuel : Nat) :
    ∀ (k : Nat) (b : BitReader) (t : Tjc.BitReader) (p : Nat) (coef : Block Int32) (hasAc : Bool),
      Agrees b t data p → Near (p + 31 * fuel) →
      (decodeAc (huffAc table) dq fuel k b coef hasAc).1
          = (Tjc.decodeAc (Tjc.acTable table).dec dq fuel k t coef hasAc).1
        ∧ (decodeAc (huffAc table) dq fuel k b coef hasAc).2.2
          = (Tjc.decodeAc (Tjc.acTable table).dec dq fuel k t coef hasAc).2.2
        ∧ ∃ n ≤ 31 * fuel, Agrees (decodeAc (huffAc table) dq fuel k b coef hasAc).2.1
            (Tjc.decodeAc (Tjc.acTable table).dec dq fuel k t coef hasAc).2.1 data (p + n) := by
  induction fuel with
  | zero => exact fun k b t p coef hasAc h _ => ⟨rfl, rfl, 0, le_rfl, h⟩
  | succ fuel ih =>
      intro k b t p coef hasAc h hp
      unfold decodeAc Tjc.decodeAc
      split
      · exact ⟨rfl, rfl, 0, Nat.zero_le _, h⟩
      · obtain ⟨hsym, n, hn, h₁⟩ := h.huffDecode _ (acTable_lut table) (by omega)
        rw [huffAc_eq] at ih ⊢
        rcases hb : huffDecode b (Tjc.acTable table).dec with ⟨sb, b₁⟩
        rcases ht : Tjc.huffDecode t (Tjc.acTable table).dec with ⟨st, t₁⟩
        rw [hb, ht] at hsym h₁
        simp only at hsym h₁
        subst hsym
        cases sb with
        | none => exact ⟨rfl, rfl, n, by omega, h₁⟩
        | some rs =>
            simp only
            split
            · split
              · exact ⟨rfl, rfl, n, by omega, h₁⟩
              · obtain ⟨hr, hc, m, hm, h₂⟩ := ih (k + 16) b₁ t₁ (p + n) coef hasAc h₁ (by omega)
                exact ⟨hr, hc, n + m, by omega, by rw [← Nat.add_assoc]; exact h₂⟩
            · split
              · exact ⟨rfl, rfl, n, by omega, h₁⟩
              · obtain ⟨hval, h₂⟩ := h₁.get (n := rs % 16) (by omega) (by omega)
                rw [hval, extend_eq, clampCoef_eq, zigzag_eq]
                obtain ⟨hr, hc, m, hm, h₃⟩ := ih _ _ _ _ _ true h₂ (by omega)
                exact ⟨hr, hc, n + (rs % 16 + m), by omega, by
                  rw [← Nat.add_assoc, ← Nat.add_assoc]
                  exact h₃⟩

/-- What a block takes at most, whatever it is. -/
def maxBlockBits : Nat := 16 + 11 + 63 * 31

theorem decodeBlock_agrees (table : Bool) (dq : Nat → Nat) (pred : Int) (h : Agrees b t data p)
    (hp : Near (p + maxBlockBits)) :
    (decodeBlock b table dq pred).r = (Tjc.decodeBlock t table dq pred).r
      ∧ (decodeBlock b table dq pred).dcPred = (Tjc.decodeBlock t table dq pred).pred
      ∧ (decodeBlock b table dq pred).coef = (Tjc.decodeBlock t table dq pred).coef
      ∧ ∃ n ≤ maxBlockBits, Agrees (decodeBlock b table dq pred).br
          (Tjc.decodeBlock t table dq pred).br data (p + n) := by
  unfold maxBlockBits at *
  obtain ⟨hsym, n, hn, h₁⟩ := h.huffDecode _ (dcTable_lut table) (by omega)
  unfold decodeBlock Tjc.decodeBlock
  rw [huffDc_eq]
  rcases hb : huffDecode b (Tjc.dcTable table).dec with ⟨sb, b₁⟩
  rcases ht : Tjc.huffDecode t (Tjc.dcTable table).dec with ⟨st, t₁⟩
  rw [hb, ht] at hsym h₁
  simp only at hsym h₁
  subst hsym
  cases sb with
  | none => exact ⟨rfl, rfl, rfl, n, by omega, h₁⟩
  | some s =>
      simp only
      split
      · exact ⟨rfl, rfl, rfl, n, by omega, h₁⟩
      · obtain ⟨hval, h₂⟩ := h₁.get (n := s) (by omega) (by omega)
        rw [hval, extend_eq]
        generalize pred + (if s ≠ 0 then Tjc.extendValue (t₁.get s).1 s else 0) = pred'
        split
        · exact ⟨rfl, rfl, rfl, n + s, by omega, by rw [← Nat.add_assoc]; exact h₂⟩
        · rw [clampCoef_eq]
          obtain ⟨hr, hc, m, hm, h₃⟩ := decodeAc_agrees table dq 63 1 _ _ _
            (Function.update (fun _ => 0) 0 (Tjc.clampCoef (pred' * dq 0))) false h₂ (by omega)
          exact ⟨hr, rfl, hc, n + (s + m), by omega, by
            rw [← Nat.add_assoc, ← Nat.add_assoc]
            exact h₃⟩

end Ncmips.Tjcplay
