/-
`tlb_clean` puts no two entries on one address.

A new entry spans one pair of 4 KB pages, and the search leaves off only
where no other entry covers it, so what is written overlaps nothing;
entries that overlap at some moment are both old ones. The new tags are
all different in bits 13 to 18, so the search of entry `i` meets only the
old entries after it: it ends when one of the `i`-th tags is free of them.
-/
import Mathlib.Tactic.Common
import Ncmips.Launcher.Tlb
import Ncmips.Lib.Iterate

namespace Ncmips.Launcher

open Iterate (Reaches)

-- =================================================================== bits

/-- Comparing under a mask is comparing its bits. -/
theorem masked_eq_zero {w : Nat} (a b m : BitVec w) :
    (a ^^^ b) &&& m = 0 ↔ ∀ k, m.getLsbD k = true → a.getLsbD k = b.getLsbD k := by
  constructor
  · intro h k hm
    have hk := congrArg (fun v : BitVec w => v.getLsbD k) h
    simpa [hm] using hk
  · intro h
    apply BitVec.eq_of_getLsbD_eq
    intro k _
    have hk := h k
    cases hm : m.getLsbD k with
    | false => simp [hm]
    | true => simp [hm, hk hm]

theorem low_mask (k : Nat) : (0x1fff#32).getLsbD k = decide (k < 13) := by
  rcases Nat.lt_or_ge k 32 with hk | hk
  · have h : ∀ k < 32, (0x1fff#32).getLsbD k = decide (k < 13) := by decide
    exact h k hk
  · rw [BitVec.getLsbD_of_ge _ _ hk]
    exact (decide_eq_false (by omega)).symm

/-- No entry compares the bits within its pages. -/
theorem Entry.span_high (e : Entry) {k : Nat} (h : e.span.getLsbD k = true) : 13 ≤ k ∧ k < 32 := by
  unfold Entry.span at h
  rw [BitVec.getLsbD_not, BitVec.getLsbD_or, low_mask] at h
  by_contra hlow
  simp only [Bool.and_eq_true, decide_eq_true_eq, Bool.not_eq_true', Bool.or_eq_false_iff,
    decide_eq_false_iff_not] at h
  omega

/-- An entry as the routine writes it: the page pair at `t`, not valid. -/
def fresh (t : BitVec 32) : Entry :=
  { vpn2 := t.extractLsb' 13 19
    mask := (0 : BitVec 32).extractLsb' 13 16
    asid := t.extractLsb' 0 8
    lo0 := 0
    lo1 := 0 }

theorem fresh_span (t : BitVec 32) : (fresh t).span = ~~~0x1fff#32 := by
  show ~~~((0#3 ++ ((0 : BitVec 32).extractLsb' 13 16 ++ 0#13) : BitVec 32) ||| 0x1fff#32) = _
  decide

theorem fresh_tag (t : BitVec 32) {k : Nat} (hk : 13 ≤ k) :
    (fresh t).tag.getLsbD k = t.getLsbD k := by
  show (t.extractLsb' 13 19 ++ 0#13).getLsbD k = _
  rw [BitVec.getLsbD_append, if_neg (by omega), BitVec.getLsbD_extractLsb']
  rcases Nat.lt_or_ge k 32 with h | h
  · simp only [show k - 13 < 19 by omega, decide_true, Bool.true_and]
    congr 1
    omega
  · rw [BitVec.getLsbD_of_ge t _ h]
    simp only [show ¬ k - 13 < 19 by omega, decide_false, Bool.false_and]

/-- A fresh entry overlaps another only where that one covers its tag. -/
theorem Entry.covers_of_overlap {e : Entry} {t : BitVec 32} (h : Overlap (fresh t) e) :
    e.Covers t := by
  obtain ⟨va, asid, ⟨hnew, -⟩, hold, -⟩ := h
  unfold Entry.Covers at *
  rw [masked_eq_zero] at *
  intro k hk
  obtain ⟨hlow, hhigh⟩ := e.span_high hk
  have hmask : (fresh t).span.getLsbD k = true := by
    rw [fresh_span, BitVec.getLsbD_not, low_mask]
    simp only [hhigh, decide_true, Bool.true_and, Bool.not_eq_true', decide_eq_false_iff_not]
    omega
  rw [← hold k hk, ← fresh_tag t hlow]
  exact (hnew k hmask).symm

theorem Overlap.symm {e e' : Entry} (h : Overlap e e') : Overlap e' e := by
  obtain ⟨va, asid, h, h'⟩ := h
  exact ⟨va, asid, h', h⟩

-- =================================================================== steps

theorem tlbr_tag (c : Cpu) : c.tlbr.entryHi &&& ~~~0x1fff#32 = (c.tlb c.index).tag := by
  show ((c.tlb c.index).vpn2 ++ (0#5 ++ (c.tlb c.index).asid) : BitVec 32) &&& ~~~0x1fff#32
    = ((c.tlb c.index).vpn2 ++ 0#13 : BitVec 32)
  apply BitVec.eq_of_getLsbD_eq
  intro k hk
  have hleft : ((c.tlb c.index).vpn2 ++ (0#5 ++ (c.tlb c.index).asid) : BitVec 32).getLsbD k
      = if k < 13 then (0#5 ++ (c.tlb c.index).asid).getLsbD k
        else (c.tlb c.index).vpn2.getLsbD (k - 13) := BitVec.getLsbD_append
  have hright : ((c.tlb c.index).vpn2 ++ 0#13 : BitVec 32).getLsbD k
      = if k < 13 then (0#13).getLsbD k else (c.tlb c.index).vpn2.getLsbD (k - 13) :=
    BitVec.getLsbD_append
  have hmask : (~~~0x1fff#32).getLsbD k = !decide (k < 13) := by
    rw [BitVec.getLsbD_not, low_mask, decide_eq_true (show k < 32 from hk), Bool.true_and]
  rw [BitVec.getLsbD_and]
  erw [hleft, hright, hmask]
  split
  · next hlow => simp [hlow]
  · next hlow => simp [hlow]

/-- The TLB after entry `i` was rewritten with tag `t`. -/
theorem tlbwi_tlb (c : Cpu) (i : Nat) (t : BitVec 32) :
    ({ c with index := i, entryHi := t, entryLo0 := 0, entryLo1 := 0, pageMask := 0 } : Cpu).tlbwi.tlb
      = Function.update c.tlb i (fresh t) := rfl

-- =========================================================== candidates

/-- The `c`-th tag that the search of entry `i` tries. -/
def candidate (i c : Nat) : BitVec 32 :=
  0x80000000#32 + BitVec.ofNat 32 i * 0x2000#32 + BitVec.ofNat 32 c * 0x80000#32

theorem candidate_zero (i : Nat) :
    candidate i 0 = 0x80000000#32 + BitVec.ofNat 32 i * 0x2000#32 := by
  unfold candidate
  simp

theorem candidate_succ (i c : Nat) : candidate i c + 0x80000#32 = candidate i (c + 1) := by
  have hnext : BitVec.ofNat 32 (c + 1) * 0x80000#32 = BitVec.ofNat 32 c * 0x80000#32 + 0x80000#32 := by
    rw [BitVec.ofNat_add, BitVec.add_mul, BitVec.one_mul]
  unfold candidate
  rw [hnext, BitVec.add_assoc]

/-- Bits 13 to 18 of a tag tell whose it is. -/
theorem candidate_owner {i : Nat} (hi : i < 64) (c : Nat) :
    (candidate i c).toNat / 2 ^ 13 % 2 ^ 6 = i := by
  have hnat : candidate i c = BitVec.ofNat 32 (0x80000000 + i * 0x2000 + c * 0x80000) := by
    rw [BitVec.ofNat_add, BitVec.ofNat_add, BitVec.ofNat_mul, BitVec.ofNat_mul]
    rfl
  rw [hnat, BitVec.toNat_ofNat]
  omega

/-- A new entry covers no other entry's tags. -/
theorem not_covers_fresh {i p : Nat} (hi : i < 64) (hp : p < 64) (hne : i ≠ p) (c c' : Nat) :
    ¬ (fresh (candidate p c')).Covers (candidate i c) := by
  intro hcov
  unfold Entry.Covers at hcov
  rw [masked_eq_zero] at hcov
  have hsame : (candidate i c).toNat / 2 ^ 13 = (candidate p c').toNat / 2 ^ 13 := by
    apply Nat.eq_of_testBit_eq
    intro k
    rw [Nat.testBit_div_two_pow, Nat.testBit_div_two_pow, BitVec.testBit_toNat,
      BitVec.testBit_toNat]
    rcases Nat.lt_or_ge (k + 13) 32 with hk | hk
    · rw [hcov (k + 13), fresh_tag _ (by omega)]
      rw [fresh_span, BitVec.getLsbD_not, low_mask]
      simp only [hk, decide_true, Bool.true_and, Bool.not_eq_true', decide_eq_false_iff_not]
      omega
    · rw [BitVec.getLsbD_of_ge _ _ hk, BitVec.getLsbD_of_ge _ _ hk]
  have howner := candidate_owner hi c
  rw [hsame, candidate_owner hp c'] at howner
  exact hne howner.symm

-- ============================================================ invariant

/-- What the routine has noted of entry `p` is what the entry compares. -/
def State.Knows (s : State) (p : Nat) : Prop :=
  s.span p = (s.cpu.tlb p).span
    ∧ ∀ k, 13 ≤ k → (s.tag p).getLsbD k = (s.cpu.tlb p).tag.getLsbD k

theorem State.Knows.clash {s : State} {p : Nat} (h : s.Knows p) (t : BitVec 32) :
    (t ^^^ s.tag p) &&& s.span p = 0 ↔ (s.cpu.tlb p).Covers t := by
  unfold Entry.Covers
  rw [masked_eq_zero, masked_eq_zero, h.1]
  constructor
  · intro heq k hk
    rw [heq k hk, h.2 k (Entry.span_high _ hk).1]
  · intro heq k hk
    rw [heq k hk, h.2 k (Entry.span_high _ hk).1]

/-- What holds where the routine is: in the search, the entries before
`j` do not cover the tag. -/
def State.Stage (s : State) : Pc → Prop
  | .read i => ∀ p < i, s.Knows p
  | .write i => i ≤ 64 ∧ ∀ p < 64, s.Knows p
  | .search i j t =>
      i < 64 ∧ (∀ p < 64, s.Knows p) ∧ (∃ c, t = candidate i c)
        ∧ ∀ q < j, q ≠ i → ¬ (s.cpu.tlb q).Covers t
  | .done => True

/-- The invariant: the entries from `cleaned` on are the old ones, the
others are new, on tags of their own, and overlap nothing. -/
structure State.Safe (tlb : Nat → Entry) (s : State) : Prop where
  old : ∀ p, s.cleaned ≤ p → s.cpu.tlb p = tlb p
  new : ∀ p < s.cleaned, ∃ c, s.cpu.tlb p = fresh (candidate p c)
  apart : ∀ p < s.cleaned, ∀ q < 64, q ≠ p → ¬ Overlap (s.cpu.tlb p) (s.cpu.tlb q)
  stage : s.Stage s.pc

theorem start_safe (cpu : Cpu) : State.Safe cpu.tlb { cpu } where
  old _ _ := rfl
  new p hp := absurd hp (Nat.not_lt_zero p)
  apart p hp := absurd hp (Nat.not_lt_zero p)
  stage p hp := absurd hp (Nat.not_lt_zero p)

/-- The entry is written when nothing covers its tag. -/
theorem write_safe {tlb : Nat → Entry} {cpu : Cpu} {tag span : Nat → BitVec 32} {i j : Nat}
    {t : BitVec 32} (h : State.Safe tlb { cpu, tag, span, pc := .search i j t })
    (hj : ¬ j < 64) : State.Safe tlb (step { cpu, tag, span, pc := .search i j t }) := by
  obtain ⟨hi, hknows, ⟨c, rfl⟩, hfree⟩ := h.stage
  have hold := h.old
  have hnew := h.new
  have hapart := h.apart
  simp only [State.cleaned] at hold hnew hapart
  have hclear : ∀ q < 64, q ≠ i → ¬ Overlap (fresh (candidate i c)) (cpu.tlb q) :=
    fun q hq hne hover => hfree q (by omega) hne (Entry.covers_of_overlap hover)
  have hstep : step { cpu, tag, span, pc := .search i j (candidate i c) } =
      { cpu := { cpu with
          tlb := Function.update cpu.tlb i (fresh (candidate i c))
          index := i, entryHi := candidate i c, entryLo0 := 0, entryLo1 := 0, pageMask := 0 }
        tag := Function.update tag i (candidate i c)
        span := Function.update span i (~~~0x1fff#32)
        pc := .write (i + 1) } := by
    unfold step
    exact (if_neg hj).trans rfl
  rw [hstep]
  refine { old := ?_, new := ?_, apart := ?_, stage := ⟨hi, fun p hp => ?_⟩ }
  · intro p hp
    simp only [State.cleaned] at hp
    show Function.update cpu.tlb i _ p = _
    rw [Function.update_of_ne (by omega)]
    exact hold p (by omega)
  · intro p hp
    simp only [State.cleaned] at hp
    show ∃ c', Function.update cpu.tlb i _ p = _
    by_cases hpi : p = i
    · subst hpi
      exact ⟨c, Function.update_self ..⟩
    · rw [Function.update_of_ne hpi]
      exact hnew p (by omega)
  · intro p hp q hq hne
    simp only [State.cleaned] at hp
    show ¬ Overlap (Function.update cpu.tlb i _ p) (Function.update cpu.tlb i _ q)
    by_cases hpi : p = i
    · subst hpi
      rw [Function.update_self, Function.update_of_ne hne]
      exact hclear q hq hne
    · rw [Function.update_of_ne hpi]
      by_cases hqi : q = i
      · subst hqi
        rw [Function.update_self]
        exact fun hover => hclear p (by omega) hpi hover.symm
      · rw [Function.update_of_ne hqi]
        exact hapart p (by omega) q hq hne
  · show Function.update span i _ p = (Function.update cpu.tlb i _ p).span
      ∧ ∀ k, 13 ≤ k → (Function.update tag i _ p).getLsbD k
        = (Function.update cpu.tlb i _ p).tag.getLsbD k
    by_cases hpi : p = i
    · subst hpi
      simp only [Function.update_self]
      exact ⟨(fresh_span _).symm, fun k hk => (fresh_tag _ hk).symm⟩
    · simp only [Function.update_of_ne hpi]
      exact hknows p hp

theorem State.Safe.step {tlb : Nat → Entry} {s : State} (h : s.Safe tlb) :
    (step s).Safe tlb := by
  obtain ⟨cpu, tag, span, pc⟩ := s
  cases pc with
  | read i =>
      unfold Launcher.step
      dsimp only
      split
      · next hi =>
        refine { old := h.old, new := h.new, apart := h.apart, stage := fun p hp => ?_ }
        show Function.update span i _ p = (cpu.tlb p).span
          ∧ ∀ k, 13 ≤ k → (Function.update tag i _ p).getLsbD k = (cpu.tlb p).tag.getLsbD k
        by_cases hpi : p = i
        · subst hpi
          rw [Function.update_self, Function.update_self, tlbr_tag]
          exact ⟨rfl, fun _ _ => rfl⟩
        · simp only [Function.update_of_ne hpi]
          exact h.stage p (by omega)
      · next hi =>
        exact { old := h.old, new := h.new, apart := h.apart
                stage := ⟨Nat.zero_le _, fun p hp => h.stage p (by omega)⟩ }
  | write i =>
      obtain ⟨hle, hknows⟩ := h.stage
      unfold Launcher.step
      dsimp only
      split
      · next hi =>
        exact { old := h.old, new := h.new, apart := h.apart
                stage := ⟨hi, hknows, ⟨0, (candidate_zero i).symm⟩,
                  fun q hq => absurd hq (Nat.not_lt_zero q)⟩ }
      · next hi =>
        obtain rfl : i = 64 := by omega
        exact { old := h.old, new := h.new, apart := h.apart, stage := trivial }
  | search i j t =>
      by_cases hj : j < 64
      · obtain ⟨hi, hknows, ⟨c, hc⟩, hfree⟩ := h.stage
        unfold Launcher.step
        dsimp only
        rw [if_pos hj]
        split
        · refine { old := h.old, new := h.new, apart := h.apart, stage := ⟨hi, hknows, ?_, ?_⟩ }
          · exact ⟨c + 1, by rw [hc, candidate_succ]⟩
          · exact fun q hq => absurd hq (Nat.not_lt_zero q)
        · next hno =>
          refine { old := h.old, new := h.new, apart := h.apart, stage := ⟨hi, hknows, ⟨c, hc⟩, ?_⟩ }
          intro q hq hne hcov
          rcases Nat.lt_succ_iff_lt_or_eq.mp hq with hlt | rfl
          · exact hfree q hlt hne hcov
          · exact hno ⟨hne, ((hknows q hj).clash t).mpr hcov⟩
      · exact write_safe h hj
  | done => exact h

theorem tlbClean_safe (cpu : Cpu) (n : Nat) : (tlbClean cpu n).Safe cpu.tlb :=
  Iterate.keeps (fun _ h => h.step) (start_safe cpu) n

-- ========================================================== termination

/-- Some tag of entry `i` is free of the old entries after it. -/
def FreeTag (tlb : Nat → Entry) (i : Nat) : Prop :=
  ∃ c, ∀ q, i < q → q < 64 → ¬ (tlb q).Covers (candidate i c)

variable {tlb : Nat → Entry}

theorem reaches_safe {s s' : State} (h : Reaches step s s') (hs : s.Safe tlb) : s'.Safe tlb :=
  h.keeps (fun _ h => h.step) hs

/-- One pass over the entries: none covers the tag, or the next tag is tried. -/
theorem pass_reaches {cpu : Cpu} {tag span : Nat → BitVec 32} {i j : Nat} {t : BitVec 32}
    (hj : j ≤ 64) :
    Reaches step { cpu, tag, span, pc := .search i j t } { cpu, tag, span, pc := .search i 64 t }
    ∨ ((∃ q < 64, q ≠ i ∧ (t ^^^ tag q) &&& span q = 0)
      ∧ Reaches step { cpu, tag, span, pc := .search i j t }
          { cpu, tag, span, pc := .search i 0 (t + 0x80000#32) }) := by
  induction hn : 64 - j generalizing j with
  | zero =>
      obtain rfl : j = 64 := by omega
      exact .inl (.refl _)
  | succ n ih =>
      have hj' : j < 64 := by omega
      by_cases hclash : j ≠ i ∧ (t ^^^ tag j) &&& span j = 0
      · have hstep : step { cpu, tag, span, pc := .search i j t }
            = { cpu, tag, span, pc := .search i 0 (t + 0x80000#32) } := by
          unfold step
          exact (if_pos hj').trans (if_pos hclash)
        exact .inr ⟨⟨j, hj', hclash⟩, .head hstep (.refl _)⟩
      · have hstep : step { cpu, tag, span, pc := .search i j t }
            = { cpu, tag, span, pc := .search i (j + 1) t } := by
          unfold step
          exact (if_pos hj').trans (if_neg hclash)
        rcases ih (j := j + 1) (by omega) (by omega) with hend | ⟨hq, hnext⟩
        · exact .inl (.head hstep hend)
        · exact .inr ⟨hq, .head hstep hnext⟩

/-- The search gets to a free tag, if not to an earlier one. -/
theorem search_reaches {cpu : Cpu} {tag span : Nat → BitVec 32} {i c m : Nat}
    (hs : State.Safe tlb { cpu, tag, span, pc := .search i 0 (candidate i m) }) (hm : m ≤ c)
    (hfree : ∀ q, i < q → q < 64 → ¬ (tlb q).Covers (candidate i c)) :
    ∃ t, Reaches step { cpu, tag, span, pc := .search i 0 (candidate i m) }
      { cpu, tag, span, pc := .search i 64 t } := by
  induction hn : c - m generalizing m with
  | zero =>
      obtain rfl : m = c := by omega
      rcases @pass_reaches cpu tag span i 0 (candidate i m) (Nat.zero_le 64)
        with hend | ⟨⟨q, hq, hne, hclash⟩, -⟩
      · exact ⟨_, hend⟩
      · -- at a free tag nothing clashes
        obtain ⟨hi, hknows, -, -⟩ := hs.stage
        have hcov := ((hknows q hq).clash _).mp hclash
        rcases Nat.lt_or_gt_of_ne hne with hlt | hgt
        · obtain ⟨c', hq'⟩ := hs.new q hlt
          rw [hq'] at hcov
          exact absurd hcov (not_covers_fresh hi hq (Ne.symm hne) m c')
        · rw [hs.old q (Nat.le_of_lt hgt)] at hcov
          exact absurd hcov (hfree q hgt hq)
  | succ n ih =>
      rcases @pass_reaches cpu tag span i 0 (candidate i m) (Nat.zero_le 64)
        with hend | ⟨-, hnext⟩
      · exact ⟨_, hend⟩
      · have hs' := reaches_safe hnext hs
        rw [candidate_succ] at hnext hs'
        obtain ⟨t, hend⟩ := ih hs' (by omega) (by omega)
        exact ⟨t, hnext.trans hend⟩

/-- One turn of the second loop. -/
theorem write_reaches {s : State} {i : Nat} (hs : s.Safe tlb) (hpc : s.pc = .write i) (hi : i < 64)
    (hfree : FreeTag tlb i) : ∃ s', Reaches step s s' ∧ s'.pc = .write (i + 1) := by
  obtain ⟨cpu, tag, span, pc⟩ := s
  subst hpc
  have hstep : step { cpu, tag, span, pc := .write i }
      = { cpu, tag, span, pc := .search i 0 (candidate i 0) } := by
    rw [candidate_zero]
    unfold step
    exact if_pos hi
  have hs' := hs.step
  rw [hstep] at hs'
  obtain ⟨c, hc⟩ := hfree
  obtain ⟨t, hend⟩ := search_reaches hs' (Nat.zero_le c) hc
  refine ⟨_, .head hstep (hend.trans (.head rfl (.refl _))), ?_⟩
  unfold step
  rfl

theorem writes_reach {s : State} {i : Nat} (hs : s.Safe tlb) (hpc : s.pc = .write i) (hi : i ≤ 64)
    (hfree : ∀ i < 64, FreeTag tlb i) : ∃ s', Reaches step s s' ∧ s'.pc = .done := by
  induction hn : 64 - i generalizing s i with
  | zero =>
      obtain rfl : i = 64 := by omega
      refine ⟨_, .head rfl (.refl _), ?_⟩
      unfold step
      rw [hpc]
      rfl
  | succ n ih =>
      obtain ⟨s', hreach, hpc'⟩ := write_reaches hs hpc (by omega) (hfree i (by omega))
      obtain ⟨s'', hdone, hpc''⟩ := ih (reaches_safe hreach hs) hpc' (by omega) (by omega)
      exact ⟨s'', hreach.trans hdone, hpc''⟩

theorem reads_reach {s : State} {i : Nat} (hpc : s.pc = .read i) (hi : i ≤ 64) :
    ∃ s', Reaches step s s' ∧ s'.pc = .write 0 := by
  induction hn : 64 - i generalizing s i with
  | zero =>
      obtain rfl : i = 64 := by omega
      refine ⟨_, .head rfl (.refl _), ?_⟩
      unfold step
      rw [hpc]
      rfl
  | succ n ih =>
      have hnext : (step s).pc = .read (i + 1) := by
        unfold step
        rw [hpc]
        dsimp only
        rw [if_pos (by omega)]
      obtain ⟨s', hreach, hpc'⟩ := ih hnext (by omega) (by omega)
      exact ⟨s', .head rfl hreach, hpc'⟩

theorem tlbClean_terminates (cpu : Cpu) (hfree : ∀ i < 64, FreeTag cpu.tlb i) :
    ∃ n, (tlbClean cpu n).pc = .done := by
  obtain ⟨s, hread, hpc⟩ := reads_reach (s := { cpu }) rfl (Nat.zero_le 64)
  obtain ⟨s', hwrite, hpc'⟩ :=
    writes_reach (reaches_safe hread (start_safe cpu)) hpc (Nat.zero_le 64) hfree
  obtain ⟨n, hn⟩ := hread.trans hwrite
  exact ⟨n, (congrArg State.pc hn).trans hpc'⟩

/-- At every moment, two entries that one access hits are both old ones
that were not rewritten yet; and the routine ends, with no such entries,
when each search has a free tag. -/
theorem tlbClean_no_duplicate (cpu : Cpu) :
    (∀ n, ∀ p < 64, ∀ q < 64, p ≠ q →
      Overlap ((tlbClean cpu n).cpu.tlb p) ((tlbClean cpu n).cpu.tlb q) →
        (tlbClean cpu n).cleaned ≤ p ∧ (tlbClean cpu n).cleaned ≤ q
          ∧ (tlbClean cpu n).cpu.tlb p = cpu.tlb p ∧ (tlbClean cpu n).cpu.tlb q = cpu.tlb q)
    ∧ ((∀ i < 64, FreeTag cpu.tlb i) →
      ∃ n, (tlbClean cpu n).pc = .done
        ∧ ∀ p < 64, ∀ q < 64, p ≠ q →
          ¬ Overlap ((tlbClean cpu n).cpu.tlb p) ((tlbClean cpu n).cpu.tlb q)) := by
  refine ⟨fun n p hp q hq hne hover => ?_, fun hfree => ?_⟩
  · have hs := tlbClean_safe cpu n
    have hp' : (tlbClean cpu n).cleaned ≤ p := by
      by_contra hlt
      exact hs.apart p (by omega) q hq (Ne.symm hne) hover
    have hq' : (tlbClean cpu n).cleaned ≤ q := by
      by_contra hlt
      exact hs.apart q (by omega) p hp hne hover.symm
    exact ⟨hp', hq', hs.old p hp', hs.old q hq'⟩
  · obtain ⟨n, hdone⟩ := tlbClean_terminates cpu hfree
    have hs := tlbClean_safe cpu n
    have hcleaned : (tlbClean cpu n).cleaned = 64 := by
      unfold State.cleaned
      rw [hdone]
    refine ⟨n, hdone, fun p hp q hq hne => hs.apart p (by omega) q hq (Ne.symm hne)⟩

/-- Power-on contents with every entry alike. -/
def sameEntries : Cpu := { tlb := fun _ => { vpn2 := 0, mask := 0, asid := 0, lo0 := 0, lo1 := 0 } }

theorem tlbClean_no_duplicate_same :
    ∃ n, (tlbClean sameEntries n).pc = .done
      ∧ ∀ p < 64, ∀ q < 64, p ≠ q →
        ¬ Overlap ((tlbClean sameEntries n).cpu.tlb p) ((tlbClean sameEntries n).cpu.tlb q) := by
  apply (tlbClean_no_duplicate sameEntries).2
  intro i hi
  refine ⟨0, fun q _ _ => ?_⟩
  have hall : ∀ i < 64, ¬ (sameEntries.tlb 0).Covers (candidate i 0) := by decide +kernel
  exact hall i hi

-- ==================================================== contents it hangs on

/-- Entries 1 to 8 have pages of 256 MB and cover every address. -/
def wholeSpace : Cpu :=
  { tlb := fun p =>
      if 1 ≤ p ∧ p ≤ 8 then
        { vpn2 := BitVec.ofNat 19 ((p - 1) * 2 ^ 16), mask := 0xffff, asid := 0, lo0 := 0, lo1 := 0 }
      else { vpn2 := 0, mask := 0, asid := 0, lo0 := 0, lo1 := 0 } }

/-- The top three bits of an address are the number of its entry. -/
theorem wholeSpace_covers (t : BitVec 32) :
    (wholeSpace.tlb (t.toNat / 2 ^ 29 + 1)).Covers t := by
  have hlt : t.toNat / 2 ^ 29 < 8 := by
    have := t.isLt
    omega
  generalize hn : t.toNat / 2 ^ 29 = n at hlt
  unfold Entry.Covers
  rw [masked_eq_zero]
  intro k hk
  have hspan : (wholeSpace.tlb (n + 1)).span = 0xe0000000#32 := by
    have hall : ∀ n < 8, (wholeSpace.tlb (n + 1)).span = 0xe0000000#32 := by decide +kernel
    exact hall n hlt
  have hhigh : 29 ≤ k ∧ k < 32 := by
    have hbits : ∀ k < 32, (0xe0000000#32).getLsbD k = true → 29 ≤ k := by decide +kernel
    rw [hspan] at hk
    rcases Nat.lt_or_ge k 32 with h | h
    · exact ⟨hbits k h hk, h⟩
    · rw [BitVec.getLsbD_of_ge _ _ h] at hk
      exact absurd hk Bool.false_ne_true
  have htag : ∀ n < 8, ∀ k < 32, 29 ≤ k →
      (wholeSpace.tlb (n + 1)).tag.getLsbD k = n.testBit (k - 29) := by decide +kernel
  rw [htag n hlt k hhigh.2 hhigh.1, ← hn, Nat.testBit_div_two_pow, Nat.sub_add_cancel hhigh.1,
    BitVec.testBit_toNat]

/-- Reading, or at the first entry with the one that covers its tag still
ahead. -/
def Stuck (s : State) : Prop :=
  s.Safe wholeSpace.tlb
    ∧ match s.pc with
      | .read _ => True
      | .write i => i = 0
      | .search i j t => i = 0 ∧ j ≤ t.toNat / 2 ^ 29 + 1
      | .done => False

theorem Stuck.step {s : State} (h : Stuck s) : Stuck (step s) := by
  refine ⟨h.1.step, ?_⟩
  obtain ⟨cpu, tag, span, pc⟩ := s
  obtain ⟨hs, hpc⟩ := h
  cases pc with
  | read i =>
      unfold Launcher.step
      dsimp only
      by_cases hi : i < 64
      · rw [if_pos hi]
        trivial
      · rw [if_neg hi]
  | write i =>
      obtain rfl : i = 0 := hpc
      exact ⟨rfl, Nat.zero_le _⟩
  | search i j t =>
      obtain ⟨rfl, hj⟩ : i = 0 ∧ j ≤ t.toNat / 2 ^ 29 + 1 := hpc
      have ht := t.isLt
      have hj64 : j < 64 := by omega
      unfold Launcher.step
      dsimp only
      rw [if_pos hj64]
      by_cases hclash : j ≠ 0 ∧ (t ^^^ tag j) &&& span j = 0
      · rw [if_pos hclash]
        exact ⟨rfl, Nat.zero_le _⟩
      · rw [if_neg hclash]
        refine ⟨rfl, ?_⟩
        rcases Nat.eq_or_lt_of_le hj with heq | hlt
        · -- this is the entry that covers the tag
          have hcov := wholeSpace_covers t
          rw [← heq, ← hs.old j (Nat.zero_le j)] at hcov
          have hno := ((hs.stage.2.1 j hj64).clash t).mpr hcov
          exact absurd ⟨by omega, hno⟩ hclash
        · exact hlt
  | done => exact hpc

/-- With these contents, of which two are alike from the start, the
search for the first entry never ends. -/
theorem tlbClean_hangs :
    (∀ n, (tlbClean wholeSpace n).pc ≠ .done)
      ∧ Overlap ((tlbClean wholeSpace 0).cpu.tlb 0) ((tlbClean wholeSpace 0).cpu.tlb 9) := by
  refine ⟨fun n hdone => ?_, 0, 0, ⟨by decide, .inr rfl⟩, by decide, .inr rfl⟩
  have hstart : Stuck { cpu := wholeSpace } := ⟨start_safe wholeSpace, trivial⟩
  have hstuck : Stuck (tlbClean wholeSpace n) := Iterate.keeps (fun _ h => h.step) hstart n
  have hpc := hstuck.2
  rw [hdone] at hpc
  exact hpc

end Ncmips.Launcher
