/-
The heap in memory is a list of blocks that fill its regions.

`Holds` ties the two: the headers in memory spell out the list, the list
fills the regions and is merged. Each function keeps it, with the change
that it makes to the list, and writes nowhere but in headers and in the
free block that it serves from. Calls in any order then keep what their
owners wrote.
-/
import Ncmips.Libc.Heap

namespace Ncmips.Libc

open Words Memory FirstFit

-- ======================================================= lists in memory

/-- The address by which a list is known. -/
def headOf : List Block → Nat
  | [] => 0
  | b :: _ => b.addr

/-- The header of `b`, with `next` behind it. -/
structure InMem (m : Mem) (b : Block) (next : Nat) : Prop where
  size : blockSize m b.addr = b.size
  used : blockUsed m b.addr = b.used.toNat
  next : blockNext m b.addr = next

def Listed (m : Mem) : List Block → Prop
  | [] => True
  | b :: bs => InMem m b (headOf bs) ∧ Listed m bs

/-- `x` is not in the header of `b`. -/
def OffHeader (b : Block) (x : Nat) : Prop := x < b.addr ∨ b.addr + header ≤ x

/-- The blocks lie in the address space, not at NULL, and apart. -/
structure Places (bs : List Block) : Prop where
  bounds : ∀ b ∈ bs, 0 < b.addr ∧ b.stop header < 2 ^ 32
  apart : bs.Pairwise fun b c => b.stop header ≤ c.addr ∨ c.stop header ≤ b.addr

variable {m m' : Mem} {b c : Block} {bs pre post x : List Block} {rs : List Span} {h h' : Heap}
  {n turns next p : Nat}

theorem InMem.congr (h : InMem m b next) (hm : ∀ x, ¬ OffHeader b x → m' x = m x) :
    InMem m' b next := by
  have hword (k : Nat) (hk : k + 4 ≤ header) : load32 m' (b.addr + k) = load32 m (b.addr + k) := by
    apply load32_congr
    intro i hi
    apply hm
    unfold OffHeader
    omega
  exact ⟨(hword 0 (by decide)).trans h.size, (hword 4 (by decide)).trans h.used,
    (hword 8 (by decide)).trans h.next⟩

theorem Listed.congr (h : Listed m bs) (hm : ∀ b ∈ bs, ∀ x, ¬ OffHeader b x → m' x = m x) :
    Listed m' bs := by
  induction bs with
  | nil => trivial
  | cons b bs ih =>
      exact ⟨h.1.congr (hm b List.mem_cons_self),
        ih h.2 fun c hc => hm c (List.mem_cons_of_mem _ hc)⟩

/-- The end of a list is exchanged for one with the same address. -/
theorem Listed.replace {y : List Block} (h : Listed m (pre ++ x))
    (hm : ∀ b ∈ pre, ∀ x, ¬ OffHeader b x → m' x = m x) (hhead : headOf y = headOf x)
    (hy : Listed m' y) : Listed m' (pre ++ y) := by
  induction pre with
  | nil => exact hy
  | cons b pre ih =>
      have hnext : headOf (pre ++ y) = headOf (pre ++ x) := by
        cases pre with
        | nil => exact hhead
        | cons c pre => rfl
      have hb : InMem m b (headOf (pre ++ x)) := h.1
      exact ⟨hnext ▸ hb.congr (hm b List.mem_cons_self),
        ih h.2 fun c hc => hm c (List.mem_cons_of_mem _ hc)⟩

theorem Listed.tail (h : Listed m (pre ++ x)) : Listed m x := by
  induction pre with
  | nil => exact h
  | cons b pre ih => exact ih h.2

theorem Places.tail (h : Places (b :: bs)) : Places bs :=
  ⟨fun c hc => h.bounds c (List.mem_cons_of_mem _ hc), (List.pairwise_cons.mp h.apart).2⟩

theorem Places.right (h : Places (pre ++ x)) : Places x :=
  ⟨fun c hc => h.bounds c (List.mem_append_right _ hc), (List.pairwise_append.mp h.apart).2.1⟩

theorem Places.headOf_pos (h : Places (b :: bs)) : headOf (b :: bs) ≠ 0 :=
  Nat.ne_of_gt (h.bounds b List.mem_cons_self).1

theorem headOf_append (hx : headOf x = headOf post) : headOf (pre ++ x) = headOf (pre ++ post) := by
  cases pre with
  | nil => exact hx
  | cons b pre => rfl

-- ================================================================ regions

/-- The regions: aligned, not at NULL, with room for a header, and with a
gap between any two. -/
structure Regions (rs : List Span) : Prop where
  some : rs ≠ []
  aligned : ∀ r ∈ rs, 16 ∣ r.start ∧ 16 ∣ r.stop
  bounds : ∀ r ∈ rs, 0 < r.start ∧ r.start + header < r.stop ∧ r.stop < 2 ^ 32
  apart : rs.Pairwise fun r s => r.stop < s.start ∨ s.stop < r.start

/-- A range of RAM away from the others is added as a region, or left out. -/
theorem sdkHeapRegion_regions (hr : Regions rs) (hh : h.regions = rs) {start stop : Nat}
    (hpos : 0 < start) (hwrap : start + 15 + 64 * 1024 < 2 ^ 32) (hstop : stop < 2 ^ 32)
    (happart : ∀ r ∈ rs, r.stop < start ∨ stop < r.start) :
    Regions (sdkHeapRegion start stop h).regions := by
  unfold sdkHeapRegion
  dsimp only
  rw [u32_of_lt (by omega : start + 15 < 2 ^ 32)]
  split
  · next hadd =>
    obtain ⟨-, hsize⟩ := hadd
    rw [u32_of_lt (by omega)] at hsize
    rw [hh]
    refine ⟨by simp, fun r hr' => ?_, fun r hr' => ?_, ?_⟩
    · rcases List.mem_append.mp hr' with h | h
      · exact hr.aligned r h
      · obtain rfl := List.mem_singleton.mp h
        exact ⟨Nat.dvd_mul_left _ _, Nat.dvd_mul_left _ _⟩
    · rcases List.mem_append.mp hr' with h | h
      · exact hr.bounds r h
      · obtain rfl := List.mem_singleton.mp h
        unfold header
        dsimp only
        omega
    · refine List.pairwise_append.mpr ⟨hr.apart, List.pairwise_singleton _ _, fun r hr' s hs => ?_⟩
      obtain rfl := List.mem_singleton.mp hs
      dsimp only
      rcases happart r hr' with h | h
      · exact .inl (by omega)
      · exact .inr (by omega)
  · rw [hh]
    exact hr

theorem Regions.places (hr : Regions rs) (hf : Fills header 16 0 0 rs bs) : Places bs := by
  have hin (b : Block) (hb : b ∈ bs) : ∃ r ∈ rs, r.start ≤ b.addr ∧ b.stop header ≤ r.stop := by
    rcases hf.inside b hb with ⟨-, h0⟩ | hin
    · unfold Block.stop header at h0
      omega
    · exact hin
  refine ⟨fun b hb => ?_, hf.disjoint (hr.apart.imp fun h => ?_) fun r hr' => ?_⟩
  · obtain ⟨r, hr', hlo, hhi⟩ := hin b hb
    obtain ⟨hpos, -, htop⟩ := hr.bounds r hr'
    exact ⟨by omega, by omega⟩
  · rcases h with h | h
    · exact .inl (Nat.le_of_lt h)
    · exact .inr (Nat.le_of_lt h)
  · exact .inl (Nat.zero_le _)

-- ================================================================ the link

/-- The heap in memory is the list `bs` over the regions `rs`. -/
structure Holds (rs : List Span) (bs : List Block) (h : Heap) : Prop where
  regions : h.regions = rs
  head : h.head = headOf bs
  listed : Listed h.mem bs
  fills : Fills header 16 0 0 rs bs
  merged : Merged header bs
  inUse : h.inUse = usedSum bs

-- ============================================================== first fit

theorem mallocFrom_succ (n turns a : Nat) (h : Heap) : mallocFrom n (turns + 1) a h
    = if a = 0 then some (0, h)
      else if blockUsed h.mem a ≠ 0 ∨ blockSize h.mem a < n then
        mallocFrom n turns (blockNext h.mem a) h
      else some (takeBlock a n h) := rfl

/-- The blocks that do not serve are passed over. -/
theorem mallocFrom_skip (hl : Listed h.mem (pre ++ x)) (hp : Places (pre ++ x))
    (hno : ∀ b ∈ pre, b.used = true ∨ b.size < n) (turns : Nat) :
    mallocFrom n (pre.length + turns) (headOf (pre ++ x)) h
      = mallocFrom n turns (headOf x) h := by
  induction pre with
  | nil => rw [List.length_nil, Nat.zero_add, List.nil_append]
  | cons b pre ih =>
      obtain ⟨hb, hrest⟩ := hl
      have hskip : blockUsed h.mem b.addr ≠ 0 ∨ blockSize h.mem b.addr < n := by
        rw [hb.used, hb.size]
        rcases hno b List.mem_cons_self with hused | hsize
        · rw [hused]
          exact .inl (by decide)
        · exact .inr hsize
      have hpos : b.addr ≠ 0 := Nat.ne_of_gt (hp.bounds b List.mem_cons_self).1
      rw [List.length_cons, Nat.add_right_comm, List.cons_append]
      show mallocFrom n (pre.length + turns + 1) b.addr h = _
      rw [mallocFrom_succ, if_neg hpos, if_pos hskip, hb.next]
      exact ih hrest hp.tail fun c hc => hno c (List.mem_cons_of_mem _ hc)

/-- More turns change no result. -/
theorem mallocFrom_more {r : Nat × Heap} {a : Nat} (hres : mallocFrom n turns a h = some r)
    (k : Nat) : mallocFrom n (turns + k) a h = some r := by
  induction turns generalizing a with
  | zero => cases hres
  | succ turns ih =>
      rw [mallocFrom_succ] at hres
      rw [Nat.add_right_comm, mallocFrom_succ]
      split
      · next h0 =>
        rw [if_pos h0] at hres
        exact hres
      · next h0 =>
        rw [if_neg h0] at hres
        split
        · next hskip =>
          rw [if_pos hskip] at hres
          exact ih hres
        · next htake =>
          rw [if_neg htake] at hres
          exact hres

/-- Writing within a block leaves the blocks behind it. -/
theorem listed_of_within (hpost : Listed m post) (hp : Places (b :: post))
    (hm : ∀ x, x < b.addr ∨ b.stop header ≤ x → m' x = m x) : Listed m' post := by
  refine hpost.congr fun c hc x hx => hm x ?_
  have hapart := (List.pairwise_cons.mp hp.apart).1 c hc
  unfold OffHeader at hx
  unfold Block.stop header at *
  omega

/-- Writing within a block leaves the blocks before it. -/
theorem off_header_of_within (hp : Places (pre ++ b :: post))
    (hm : ∀ x, x < b.addr ∨ b.stop header ≤ x → m' x = m x) :
    ∀ c ∈ pre, ∀ x, ¬ OffHeader c x → m' x = m x := by
  intro c hc x hx
  have hapart := (List.pairwise_append.mp hp.apart).2.2 c hc b List.mem_cons_self
  apply hm
  unfold OffHeader at hx
  unfold Block.stop header at *
  omega

theorem Places.usedSum_lt (hp : Places bs) : usedSum bs < 2 ^ 32 := by
  have hle := usedSum_le hp.apart (fun b hb => Nat.le_pred_of_lt (hp.bounds b hb).2)
  exact Nat.lt_of_le_of_lt hle (by decide)

/-- What a block becomes as it serves a request. -/
theorem takeBlock_spec (hl : Listed h.mem (b :: post)) (hp : Places (b :: post))
    (hn : n ≤ b.size) (hwrap : n + header + 64 < 2 ^ 32) :
    ∃ h', takeBlock b.addr n h = (b.addr + header, h') ∧ Listed h'.mem (b.serve header 64 n ++ post)
      ∧ h'.regions = h.regions ∧ h'.head = h.head
      ∧ h'.inUse = u32 (h.inUse + usedSum (b.serve header 64 n))
      ∧ ∀ x, x < b.addr ∨ b.stop header ≤ x → h'.mem x = h.mem x := by
  obtain ⟨hb, hpost⟩ := hl
  obtain ⟨hpos, htop⟩ := hp.bounds b List.mem_cons_self
  have hptr : u32 (b.addr + header) = b.addr + header := by
    unfold Block.stop at htop
    exact u32_of_lt (by omega)
  unfold takeBlock Block.serve
  dsimp only
  rw [hptr, u32_of_lt hwrap, hb.size]
  by_cases hsplit : n + header + 64 ≤ b.size
  · rw [if_pos hsplit, if_pos hsplit]
    have hrest : u32 (b.addr + header + n) = b.addr + header + n := by
      unfold Block.stop at htop
      exact u32_of_lt (by omega)
    have hleft : sub32 (sub32 b.size n) header = b.size - n - header := by
      unfold Block.stop at htop
      have hn' : sub32 b.size n = b.size - n := sub32_of_le hn (by omega)
      rw [hn', sub32_of_le (by omega) (by omega)]
    rw [hrest, hleft]
    have hin := hp
    unfold Block.stop header at *
    have hsize : b.size - n - 16 < 2 ^ 32 := by omega
    refine ⟨_, rfl, ⟨⟨?_, ?_, ?_⟩, ⟨?_, ?_, ?_⟩, listed_of_within hpost hin fun x hx => ?_⟩, rfl, rfl,
      ?_, fun x hx => ?_⟩
    · simp (disch := omega) only [setSize, setUsed, setNext, blockSize, load32_store32_apart,
        load32_store32]
    · simp (disch := omega) only [setSize, setUsed, setNext, blockUsed, load32_store32]
      rfl
    · simp (disch := omega) only [setSize, setUsed, setNext, blockNext, load32_store32_apart,
        load32_store32]
      rfl
    · simp (disch := omega) only [setSize, setUsed, setNext, blockSize, load32_store32_apart,
        load32_store32]
    · simp (disch := omega) only [setSize, setUsed, setNext, blockUsed, load32_store32_apart,
        load32_store32]
      rfl
    · have hnext := hb.next
      unfold blockNext at hnext
      simp (disch := omega) only [setSize, setUsed, setNext, blockNext, load32_store32_apart]
      rw [load32_store32 (load32_lt _ _)]
      exact hnext
    · unfold Block.stop header at hx
      simp (disch := omega) only [setSize, setUsed, setNext, store32_out]
    · simp (disch := omega) only [setSize, setUsed, setNext, blockSize, load32_store32_apart,
        load32_store32]
      rfl
    · simp (disch := omega) only [setSize, setUsed, setNext, store32_out]
  · rw [if_neg hsplit, if_neg hsplit]
    have hin := hp
    unfold Block.stop header at *
    refine ⟨_, rfl, ⟨⟨?_, ?_, ?_⟩, listed_of_within hpost hin fun x hx => ?_⟩, rfl, rfl, ?_,
      fun x hx => ?_⟩
    · simp (disch := omega) only [setUsed, blockSize, load32_store32_apart]
      exact hb.size
    · simp only [setUsed, blockUsed]
      exact load32_store32 (by decide)
    · simp (disch := omega) only [setUsed, blockNext, load32_store32_apart]
      exact hb.next
    · unfold Block.stop header at hx
      simp (disch := omega) only [setUsed, store32_out]
    · simp (disch := omega) only [setUsed, blockSize, load32_store32_apart]
      rw [show load32 h.mem b.addr = b.size from hb.size]
      rfl
    · simp (disch := omega) only [setUsed, store32_out]

/-- `malloc` on a list: NULL if nothing serves, else the first block that
does. -/
theorem mallocFrom_spec (hr : Regions rs) (hh : Holds rs bs h) (hn : 16 ∣ n)
    (hwrap : ∀ b ∈ bs, b.used = false → n ≤ b.size → n + header + 64 < 2 ^ 32)
    (hturns : bs.length < turns) :
    ((∀ b ∈ bs, b.used = true ∨ b.size < n) ∧ mallocFrom n turns h.head h = some (0, h))
    ∨ ∃ pre b post h', bs = pre ++ b :: post ∧ b.used = false ∧ n ≤ b.size
      ∧ mallocFrom n turns h.head h = some (b.addr + header, h')
      ∧ Holds rs (pre ++ (b.serve header 64 n ++ post)) h'
      ∧ ∀ x, x < b.addr ∨ b.stop header ≤ x → h'.mem x = h.mem x := by
  have hp := hr.places hh.fills
  rw [hh.head]
  cases hfind : bs.find? fun b => !b.used && decide (n ≤ b.size) with
  | none =>
      have hno : ∀ b ∈ bs, b.used = true ∨ b.size < n := by
        intro b hb
        have h := List.find?_eq_none.mp hfind b hb
        simp only [Bool.and_eq_true, Bool.not_eq_true', decide_eq_true_eq, not_and, Nat.not_le] at h
        cases hused : b.used with
        | true => exact .inl rfl
        | false => exact .inr (h hused)
      refine .inl ⟨hno, ?_⟩
      obtain ⟨k, rfl⟩ : ∃ k, turns = bs.length + (k + 1) := ⟨turns - bs.length - 1, by omega⟩
      have hskip := @mallocFrom_skip bs [] h n (by rw [List.append_nil]; exact hh.listed)
        (by rw [List.append_nil]; exact hp) hno (k + 1)
      rw [List.append_nil] at hskip
      rw [hskip]
      exact if_pos rfl
  | some b =>
      obtain ⟨hfits, pre, post, rfl, hno⟩ := List.find?_eq_some_iff_append.mp hfind
      simp only [Bool.and_eq_true, Bool.not_eq_true', decide_eq_true_eq] at hfits
      obtain ⟨hfree, hle⟩ := hfits
      have hno' : ∀ c ∈ pre, c.used = true ∨ c.size < n := by
        intro c hc
        have h := hno c hc
        cases hused : c.used with
        | true => exact .inl rfl
        | false =>
            rw [hused] at h
            simpa using h
      rw [List.length_append, List.length_cons] at hturns
      obtain ⟨k, rfl⟩ : ∃ k, turns = pre.length + (k + 1) := ⟨turns - pre.length - 1, by omega⟩
      have hl := hh.listed.tail
      obtain ⟨h', htake, hl', hregions, hhead, hinUse, hout⟩ := takeBlock_spec hl hp.right hle
        (hwrap b (by simp) hfree hle)
      have hserve : headOf (b.serve header 64 n ++ post) = headOf (b :: post) := by
        unfold Block.serve
        split
        · rfl
        · rfl
      refine .inr ⟨pre, b, post, h', rfl, hfree, hle, ?_, ?_, hout⟩
      · have hused : ¬ (blockUsed h.mem b.addr ≠ 0 ∨ blockSize h.mem b.addr < n) := by
          rw [hl.1.used, hl.1.size, hfree, not_or]
          exact ⟨fun h => h rfl, Nat.not_lt.mpr hle⟩
        rw [mallocFrom_skip hh.listed hp hno' (k + 1)]
        show mallocFrom n (k + 1) b.addr h = _
        have hpos : b.addr ≠ 0 := hp.right.headOf_pos
        rw [mallocFrom_succ, if_neg hpos, if_neg hused, htake]
      · have hfills : Fills header 16 0 0 rs (pre ++ (b.serve header 64 n ++ post)) :=
          hh.fills.replace fun _ _ _ h => h.serve hn (by decide)
        have hsum : usedSum (pre ++ (b.serve header 64 n ++ post))
            = usedSum (pre ++ b :: post) + usedSum (b.serve header 64 n) := by
          rw [usedSum_append, usedSum_append, usedSum_append, usedSum, hfree]
          simp only [Bool.false_eq_true, if_false]
          omega
        exact {
          regions := hregions.trans hh.regions
          head := by rw [hhead, hh.head, headOf_append hserve]
          listed := hh.listed.replace (off_header_of_within hp hout) hserve hl'
          fills := hfills
          merged := hh.merged.serve hfree
          inUse := by
            rw [hinUse, hh.inUse, ← hsum]
            exact u32_of_lt (hr.places hfills).usedSum_lt }

-- ================================================================ merging

theorem mergeFrom_succ (turns a : Nat) (m : Mem) : mergeFrom (turns + 1) a m
    = if a = 0 then some m
      else if blockUsed m a = 0 ∧ blockNext m a ≠ 0 ∧ blockUsed m (blockNext m a) = 0
          ∧ u32 (a + header + blockSize m a) = blockNext m a then
        let m' := setSize m a (u32 (blockSize m a + (header + blockSize m (blockNext m a))))
        mergeFrom turns a (setNext m' a (blockNext m' (blockNext m' a)))
      else mergeFrom turns (blockNext m a) m := rfl

theorem InMem.unused (hb : InMem m b next) : blockUsed m b.addr = 0 ↔ b.used = false := by
  rw [hb.used]
  cases b.used with
  | true => decide
  | false => decide

/-- A block takes in the free one behind it. -/
theorem merge_spec (hl : Listed m (b :: c :: bs)) (hp : Places (b :: c :: bs))
    (htouch : b.stop header = c.addr) :
    let d : Block := { b with size := b.size + (header + c.size) }
    let m₁ := setSize m b.addr (u32 (blockSize m b.addr + (header + blockSize m c.addr)))
    let m₂ := setNext m₁ b.addr (blockNext m₁ (blockNext m₁ b.addr))
    Listed m₂ (d :: bs) ∧ Places (d :: bs) ∧ ∀ x, OffHeader b x → m₂ x = m x := by
  obtain ⟨hb, hc, hbs⟩ := hl
  obtain ⟨hpos, htop⟩ := hp.bounds b List.mem_cons_self
  obtain ⟨hpos', htop'⟩ := hp.bounds c (List.mem_cons_of_mem _ List.mem_cons_self)
  obtain ⟨hb', hrest⟩ := List.pairwise_cons.mp hp.apart
  obtain ⟨hc', hbs'⟩ := List.pairwise_cons.mp hrest
  intro d m₁ m₂
  have hend : d.stop header = c.stop header := by
    unfold Block.stop at htouch ⊢
    dsimp only [d]
    omega
  have hout : ∀ x, OffHeader b x → m₂ x = m x := by
    intro x hx
    unfold OffHeader header at hx
    dsimp only [m₂, m₁, setNext, setSize]
    rw [store32_out (by omega), store32_out (by omega)]
  have hplaces : Places (d :: bs) := by
    refine ⟨fun x hx => ?_, List.pairwise_cons.mpr ⟨fun x hx => ?_, hbs'⟩⟩
    · rcases List.mem_cons.mp hx with rfl | hx
      · exact ⟨hpos, hend ▸ htop'⟩
      · exact hp.bounds x (List.mem_cons_of_mem _ (List.mem_cons_of_mem _ hx))
    · rw [hend]
      rcases hc' x hx with h | h
      · exact .inl h
      · rcases hb' x (List.mem_cons_of_mem _ hx) with h' | h'
        · -- `x` would lie in the gap between the two
          unfold Block.stop header at *
          omega
        · exact .inr h'
  refine ⟨⟨⟨?_, ?_, ?_⟩, hbs.congr fun x hx y hy => hout y ?_⟩, hplaces, hout⟩
  · show load32 m₂ b.addr = b.size + (header + c.size)
    dsimp only [m₂, m₁, setNext, setSize, blockSize]
    have hsize := hb.size
    have hsize' := hc.size
    unfold blockSize at hsize hsize'
    unfold Block.stop at htop' htouch
    rw [load32_store32_apart (by omega), load32_store32 (u32_lt _), hsize, hsize']
    exact u32_of_lt (by omega)
  · show load32 m₂ (b.addr + 4) = b.used.toNat
    dsimp only [m₂, m₁, setNext, setSize]
    rw [load32_store32_apart (by omega), load32_store32_apart (by omega)]
    exact hb.used
  · show load32 m₂ (b.addr + 8) = headOf bs
    have hnext : load32 m (b.addr + 8) = c.addr := hb.next
    have hnext' : load32 m (c.addr + 8) = headOf bs := hc.next
    dsimp only [m₂, m₁, setNext, setSize, blockNext]
    unfold Block.stop header at htouch
    rw [load32_store32 (load32_lt _ _), @load32_store32_apart m b.addr (b.addr + 8) _ (by omega),
      hnext, load32_store32_apart (by omega), hnext']
  · have happart := hb' x (List.mem_cons_of_mem _ hx)
    unfold OffHeader at hy ⊢
    unfold Block.stop header at *
    omega

/-- The loops of `free` from a block on. -/
theorem mergeFrom_spec (hl : Listed m (b :: bs)) (hp : Places (b :: bs))
    (hturns : bs.length + 1 < turns) :
    ∃ m', mergeFrom turns b.addr m = some m' ∧ Listed m' (coalesceFrom header b bs)
      ∧ ∀ x, (∀ c ∈ b :: bs, OffHeader c x) → m' x = m x := by
  induction bs generalizing b m turns with
  | nil =>
      obtain ⟨k, rfl⟩ : ∃ k, turns = k + 2 := ⟨turns - 2, by simp at hturns; omega⟩
      have hnext : blockNext m b.addr = 0 := hl.1.next
      have hpos : b.addr ≠ 0 := hp.headOf_pos
      refine ⟨m, ?_, hl, fun x _ => rfl⟩
      rw [mergeFrom_succ, if_neg hpos, hnext, if_neg fun h => h.2.1 rfl]
      exact if_pos rfl
  | cons c bs ih =>
      obtain ⟨k, rfl⟩ : ∃ k, turns = k + 1 := ⟨turns - 1, by omega⟩
      rw [List.length_cons] at hturns
      obtain ⟨hb, hrest⟩ := hl
      have hnext : blockNext m b.addr = c.addr := hb.next
      have hpos : b.addr ≠ 0 := hp.headOf_pos
      have hpos' : c.addr ≠ 0 := hp.tail.headOf_pos
      have hstop : u32 (b.addr + header + blockSize m b.addr) = b.stop header := by
        rw [hb.size]
        exact u32_of_lt (hp.bounds b List.mem_cons_self).2
      unfold coalesceFrom
      rw [mergeFrom_succ, if_neg hpos]
      by_cases hmerge : b.used = false ∧ c.used = false ∧ b.stop header = c.addr
      · obtain ⟨hl', hp', hout⟩ := merge_spec ⟨hb, hrest⟩ hp hmerge.2.2
        obtain ⟨m', hres, hlist, hframe⟩ := ih hl' hp' (by omega : bs.length + 1 < k)
        rw [if_pos hmerge, hnext, hstop,
          if_pos ⟨hb.unused.mpr hmerge.1, hpos', hrest.1.unused.mpr hmerge.2.1, hmerge.2.2⟩]
        refine ⟨m', hres, hlist, fun x hx => ?_⟩
        rw [hframe x fun d hd => ?_, hout x (hx b List.mem_cons_self)]
        rcases List.mem_cons.mp hd with rfl | hd
        · exact hx b List.mem_cons_self
        · exact hx d (List.mem_cons_of_mem _ (List.mem_cons_of_mem _ hd))
      · obtain ⟨m', hres, hlist, hframe⟩ := ih hrest hp.tail (by omega : bs.length + 1 < k)
        have hkeep : ¬ (blockUsed m b.addr = 0 ∧ blockNext m b.addr ≠ 0
            ∧ blockUsed m (blockNext m b.addr) = 0
            ∧ u32 (b.addr + header + blockSize m b.addr) = blockNext m b.addr) := by
          rw [hnext, hstop]
          exact fun h => hmerge ⟨hb.unused.mp h.1, hrest.1.unused.mp h.2.2.1, h.2.2.2⟩
        rw [if_neg hmerge, if_neg hkeep, hnext]
        obtain ⟨d, rest, heq, haddr, -⟩ := coalesceFrom_head header c bs
        refine ⟨m', hres, ?_, fun x hx => hframe x fun d hd => hx d (List.mem_cons_of_mem _ hd)⟩
        refine ⟨?_, hlist⟩
        have hhead : headOf (coalesceFrom header c bs) = c.addr := by
          rw [heq]
          exact haddr
        rw [hhead]
        refine hb.congr fun x hx => hframe x fun d hd => ?_
        have happart := (List.pairwise_cons.mp hp.apart).1 d hd
        unfold OffHeader at hx ⊢
        unfold Block.stop at happart
        omega

/-- More turns change no result. -/
theorem mergeFrom_more {a : Nat} (hres : mergeFrom turns a m = some m') (k : Nat) :
    mergeFrom (turns + k) a m = some m' := by
  induction turns generalizing a m with
  | zero => cases hres
  | succ turns ih =>
      rw [mergeFrom_succ] at hres
      rw [Nat.add_right_comm, mergeFrom_succ]
      split
      · next h0 =>
        rw [if_pos h0] at hres
        exact hres
      · next h0 =>
        rw [if_neg h0] at hres
        split
        · next hmerge =>
          rw [if_pos hmerge] at hres
          exact ih hres
        · next hkeep =>
          rw [if_neg hkeep] at hres
          exact ih hres

theorem free_spec (hr : Regions rs) (hh : Holds rs (pre ++ b :: post) h) (hused : b.used = true)
    (hturns : (pre ++ b :: post).length < turns) :
    ∃ h', free turns (b.addr + header) h = some h'
      ∧ Holds rs (coalesce header (pre ++ { b with used := false } :: post)) h'
      ∧ ∀ x, (∀ c ∈ pre ++ b :: post, OffHeader c x) → h'.mem x = h.mem x := by
  have hp := hr.places hh.fills
  obtain ⟨hpos, htop⟩ := hp.right.bounds b List.mem_cons_self
  have hb := hh.listed.tail.1
  have hfills : Fills header 16 0 0 rs (pre ++ { b with used := false } :: post) :=
    hh.fills.replace fun _ _ _ h => h.mark false
  have hp' := hr.places hfills
  have hback : sub32 (b.addr + header) header = b.addr := by
    unfold Block.stop at htop
    rw [sub32_of_le (Nat.le_add_left _ _) (by omega)]
    omega
  have hsum : usedSum (pre ++ b :: post)
      = usedSum (pre ++ { b with used := false } :: post) + b.size := by
    rw [usedSum_append, usedSum_append, usedSum, usedSum, hused]
    simp only [if_true, Bool.false_eq_true, if_false]
    omega
  have hout : ∀ x, OffHeader b x → setUsed h.mem b.addr 0 x = h.mem x := by
    intro x hx
    unfold OffHeader header at hx
    exact store32_out (by omega)
  have hsize : blockSize (setUsed h.mem b.addr 0) b.addr = b.size :=
    (load32_store32_apart (by omega)).trans hb.size
  have hnext : blockNext (setUsed h.mem b.addr 0) b.addr = headOf post :=
    (load32_store32_apart (by omega)).trans hb.next
  have hlisted : Listed (setUsed h.mem b.addr 0) (pre ++ { b with used := false } :: post) := by
    have hmid : Listed (setUsed h.mem b.addr 0) ({ b with used := false } :: post) := by
      refine ⟨⟨hsize, load32_store32 (by decide), hnext⟩,
        hh.listed.tail.2.congr fun c hc x hx => hout x ?_⟩
      have happart := (List.pairwise_cons.mp hp.right.apart).1 c hc
      unfold OffHeader at hx ⊢
      unfold Block.stop header at *
      omega
    refine hh.listed.replace (fun c hc x hx => hout x ?_) rfl hmid
    have happart := (List.pairwise_append.mp hp.apart).2.2 c hc b List.mem_cons_self
    unfold OffHeader at hx ⊢
    unfold Block.stop header at *
    omega
  have hhead : headOf (pre ++ { b with used := false } :: post) = headOf (pre ++ b :: post) :=
    headOf_append rfl
  have hlength : (pre ++ { b with used := false } :: post).length < turns := by
    rw [List.length_append] at hturns ⊢
    exact hturns
  have hoff : ∀ x, (∀ c ∈ pre ++ b :: post, OffHeader c x) →
      ∀ c ∈ pre ++ { b with used := false } :: post, OffHeader c x := by
    intro x hx c hc
    rcases List.mem_append.mp hc with hc | hc
    · exact hx c (List.mem_append_left _ hc)
    · rcases List.mem_cons.mp hc with rfl | hc
      · exact hx b (List.mem_append_right _ List.mem_cons_self)
      · exact hx c (List.mem_append_right _ (List.mem_cons_of_mem _ hc))
  unfold free
  rw [if_neg (by unfold header; omega), hback]
  dsimp only
  rw [hh.head, hh.inUse, hsize, hsum, ← hhead]
  have hfinish : ∃ m', mergeFrom turns (headOf (pre ++ { b with used := false } :: post))
        (setUsed h.mem b.addr 0) = some m'
      ∧ Listed m' (coalesce header (pre ++ { b with used := false } :: post))
      ∧ headOf (coalesce header (pre ++ { b with used := false } :: post))
        = headOf (pre ++ { b with used := false } :: post)
      ∧ ∀ x, (∀ c ∈ pre ++ { b with used := false } :: post, OffHeader c x) →
        m' x = setUsed h.mem b.addr 0 x := by
    generalize pre ++ { b with used := false } :: post = all at hlisted hp' hlength
    cases all with
    | nil =>
        obtain ⟨k, rfl⟩ : ∃ k, turns = k + 1 := ⟨turns - 1, by rw [List.length_nil] at hlength; omega⟩
        exact ⟨_, if_pos rfl, trivial, rfl, fun x _ => rfl⟩
    | cons d rest =>
        rw [List.length_cons] at hlength
        obtain ⟨m', hres, hlist, hframe⟩ := mergeFrom_spec hlisted hp' hlength
        obtain ⟨e, rest', heq, haddr, -⟩ := coalesceFrom_head header d rest
        refine ⟨m', hres, hlist, ?_, hframe⟩
        show headOf (coalesceFrom header d rest) = d.addr
        rw [heq]
        exact haddr
  obtain ⟨m', hres, hlist, hhead', hframe⟩ := hfinish
  rw [hres]
  refine ⟨_, rfl, ⟨hh.regions, ?_, hlist, hfills.coalesce (by decide), merged_coalesce _ _, ?_⟩,
    fun x hx => ?_⟩
  · exact hhead'.symm
  · have hlt := (hr.places hh.fills).usedSum_lt
    rw [hsum] at hlt
    rw [usedSum_coalesce, sub32_of_le (Nat.le_add_left _ _) hlt, Nat.add_sub_cancel]
  · exact (hframe x (hoff x hx)).trans (hout x (hx b (List.mem_append_right _ List.mem_cons_self)))

-- ================================================================= set-up

theorem initFrom_spec {prev : Nat} (hprev : prev ≠ 0) (hnext : blockNext h.mem prev = 0)
    (hrs : ∀ r ∈ rs, 0 < r.start ∧ r.start + header < r.stop ∧ r.stop < 2 ^ 32)
    (happart : rs.Pairwise fun r s => r.stop < s.start ∨ s.stop < r.start)
    (hoff : ∀ r ∈ rs, prev + header ≤ r.start ∨ r.start + header ≤ prev) :
    (initFrom rs prev h).head = h.head ∧ (initFrom rs prev h).regions = h.regions
      ∧ (initFrom rs prev h).inUse = h.inUse
      ∧ blockNext (initFrom rs prev h).mem prev = headOf (fresh header rs)
      ∧ Listed (initFrom rs prev h).mem (fresh header rs)
      ∧ ∀ x, (x < prev + 8 ∨ prev + 12 ≤ x) → (∀ r ∈ rs, x < r.start ∨ r.start + header ≤ x) →
        (initFrom rs prev h).mem x = h.mem x := by
  induction rs generalizing prev h with
  | nil => exact ⟨rfl, rfl, rfl, hnext, trivial, fun x _ _ => rfl⟩
  | cons r rs ih =>
      obtain ⟨hpos, hsize, htop⟩ := hrs r List.mem_cons_self
      obtain ⟨hr, happart⟩ := List.pairwise_cons.mp happart
      have hoff' := hoff r List.mem_cons_self
      have hlen : sub32 (sub32 r.stop r.start) header = r.stop - r.start - header := by
        have hlen' : sub32 r.stop r.start = r.stop - r.start := sub32_of_le (by omega) htop
        rw [hlen', sub32_of_le (by omega) (by omega)]
      unfold initFrom
      dsimp only
      rw [if_pos hprev, hlen]
      generalize hmem : setNext (setNext (setUsed (setSize h.mem r.start (r.stop - r.start - header))
        r.start 0) r.start 0) prev r.start = mem
      unfold header at *
      have hnext' : blockNext mem r.start = 0 := by
        rw [← hmem]
        simp (disch := omega) only [setSize, setUsed, setNext, blockNext, load32_store32_apart,
          load32_store32]
      have hfar : ∀ s ∈ rs, r.start + 16 ≤ s.start ∨ s.start + 16 ≤ r.start := by
        intro s hs
        have hs' := hrs s (List.mem_cons_of_mem _ hs)
        rcases hr s hs with h | h
        · exact .inl (by omega)
        · exact .inr (by omega)
      obtain ⟨hhead, hregions, hinUse, hlink, hlist, hframe⟩ := @ih { h with mem := mem } r.start
        (by omega) hnext' (fun s hs => hrs s (List.mem_cons_of_mem _ hs)) happart hfar
      have hword {a : Nat} (hin : r.start ≤ a ∧ a + 4 ≤ r.start + 8 ∨ a = prev + 8) :
          load32 (initFrom rs r.start { h with mem := mem }).mem a = load32 mem a := by
        apply load32_congr
        intro i hi
        apply hframe
        · omega
        · intro s hs
          have hfar' := hfar s hs
          have hoff'' := hoff s (List.mem_cons_of_mem _ hs)
          omega
      refine ⟨hhead, hregions, hinUse, ?_, ⟨⟨?_, ?_, hlink⟩, hlist⟩, fun x hx hxs => ?_⟩
      · show load32 _ (prev + 8) = r.start
        rw [hword (.inr rfl), ← hmem]
        exact load32_store32 (by omega)
      · show load32 _ r.start = r.stop - r.start - 16
        rw [hword (.inl (by omega)), ← hmem]
        simp (disch := omega) only [setSize, setUsed, setNext, load32_store32_apart, load32_store32]
      · show load32 _ (r.start + 4) = 0
        rw [hword (.inl (by omega)), ← hmem]
        simp (disch := omega) only [setSize, setUsed, setNext, load32_store32_apart, load32_store32]
      · have hx' := hxs r List.mem_cons_self
        rw [hframe x (by omega) fun s hs => hxs s (List.mem_cons_of_mem _ hs), ← hmem]
        simp (disch := omega) only [setSize, setUsed, setNext, store32_out]

theorem merged_fresh (hrs : ∀ r ∈ rs, 0 < r.start ∧ r.start + header < r.stop ∧ r.stop < 2 ^ 32)
    (happart : rs.Pairwise fun r s => r.stop < s.start ∨ s.stop < r.start) :
    Merged header (fresh header rs) := by
  unfold Merged fresh
  rw [List.isChain_map]
  refine (List.Pairwise.isChain happart).imp_of_mem_imp fun r s hr hs happart htouch => ?_
  have hsize := (hrs r hr).2.1
  have hsize' := (hrs s hs).2.1
  unfold Block.stop at htouch
  dsimp only at htouch
  rcases happart with h | h
  · omega
  · omega

theorem heapInit_spec (hr : Regions rs) (hregions : h.regions = rs) (hinUse : h.inUse = 0) :
    Holds rs (fresh header rs) (heapInit h) := by
  have happart := hr.apart
  have hbounds := hr.bounds
  have hfills : Fills header 16 0 0 rs (fresh header rs) := by
    refine fills_fresh (fun r hr' => ?_) ?_
    · obtain ⟨-, hsize, -⟩ := hr.bounds r hr'
      obtain ⟨hstart, hstop⟩ := hr.aligned r hr'
      exact ⟨hsize, Nat.dvd_sub (Nat.dvd_sub hstop hstart) (by decide)⟩
    · refine List.isChain_cons.mpr ⟨fun r hr' => ?_, ?_⟩
      · exact Nat.ne_of_lt (hr.bounds r (List.mem_of_mem_head? hr')).1
      · refine (List.Pairwise.isChain hr.apart).imp_of_mem_imp fun r s hr' hs happart => ?_
        have hsize := (hr.bounds s hs).2.1
        rcases happart with h | h
        · omega
        · have hsize' := (hr.bounds r hr').2.1
          omega
  cases hrs : rs with
  | nil => exact absurd hrs hr.some
  | cons r rs' =>
      subst hrs
      obtain ⟨hpos, hsize, htop⟩ := hbounds r List.mem_cons_self
      obtain ⟨hrest, happart'⟩ := List.pairwise_cons.mp happart
      have hlen : sub32 (sub32 r.stop r.start) header = r.stop - r.start - header := by
        have hlen' : sub32 r.stop r.start = r.stop - r.start := sub32_of_le (by omega) htop
        rw [hlen', sub32_of_le (by omega) (by omega)]
      unfold heapInit
      rw [hregions, if_neg (by simp)]
      dsimp only
      rw [hregions]
      unfold initFrom
      dsimp only
      rw [if_neg (fun h => h rfl), hlen]
      generalize hmem : setNext (setUsed (setSize h.mem r.start (r.stop - r.start - header))
        r.start 0) r.start 0 = mem
      have hnext : blockNext mem r.start = 0 := by
        rw [← hmem]
        exact load32_store32 (by decide)
      have hfar : ∀ s ∈ rs', r.start + header ≤ s.start ∨ s.start + header ≤ r.start := by
        intro s hs
        have hs' := hbounds s (List.mem_cons_of_mem _ hs)
        rcases hrest s hs with h | h
        · exact .inl (by omega)
        · exact .inr (by omega)
      obtain ⟨hhead, hregions', hinUse', hlink, hlist, hframe⟩ :=
        @initFrom_spec rs' { h with mem := mem, head := r.start, regions := r :: rs' } r.start
          (Nat.ne_of_gt hpos) hnext (fun s hs => hbounds s (List.mem_cons_of_mem _ hs)) happart' hfar
      have hword {a : Nat} (hin : r.start ≤ a ∧ a + 4 ≤ r.start + 8) :
          load32 (initFrom rs' r.start { h with mem := mem, head := r.start, regions := r :: rs' }).mem a
            = load32 mem a := by
        apply load32_congr
        intro i hi
        apply hframe
        · omega
        · intro s hs
          have hfar' := hfar s hs
          unfold header at *
          omega
      refine ⟨hregions', hhead, ⟨⟨?_, ?_, hlink⟩, hlist⟩, hfills, merged_fresh hr.bounds hr.apart, ?_⟩
      · show load32 _ r.start = r.stop - r.start - header
        rw [hword (by omega), ← hmem]
        unfold header at *
        simp (disch := omega) only [setSize, setUsed, setNext, load32_store32_apart, load32_store32]
      · show load32 _ (r.start + 4) = 0
        rw [hword (by omega), ← hmem]
        simp (disch := omega) only [setSize, setUsed, setNext, load32_store32_apart, load32_store32]
      · rw [hinUse', usedSum_fresh]
        exact hinUse

end Ncmips.Libc
