/-
Runs of the heap: calls in any order, and owners that write to what they
were given.

The heap keeps its shape and every payload its owner's bytes (`heap_sound`)
as long as no request gets past the end of the word as it is rounded up.
`Sized` says exactly when that is harmless.
-/
import Ncmips.Libc.Proofs.Heap

namespace Ncmips.Libc

open Words Memory FirstFit

/-- A live payload: where, what was asked for, and what its owner has in
it. -/
structure Alloc where
  ptr : Nat
  size : Nat
  bytes : Nat → UInt8

/-- What an allocation adds, if it gave anything. -/
def grant (p n : Nat) (h : Heap) (live : List Alloc) : List Alloc :=
  if p = 0 then live else ⟨p, n, fun i => h.mem (p + i)⟩ :: live

/-- Heaps in use: from the regions, by calls whose requests are `ok` and
by writes to live payloads. -/
inductive Run (rs : List Span) (ok : Heap → Nat → Prop) : Heap → List Alloc → Prop
  | start (mem) : Run rs ok { mem, regions := rs } []
  | order {h live live'} : Run rs ok h live → live.Perm live' → Run rs ok h live'
  | malloc {h live turns n p h'} : Run rs ok h live → n < 2 ^ 32 → ok h n →
      malloc turns n h = some (p, h') → Run rs ok h' (grant p n h' live)
  | calloc {h live turns n size p h'} : Run rs ok h live → ok h (n * size) →
      calloc turns n size h = some (p, h') → Run rs ok h' (grant p (n * size) h' live)
  | freeNull {h live turns h'} : Run rs ok h live → free turns 0 h = some h' → Run rs ok h' live
  | free {h a live turns h'} : Run rs ok h (a :: live) → free turns a.ptr h = some h' →
      Run rs ok h' live
  | reallocNull {h live turns n p h'} : Run rs ok h live → n < 2 ^ 32 → ok h n →
      realloc turns 0 n h = some (p, h') → Run rs ok h' (grant p n h' live)
  | realloc {h a live turns n q h'} : Run rs ok h (a :: live) → n < 2 ^ 32 → ok h n →
      realloc turns a.ptr n h = some (q, h') → q ≠ 0 →
      -- the first bytes are kept, up to the smaller size
      Run rs ok h' (⟨q, n, fun i => if i < min a.size n then a.bytes i else h'.mem (q + i)⟩ :: live)
  | reallocFails {h a live turns n h'} : Run rs ok h (a :: live) → n < 2 ^ 32 → ok h n →
      realloc turns a.ptr n h = some (0, h') → Run rs ok h' (a :: live)
  | write {h a live i} (v : Nat) : Run rs ok h (a :: live) → i < a.size →
      Run rs ok { h with mem := store8 h.mem (a.ptr + i) v }
        ({ a with bytes := fun j => if j = i then .ofNat v else a.bytes j } :: live)

/-- The heap with its live payloads: the list `bs` in memory fills each
region with blocks, is merged, and its used blocks are the payloads. -/
structure Good (rs : List Span) (bs : List Block) (h : Heap) (live : List Alloc) : Prop where
  holds : Holds rs bs h
  known : ∀ a ∈ live, ∃ b ∈ bs, b.used = true ∧ a.ptr = b.addr + header ∧ a.size ≤ b.size
  owned : ∀ b ∈ bs, b.used = true → ∃ a ∈ live, a.ptr = b.addr + header
  distinct : (live.map Alloc.ptr).Nodup
  bytes : ∀ a ∈ live, ∀ i < a.size, h.mem (a.ptr + i) = a.bytes i

variable {rs : List Span} {bs : List Block} {h h' : Heap} {live live' : List Alloc} {a : Alloc}
  {n p turns : Nat}

theorem Good.perm (hg : Good rs bs h live) (hp : live.Perm live') : Good rs bs h live' where
  holds := hg.holds
  known a ha := hg.known a (hp.mem_iff.mpr ha)
  owned b hb hused :=
    let ⟨a, ha, h⟩ := hg.owned b hb hused
    ⟨a, hp.mem_iff.mp ha, h⟩
  distinct := (hp.map _).nodup_iff.mp hg.distinct
  bytes a ha := hg.bytes a (hp.mem_iff.mpr ha)

/-- Two blocks of the list. -/
theorem Places.apart_of_ne {b c : Block} (hp : Places bs) (hb : b ∈ bs) (hc : c ∈ bs) (hne : b ≠ c) :
    b.stop header ≤ c.addr ∨ c.stop header ≤ b.addr := by
  have hsymm : Std.Symm fun b c : Block => b.stop header ≤ c.addr ∨ c.stop header ≤ b.addr :=
    ⟨fun _ _ h => h.symm⟩
  exact hp.apart.forall hb hc hne

theorem Places.eq_of_addr {b c : Block} (hp : Places bs) (hb : b ∈ bs) (hc : c ∈ bs)
    (heq : b.addr = c.addr) : b = c := by
  by_contra hne
  have happart := hp.apart_of_ne hb hc hne
  unfold Block.stop header at happart
  omega

/-- A payload is in no header. -/
theorem Places.off_header {b : Block} (hp : Places bs) (hb : b ∈ bs) {i : Nat} (hi : i < b.size) :
    ∀ c ∈ bs, OffHeader c (b.addr + header + i) := by
  intro c hc
  unfold OffHeader
  by_cases heq : b = c
  · subst heq
    exact .inr (Nat.le_add_right _ _)
  · have happart := hp.apart_of_ne hb hc heq
    unfold Block.stop at happart
    omega

/-- A payload is written to, within its block, and maybe goes by another
size. -/
theorem Good.write (hr : Regions rs) (hg : Good rs bs h (a :: live)) {b : Block} (hb : b ∈ bs)
    (hused : b.used = true) (hptr : a.ptr = b.addr + header) {mem : Mem} {f : Nat → UInt8}
    (hn : n ≤ b.size) (hout : ∀ x, x < a.ptr ∨ a.ptr + b.size ≤ x → mem x = h.mem x)
    (hin : ∀ i < n, mem (a.ptr + i) = f i) :
    Good rs bs { h with mem := mem } (⟨a.ptr, n, f⟩ :: live) := by
  have hp := hr.places hg.holds.fills
  have hlisted : Listed mem bs := by
    refine hg.holds.listed.congr fun c hc x hx => hout x ?_
    by_contra hnot
    have hoff := hp.off_header hb (by omega : x - a.ptr < b.size) c hc
    rw [← hptr, show a.ptr + (x - a.ptr) = x by omega] at hoff
    exact hx hoff
  refine ⟨{ hg.holds with listed := hlisted }, fun d hd => ?_, fun c hc hc' => ?_, hg.distinct,
    fun d hd i hi => ?_⟩
  · rcases List.mem_cons.mp hd with rfl | hd
    · exact ⟨b, hb, hused, hptr, hn⟩
    · exact hg.known d (List.mem_cons_of_mem _ hd)
  · obtain ⟨d, hd, heq⟩ := hg.owned c hc hc'
    rcases List.mem_cons.mp hd with rfl | hd
    · exact ⟨_, List.mem_cons_self, heq⟩
    · exact ⟨d, List.mem_cons_of_mem _ hd, heq⟩
  · rcases List.mem_cons.mp hd with rfl | hd'
    · exact hin i hi
    · obtain ⟨c, hc, -, hptr', hsize'⟩ := hg.known d (List.mem_cons_of_mem _ hd')
      have hne : b ≠ c := by
        rintro rfl
        have hnodup := List.nodup_cons.mp hg.distinct
        rw [hptr, ← hptr'] at hnodup
        exact hnodup.1 (List.mem_map_of_mem hd')
      have happart := hp.apart_of_ne hb hc hne
      rw [← hg.bytes d (List.mem_cons_of_mem _ hd') i hi]
      apply hout
      unfold Block.stop at happart
      omega

-- ================================================================== calls

/-- Rounded up, the request is no smaller, where it finds a block. -/
def RoundsUp (bs : List Block) (n : Nat) : Prop :=
  ∀ b ∈ bs, b.used = false → roundUp n ≤ b.size →
    n ≤ roundUp n ∧ roundUp n + header + 64 < 2 ^ 32

theorem roundUp_dvd (n : Nat) : 16 ∣ roundUp n := Nat.dvd_mul_left _ _

theorem serve_mem {b : Block} {k : Nat} (hk : k ≤ b.size) :
    ∃ d ∈ b.serve header 64 k, d.used = true ∧ d.addr = b.addr ∧ k ≤ d.size
      ∧ ∀ c ∈ b.serve header 64 k, c.used = true → c = d := by
  unfold Block.serve
  split
  · refine ⟨_, List.mem_cons_self, rfl, rfl, Nat.le_refl _, fun c hc hused => ?_⟩
    rcases List.mem_cons.mp hc with h | h
    · exact h
    · obtain rfl := List.mem_singleton.mp h
      cases hused
  · exact ⟨_, List.mem_cons_self, rfl, rfl, hk, fun c hc _ => List.mem_singleton.mp hc⟩

/-- `malloc` on the heap that it makes ready: NULL and no change, or one
more payload. -/
theorem malloc_good (hr : Regions rs) (hg : Good rs bs h.ready live) (hsafe : RoundsUp bs n)
    (hturns : bs.length < turns) :
    (malloc turns n h = some (0, h.ready) ∧ ∀ b ∈ bs, b.used = true ∨ b.size < roundUp n)
    ∨ ∃ p h' bs', malloc turns n h = some (p, h') ∧ p ≠ 0
      ∧ Good rs bs' h' (⟨p, n, fun i => h'.mem (p + i)⟩ :: live)
      ∧ bs'.length ≤ bs.length + 1 ∧ (∀ c ∈ bs, c.used = true → c ∈ bs')
      ∧ ∃ b ∈ bs, b.used = false ∧ roundUp n ≤ b.size := by
  have hp := hr.places hg.holds.fills
  rcases mallocFrom_spec hr hg.holds (roundUp_dvd n) (fun b hb hfree hle => (hsafe b hb hfree hle).2)
    hturns with ⟨hno, hres⟩ | ⟨pre, b, post, h', hbs, hfree, hle, hres, hholds, hout⟩
  · exact .inl ⟨hres, hno⟩
  · have hb : b ∈ bs := by
      rw [hbs]
      exact List.mem_append_right _ List.mem_cons_self
    have hround := (hsafe b hb hfree hle).1
    obtain ⟨d, hd, hdused, hdaddr, hdsize, honly⟩ := serve_mem hle
    have hmem : ∀ c, c.used = true → (c ∈ pre ++ (b.serve header 64 (roundUp n) ++ post) ↔ c = d ∨ c ∈ bs) := by
      intro c hused
      rw [hbs, List.mem_append, List.mem_append, List.mem_append, List.mem_cons]
      constructor
      · rintro (hc | hc | hc)
        · exact .inr (.inl hc)
        · exact .inl (honly c hc hused)
        · exact .inr (.inr (.inr hc))
      · rintro (rfl | hc | rfl | hc)
        · exact .inr (.inl hd)
        · exact .inl hc
        · rw [hfree] at hused
          cases hused
        · exact .inr (.inr hc)
    refine .inr ⟨b.addr + header, h', _, hres, by unfold header; omega, ⟨hholds, fun x hx => ?_,
      fun c hc hused => ?_, ?_, fun x hx i hi => ?_⟩, ?_, fun c hc hused => (hmem c hused).mpr (.inr hc),
      b, hb, hfree, hle⟩
    · rcases List.mem_cons.mp hx with rfl | hx
      · exact ⟨d, (hmem d hdused).mpr (.inl rfl), hdused, by rw [hdaddr], Nat.le_trans hround hdsize⟩
      · obtain ⟨c, hc, hused, hptr, hsize⟩ := hg.known x hx
        exact ⟨c, (hmem c hused).mpr (.inr hc), hused, hptr, hsize⟩
    · rcases (hmem c hused).mp hc with rfl | hc
      · exact ⟨_, List.mem_cons_self, by rw [hdaddr]⟩
      · obtain ⟨x, hx, hptr⟩ := hg.owned c hc hused
        exact ⟨x, List.mem_cons_of_mem _ hx, hptr⟩
    · refine List.nodup_cons.mpr ⟨fun hin => ?_, hg.distinct⟩
      obtain ⟨x, hx, hptr⟩ := List.mem_map.mp hin
      obtain ⟨c, hc, hused, hptr', -⟩ := hg.known x hx
      obtain rfl : c = b := hp.eq_of_addr hc hb (by dsimp only at hptr; omega)
      rw [hfree] at hused
      cases hused
    · rcases List.mem_cons.mp hx with rfl | hx
      · rfl
      · obtain ⟨c, hc, hused, hptr, hsize⟩ := hg.known x hx
        have hne : b ≠ c := by
          rintro rfl
          rw [hfree] at hused
          cases hused
        have happart := hp.apart_of_ne hb hc hne
        rw [← hg.bytes x hx i hi]
        apply hout
        unfold Block.stop at *
        omega
    · rw [hbs]
      unfold Block.serve
      split
      · simp only [List.length_append, List.length_cons, List.length_nil]
        omega
      · simp only [List.length_append, List.length_cons, List.length_nil]
        omega

/-- More turns change no result. -/
theorem malloc_more {r : Nat × Heap} (hres : malloc turns n h = some r) (k : Nat) :
    malloc (turns + k) n h = some r := mallocFrom_more hres k

theorem free_more (hres : free turns p h = some h') (k : Nat) : free (turns + k) p h = some h' := by
  unfold free at *
  split
  · next h0 =>
    rw [if_pos h0] at hres
    exact hres
  · next h0 =>
    rw [if_neg h0] at hres
    obtain ⟨m, hm, rfl⟩ := Option.map_eq_some_iff.mp hres
    exact Option.map_eq_some_iff.mpr ⟨m, mergeFrom_more hm k, rfl⟩

theorem free_good (hr : Regions rs) (hg : Good rs bs h (a :: live)) (hturns : bs.length < turns) :
    ∃ h' bs', free turns a.ptr h = some h' ∧ Good rs bs' h' live := by
  have hp := hr.places hg.holds.fills
  obtain ⟨b, hb, hused, hptr, hsize⟩ := hg.known a List.mem_cons_self
  obtain ⟨pre, post, hbs⟩ := List.append_of_mem hb
  obtain ⟨h', hres, hholds, hframe⟩ := free_spec hr (hbs ▸ hg.holds) hused (hbs ▸ hturns)
  have hmem : ∀ c, c.used = true →
      (c ∈ coalesce header (pre ++ { b with used := false } :: post) ↔ c ∈ bs ∧ c ≠ b) := by
    intro c hc
    have hnodup : b ∉ pre ∧ b ∉ post := by
      have hapart := hbs ▸ hp.apart
      obtain ⟨-, hmid, hcross⟩ := List.pairwise_append.mp hapart
      constructor
      · intro hin
        have h := hcross b hin b List.mem_cons_self
        unfold Block.stop header at h
        omega
      · intro hin
        have h := (List.pairwise_cons.mp hmid).1 b hin
        unfold Block.stop header at h
        omega
    rw [mem_coalesce _ _ _ hc, hbs, List.mem_append, List.mem_append, List.mem_cons, List.mem_cons]
    constructor
    · rintro (h | rfl | h)
      · exact ⟨.inl h, fun heq => hnodup.1 (heq ▸ h)⟩
      · cases hc
      · exact ⟨.inr (.inr h), fun heq => hnodup.2 (heq ▸ h)⟩
    · rintro ⟨h | rfl | h, hne⟩
      · exact .inl h
      · exact absurd rfl hne
      · exact .inr (.inr h)
  refine ⟨h', _, by rw [hptr]; exact hres, hholds, fun x hx => ?_, fun c hc hc' => ?_, ?_,
    fun x hx i hi => ?_⟩
  · obtain ⟨c, hc, hcused, hptr', hsize'⟩ := hg.known x (List.mem_cons_of_mem _ hx)
    refine ⟨c, (hmem c hcused).mpr ⟨hc, ?_⟩, hcused, hptr', hsize'⟩
    rintro rfl
    have hnodup := List.nodup_cons.mp hg.distinct
    rw [hptr, ← hptr'] at hnodup
    exact hnodup.1 (List.mem_map_of_mem hx)
  · obtain ⟨hc, hne⟩ := (hmem c hc').mp hc
    obtain ⟨x, hx, hptr'⟩ := hg.owned c hc hc'
    rcases List.mem_cons.mp hx with rfl | hx
    · exact absurd (hp.eq_of_addr hc hb (by omega)) hne
    · exact ⟨x, hx, hptr'⟩
  · exact (List.nodup_cons.mp hg.distinct).2
  · obtain ⟨c, hc, -, hptr', hsize'⟩ := hg.known x (List.mem_cons_of_mem _ hx)
    rw [← hg.bytes x (List.mem_cons_of_mem _ hx) i hi, hptr']
    exact hframe _ (hbs ▸ hp.off_header hc (by omega))

-- ================================================= copying and filling

theorem memcpy_out {m : Mem} {d s x : Nat} (hx : x < d ∨ d + n ≤ x) : memcpy m d s n x = m x := by
  unfold memcpy
  split
  · rw [copyBytes_out (by omega), copyWords_out (by omega)]
  · exact copyBytes_out hx

theorem memcpy_at {m : Mem} {d s i : Nat} (hapart : d + n ≤ s ∨ s + n ≤ d) (hi : i < n) :
    memcpy m d s n (d + i) = m (s + i) := by
  unfold memcpy
  split
  · by_cases hword : i < 4 * (n / 4)
    · rw [copyBytes_out (by omega), copyWords_at (by omega) hword]
    · obtain ⟨j, rfl⟩ : ∃ j, i = 4 * (n / 4) + j := ⟨i - 4 * (n / 4), by omega⟩
      rw [← Nat.add_assoc, copyBytes_at (by omega) (by omega), copyWords_out (by omega), Nat.add_assoc]
  · exact copyBytes_at hapart hi

theorem memset_out {m : Mem} {d c x : Nat} (hx : x < d ∨ d + n ≤ x) : memset m d c n x = m x := by
  unfold memset
  split
  · rw [fillBytes_out (by omega), fillWords_out (by omega)]
  · exact fillBytes_out hx

-- ============================================================= invariant

/-- No allocation was made yet, or the heap is good. -/
def Begun (rs : List Span) (h : Heap) (live : List Alloc) : Prop :=
  h.head = 0 ∧ h.regions = rs ∧ h.inUse = 0 ∧ live = [] ∨ ∃ bs, Good rs bs h live

theorem Good.ready (hr : Regions rs) (hg : Good rs bs h live) : h.ready = h := by
  have hp := hr.places hg.holds.fills
  refine if_neg ?_
  rw [hg.holds.head]
  cases bs with
  | nil => exact absurd hg.holds.fills.of_nil.2 hr.some
  | cons b bs => exact hp.headOf_pos

theorem Begun.good (hr : Regions rs) (hb : Begun rs h live) : ∃ bs, Good rs bs h.ready live := by
  rcases hb with ⟨hhead, hregions, hinUse, rfl⟩ | ⟨bs, hg⟩
  · have hready : h.ready = heapInit h := if_pos hhead
    rw [hready]
    refine ⟨fresh header rs, heapInit_spec hr hregions hinUse, ?_, fun b hb hused => ?_,
      List.nodup_nil, ?_⟩
    · exact fun a ha => absurd ha List.not_mem_nil
    · obtain ⟨r, -, rfl⟩ := List.mem_map.mp hb
      cases hused
    · exact fun a ha => absurd ha List.not_mem_nil
  · rw [hg.ready hr]
    exact ⟨bs, hg⟩

/-- With something live, the list was made. -/
theorem Begun.of_live (hr : Regions rs) (hb : Begun rs h (a :: live)) :
    ∃ bs, Good rs bs h (a :: live) ∧ h.ready = h := by
  rcases hb with ⟨-, -, -, h⟩ | ⟨bs, hg⟩
  · cases h
  · exact ⟨bs, hg, hg.ready hr⟩

/-- What may be requested of the heap is never rounded down. -/
def Allows (rs : List Span) (ok : Heap → Nat → Prop) : Prop :=
  ∀ h bs n, Holds rs bs h.ready → ok h n → ∀ b ∈ bs, b.used = false → roundUp (u32 n) ≤ b.size →
    n ≤ roundUp (u32 n) ∧ roundUp (u32 n) + header + 64 < 2 ^ 32

/-- A request that is not rounded down. -/
theorem malloc_step (hr : Regions rs) (hg : Good rs bs h.ready live)
    (hsafe : ∀ b ∈ bs, b.used = false → roundUp (u32 n) ≤ b.size →
      n ≤ roundUp (u32 n) ∧ roundUp (u32 n) + header + 64 < 2 ^ 32)
    (hturns : bs.length < turns) :
    ∃ p h' bs', malloc turns (u32 n) h = some (p, h') ∧ Good rs bs' h' (grant p n h' live)
      ∧ bs'.length ≤ bs.length + 1 ∧ (∀ c ∈ bs, c.used = true → c ∈ bs')
      ∧ (p = 0 → h' = h.ready ∧ ∀ b ∈ bs, b.used = true ∨ b.size < roundUp (u32 n)) := by
  have hrounds : RoundsUp bs (u32 n) := fun b hb hfree hle =>
    ⟨Nat.le_trans (Nat.mod_le _ _) (hsafe b hb hfree hle).1, (hsafe b hb hfree hle).2⟩
  rcases malloc_good hr hg hrounds hturns with
    ⟨hres, hno⟩ | ⟨p, h', bs', hres, hp, hg', hlen, hkept, b, hb, hfree, hle⟩
  · exact ⟨0, h.ready, bs, hres, hg, by omega, fun c hc _ => hc, fun _ => ⟨rfl, hno⟩⟩
  · have hsmall : u32 n = n := by
      have hround := (hsafe b hb hfree hle).1
      have hlt : roundUp (u32 n) < 2 ^ 32 := by
        have hwrap := (hsafe b hb hfree hle).2
        omega
      exact u32_of_lt (by omega)
    rw [hsmall] at hg'
    refine ⟨p, h', bs', hres, ?_, hlen, hkept, fun h0 => absurd h0 hp⟩
    unfold grant
    rw [if_neg hp]
    exact hg'

theorem calloc_more {size : Nat} {r : Nat × Heap} (hres : calloc turns n size h = some r) (k : Nat) :
    calloc (turns + k) n size h = some r := by
  unfold calloc at *
  obtain ⟨x, hx, rfl⟩ := Option.map_eq_some_iff.mp hres
  exact Option.map_eq_some_iff.mpr ⟨x, malloc_more hx k, rfl⟩

theorem calloc_step {size : Nat} (hr : Regions rs) (hg : Good rs bs h.ready live)
    (hsafe : ∀ b ∈ bs, b.used = false → roundUp (u32 (n * size)) ≤ b.size →
      n * size ≤ roundUp (u32 (n * size)) ∧ roundUp (u32 (n * size)) + header + 64 < 2 ^ 32)
    (hturns : bs.length < turns) :
    ∃ p h' bs', calloc turns n size h = some (p, h') ∧ Good rs bs' h' (grant p (n * size) h' live)
      ∧ (p = 0 → h' = h.ready ∧ ∀ b ∈ bs, b.used = true ∨ b.size < roundUp (u32 (n * size))) := by
  obtain ⟨p, h', bs', hres, hg', -, -, hnull⟩ := malloc_step hr hg hsafe hturns
  unfold calloc
  rw [hres, Option.map_some]
  by_cases hp : p = 0
  · subst hp
    exact ⟨0, h', bs', rfl, hg', hnull⟩
  · dsimp only
    rw [if_pos hp]
    refine ⟨p, _, bs', rfl, ?_, fun h0 => absurd h0 hp⟩
    unfold grant at *
    rw [if_neg hp] at *
    obtain ⟨b, hb, hused, hptr, hsize⟩ := hg'.known _ List.mem_cons_self
    refine hg'.write hr hb hused hptr hsize (fun x hx => memset_out ?_) fun i _ => rfl
    have hle : u32 (n * size) ≤ n * size := Nat.mod_le _ _
    dsimp only at hx hsize
    omega

/-- `realloc` of a live payload in cases. -/
theorem realloc_eq {b : Block} (hb : blockSize h.mem b.addr = b.size) (hptr : a.ptr = b.addr + header)
    (htop : b.stop header < 2 ^ 32) :
    realloc turns a.ptr n h
      = if n ≤ b.size then some (a.ptr, h)
        else (malloc turns n h).bind fun (q, h) =>
          if q ≠ 0 then
            (free turns a.ptr { h with mem := memcpy h.mem q a.ptr (blockSize h.mem b.addr) }).map
              fun h => (q, h)
          else some (q, h) := by
  have hback : sub32 (b.addr + header) header = b.addr := by
    unfold Block.stop at htop
    rw [sub32_of_le (Nat.le_add_left _ _) (by omega)]
    omega
  unfold realloc
  rw [hptr, if_neg (by unfold header; omega), hback]
  dsimp only
  rw [hb]

theorem realloc_more {r : Nat × Heap} (hres : realloc turns p n h = some r) (k : Nat) :
    realloc (turns + k) p n h = some r := by
  unfold realloc at *
  split
  · next h0 =>
    rw [if_pos h0] at hres
    exact malloc_more hres k
  · next h0 =>
    rw [if_neg h0] at hres
    dsimp only at *
    split
    · next hfits =>
      rw [if_pos hfits] at hres
      exact hres
    · next hmove =>
      rw [if_neg hmove] at hres
      obtain ⟨⟨q, h₁⟩, hq, hrest⟩ := Option.bind_eq_some_iff.mp hres
      refine Option.bind_eq_some_iff.mpr ⟨(q, h₁), malloc_more hq k, ?_⟩
      dsimp only at *
      split
      · next hne =>
        rw [if_pos hne] at hrest
        obtain ⟨h₂, hfree, rfl⟩ := Option.map_eq_some_iff.mp hrest
        exact Option.map_eq_some_iff.mpr ⟨h₂, free_more hfree k, rfl⟩
      · next hne =>
        rw [if_neg hne] at hrest
        exact hrest

theorem realloc_step (hr : Regions rs) (hg : Good rs bs h (a :: live)) (hn : n < 2 ^ 32)
    (hsafe : ∀ b ∈ bs, b.used = false → roundUp (u32 n) ≤ b.size →
      n ≤ roundUp (u32 n) ∧ roundUp (u32 n) + header + 64 < 2 ^ 32)
    (hturns : bs.length + 1 < turns) :
    ∃ q h' bs', realloc turns a.ptr n h = some (q, h')
      ∧ (q = 0 → h' = h ∧ ∀ b ∈ bs, b.used = true ∨ b.size < roundUp n)
      ∧ (q ≠ 0 → Good rs bs' h'
        (⟨q, n, fun i => if i < min a.size n then a.bytes i else h'.mem (q + i)⟩ :: live)) := by
  have hp := hr.places hg.holds.fills
  have hready := hg.ready hr
  have hsmall : u32 n = n := u32_of_lt hn
  obtain ⟨b, hb, hused, hptr, hsize⟩ := hg.known a List.mem_cons_self
  have hbounds := hp.bounds b hb
  have hbsize : blockSize h.mem b.addr = b.size := by
    obtain ⟨pre, post, hbs⟩ := List.append_of_mem hb
    exact (hbs ▸ hg.holds.listed).tail.1.size
  rw [realloc_eq hbsize hptr hbounds.2]
  by_cases hfits : n ≤ b.size
  · rw [if_pos hfits]
    refine ⟨a.ptr, h, bs, rfl, fun h0 => ?_, fun _ => ?_⟩
    · unfold header at hptr
      omega
    · -- the block stays, with another size on record
      refine hg.write hr hb hused hptr hfits (fun x _ => rfl) fun i hi => ?_
      split
      · exact hg.bytes a List.mem_cons_self i (by omega)
      · rfl
  · rw [if_neg hfits]
    obtain ⟨q, h₁, bs₁, hres, hg₁, hlen, hkept, hnull⟩ := malloc_step hr (hready.symm ▸ hg) hsafe
      (by omega : bs.length < turns)
    rw [hsmall] at hres hnull
    rw [hres, Option.bind_some]
    by_cases hq : q = 0
    · obtain ⟨rfl, hno⟩ := hnull hq
      subst hq
      exact ⟨0, _, bs, rfl, fun _ => ⟨hready, hno⟩, fun h0 => absurd rfl h0⟩
    · dsimp only
      rw [if_pos hq]
      unfold grant at hg₁
      rw [if_neg hq] at hg₁
      have hp₁ := hr.places hg₁.holds.fills
      have hb₁ := hkept b hb hused
      obtain ⟨d, hd, hdused, hdptr, hdsize⟩ := hg₁.known _ List.mem_cons_self
      have hbsize₁ : blockSize h₁.mem b.addr = b.size := by
        obtain ⟨pre, post, hbs⟩ := List.append_of_mem hb₁
        exact (hbs ▸ hg₁.holds.listed).tail.1.size
      have hne : d ≠ b := by
        rintro rfl
        have hnodup := List.nodup_cons.mp hg₁.distinct
        dsimp only at hdptr hnodup
        rw [hdptr, ← hptr] at hnodup
        exact hnodup.1 (List.mem_map_of_mem List.mem_cons_self)
      have happart := hp₁.apart_of_ne hd hb₁ hne
      dsimp only at hdptr hdsize
      unfold Block.stop at happart
      rw [hbsize₁]
      -- the copy stays inside the new payload
      have hg₂ := hg₁.write hr hd hdused hdptr hdsize
        (fun x hx => @memcpy_out b.size h₁.mem q a.ptr x (by dsimp only at hx; omega)) fun i _ => rfl
      obtain ⟨h₃, bs₃, hfree, hg₃⟩ := free_good hr (hg₂.perm (.swap _ _ _))
        (by omega : bs₁.length < turns)
      rw [hfree, Option.map_some]
      obtain ⟨d₃, hd₃, hdused₃, hdptr₃, hdsize₃⟩ := hg₃.known _ List.mem_cons_self
      refine ⟨q, h₃, bs₃, rfl, fun h0 => absurd h0 hq, fun _ => ?_⟩
      refine hg₃.write hr hd₃ hdused₃ hdptr₃ hdsize₃ (fun x _ => rfl) fun i hi => ?_
      split
      · next hi' =>
        have hkept := hg₃.bytes _ List.mem_cons_self i hi
        dsimp only at hkept ⊢
        rw [hkept, memcpy_at (by omega) (by omega)]
        exact hg₁.bytes a (List.mem_cons_of_mem _ List.mem_cons_self) i (by omega)
      · rfl

-- ==================================================================== runs

variable {ok : Heap → Nat → Prop}

/-- A call that returns does so as with all the turns that it may need. -/
theorem begun_malloc (hr : Regions rs) (hok : Allows rs ok) (hb : Begun rs h live) (hn : n < 2 ^ 32)
    (hreq : ok h n) (hres : malloc turns n h = some (p, h')) : Begun rs h' (grant p n h' live) := by
  obtain ⟨bs, hg⟩ := hb.good hr
  obtain ⟨q, h₁, bs₁, hres₁, hg₁, -⟩ := malloc_step hr hg (hok h bs n hg.holds hreq)
    (by omega : bs.length < turns + (bs.length + 1))
  rw [u32_of_lt hn, malloc_more hres] at hres₁
  obtain ⟨rfl, rfl⟩ := Prod.mk.inj (Option.some.inj hres₁)
  exact .inr ⟨bs₁, hg₁⟩

theorem begun_calloc {size : Nat} (hr : Regions rs) (hok : Allows rs ok) (hb : Begun rs h live)
    (hreq : ok h (n * size)) (hres : calloc turns n size h = some (p, h')) :
    Begun rs h' (grant p (n * size) h' live) := by
  obtain ⟨bs, hg⟩ := hb.good hr
  obtain ⟨q, h₁, bs₁, hres₁, hg₁, -⟩ := calloc_step hr hg (hok h bs _ hg.holds hreq)
    (by omega : bs.length < turns + (bs.length + 1))
  rw [calloc_more hres] at hres₁
  obtain ⟨rfl, rfl⟩ := Prod.mk.inj (Option.some.inj hres₁)
  exact .inr ⟨bs₁, hg₁⟩

theorem begun_realloc (hr : Regions rs) (hok : Allows rs ok) (hb : Begun rs h (a :: live))
    (hn : n < 2 ^ 32) (hreq : ok h n) (hres : realloc turns a.ptr n h = some (p, h')) :
    (p = 0 → h' = h) ∧ (p ≠ 0 → Begun rs h'
      (⟨p, n, fun i => if i < min a.size n then a.bytes i else h'.mem (p + i)⟩ :: live)) := by
  obtain ⟨bs, hg, hready⟩ := hb.of_live hr
  obtain ⟨q, h₁, bs₁, hres₁, hnull, hg₁⟩ := realloc_step hr hg hn
    (hok h bs n (hready.symm ▸ hg.holds) hreq) (by omega : bs.length + 1 < turns + (bs.length + 2))
  rw [realloc_more hres] at hres₁
  obtain ⟨rfl, rfl⟩ := Prod.mk.inj (Option.some.inj hres₁)
  exact ⟨fun h0 => (hnull h0).1, fun hne => .inr ⟨bs₁, hg₁ hne⟩⟩

theorem Run.begun (hr : Regions rs) (hok : Allows rs ok) (hrun : Run rs ok h live) :
    Begun rs h live := by
  induction hrun with
  | start mem => exact .inl ⟨rfl, rfl, rfl, rfl⟩
  | order _ hperm ih =>
      rcases ih with ⟨hhead, hregions, hinUse, rfl⟩ | ⟨bs, hg⟩
      · exact .inl ⟨hhead, hregions, hinUse, List.nil_perm.mp hperm⟩
      · exact .inr ⟨bs, hg.perm hperm⟩
  | malloc _ hn hreq hres ih => exact begun_malloc hr hok ih hn hreq hres
  | calloc _ hreq hres ih => exact begun_calloc hr hok ih hreq hres
  | freeNull _ hres ih =>
      obtain rfl := Option.some.inj hres
      exact ih
  | @free h a live turns h' _ hres ih =>
      obtain ⟨bs, hg, -⟩ := ih.of_live hr
      obtain ⟨h₁, bs₁, hres₁, hg₁⟩ := free_good hr hg (by omega : bs.length < turns + (bs.length + 1))
      rw [free_more hres] at hres₁
      obtain rfl := Option.some.inj hres₁
      exact .inr ⟨bs₁, hg₁⟩
  | reallocNull _ hn hreq hres ih => exact begun_malloc hr hok ih hn hreq hres
  | realloc _ hn hreq hres hne ih => exact (begun_realloc hr hok ih hn hreq hres).2 hne
  | reallocFails _ hn hreq hres ih =>
      rw [(begun_realloc hr hok ih hn hreq hres).1 rfl]
      exact ih
  | @write h a live i v _ hi ih =>
      obtain ⟨bs, hg, -⟩ := ih.of_live hr
      obtain ⟨b, hb, hused, hptr, hsize⟩ := hg.known a List.mem_cons_self
      refine .inr ⟨bs, hg.write hr hb hused hptr hsize (fun x hx => store8_of_ne (by omega))
        fun j hj => ?_⟩
      split
      · next heq => rw [heq, store8_same]
      · next hne => rw [store8_of_ne (by omega), hg.bytes a List.mem_cons_self j hj]

/-- What the heap promises: the list in memory, the partition of every
region, no free neighbours, the count of bytes in use, and of each live
payload its place and its bytes. -/
structure Sound (rs : List Span) (bs : List Block) (h : Heap) (live : List Alloc) : Prop where
  listed : h.head = headOf bs ∧ Listed h.mem bs
  partition : ∃ runs, bs = runs.flatten
    ∧ List.Forall₂ (fun r run => Tiles header r.start r.stop run) rs runs
  merged : ∀ b ∈ bs, ∀ c ∈ bs, b.stop header = c.addr → b.used = true ∨ c.used = true
  inUse : h.inUse = usedSum bs
  payload : ∀ a ∈ live, 16 ∣ a.ptr ∧ ∃ b ∈ bs, b.used = true ∧ a.ptr = b.addr + header
    ∧ a.size ≤ b.size ∧ ∃ r ∈ rs, r.start ≤ b.addr ∧ b.stop header ≤ r.stop
  apart : bs.Pairwise fun b c => b.stop header ≤ c.addr ∨ c.stop header ≤ b.addr
  distinct : (live.map Alloc.ptr).Nodup
  bytes : ∀ a ∈ live, ∀ i < a.size, h.mem (a.ptr + i) = a.bytes i
  emptied : live = [] → bs = fresh header rs

theorem Holds.region (hh : Holds rs bs h) {b : Block} (hb : b ∈ bs) :
    ∃ r ∈ rs, r.start ≤ b.addr ∧ b.stop header ≤ r.stop := by
  rcases hh.fills.inside b hb with ⟨-, h0⟩ | hin
  · unfold Block.stop header at h0
    omega
  · exact hin

/-- Blocks that touch are neighbours in the list. -/
theorem Good.touch (hr : Regions rs) (hg : Good rs bs h live) {b c : Block} (hb : b ∈ bs) (hc : c ∈ bs)
    (htouch : b.stop header = c.addr) : b.used = true ∨ c.used = true := by
  have hp := hr.places hg.holds.fills
  rcases hg.holds.fills.follows hb with (h0 | ⟨r, hr', heq⟩) | ⟨pre, d, post, hbs, heq⟩
  · unfold Block.stop header at h0
    omega
  · -- the gap behind a region
    obtain ⟨r', hr'', hlo, hhi⟩ := hg.holds.region hc
    have hsymm : Std.Symm fun r s : Span => r.stop < s.start ∨ s.stop < r.start :=
      ⟨fun _ _ h => h.symm⟩
    have hbounds := hr.bounds r hr'
    unfold Block.stop header at *
    by_cases hsame : r = r'
    · subst hsame
      omega
    · have happart := hr.apart.forall hr' hr'' hsame
      omega
  · have hd : d ∈ bs := by
      rw [hbs]
      exact List.mem_append_right _ (List.mem_cons_of_mem _ List.mem_cons_self)
    obtain rfl : d = c := hp.eq_of_addr hd hc (heq.trans htouch)
    have hchain := hbs ▸ hg.holds.merged
    exact (List.isChain_cons_cons.mp (List.isChain_append.mp hchain).2.1).1 htouch

theorem Good.sound (hr : Regions rs) (hg : Good rs bs h live) : Sound rs bs h live := by
  have hp := hr.places hg.holds.fills
  refine ⟨⟨hg.holds.head, hg.holds.listed⟩, ?_, fun b hb c hc => hg.touch hr hb hc, hg.holds.inUse,
    fun a ha => ?_, hp.apart, hg.distinct, hg.bytes, fun hnone => ?_⟩
  · obtain ⟨run, runs, hbs, hrun, hruns⟩ := hg.holds.fills.runs
    cases run with
    | nil => exact ⟨runs, hbs, hruns⟩
    | cons b run =>
        have hpos := (hp.bounds b (by rw [hbs]; exact List.mem_append_left _ List.mem_cons_self)).1
        exact absurd hrun.1 (Nat.ne_of_gt hpos)
  · obtain ⟨b, hb, hused, hptr, hsize⟩ := hg.known a ha
    have haligned := hg.holds.fills.aligned (by decide) (Nat.dvd_zero 16)
      (fun r hr' => (hr.aligned r hr').1) b hb
    refine ⟨?_, b, hb, hused, hptr, hsize, hg.holds.region hb⟩
    rw [hptr]
    exact Nat.dvd_add haligned (by decide)
  · have hfree : ∀ b ∈ bs, b.used = false := by
      intro b hb
      cases hused : b.used with
      | false => rfl
      | true =>
          obtain ⟨a, ha, -⟩ := hg.owned b hb hused
          rw [hnone] at ha
          cases ha
    rcases hg.holds.fills.fresh hg.holds.merged hfree with ⟨-, heq⟩ | ⟨b, haddr, -, -, heq⟩
    · exact heq
    · have hpos := (hp.bounds b (by rw [heq]; exact List.mem_cons_self)).1
      exact absurd haddr (Nat.ne_of_gt hpos)

/-- With enough turns every call returns. -/
structure Returns (turns : Nat) (h : Heap) (live : List Alloc) (most : Nat) : Prop where
  malloc : ∀ n ≤ most, (malloc turns n h).isSome
  calloc : ∀ n size, n * size ≤ most → (calloc turns n size h).isSome
  free : ∀ a ∈ live, (free turns a.ptr h).isSome
  realloc : ∀ a ∈ live, ∀ n ≤ most, (realloc turns a.ptr n h).isSome

theorem roundUp_ge {k : Nat} (hk : k ≤ 2 ^ 32 - 16) : k ≤ roundUp k ∧ roundUp k ≤ k + 16 := by
  unfold roundUp u32
  split
  · omega
  · omega

/-- Requests of at most half the words. -/
def moderate (_ : Heap) (n : Nat) : Prop := n ≤ 2 ^ 31

theorem allows_moderate : Allows rs moderate := by
  intro h bs n _ hn b _ _ _
  unfold moderate at hn
  rw [u32_of_lt (by omega : n < 2 ^ 32)]
  obtain ⟨hge, hle⟩ := roundUp_ge (by omega : n ≤ 2 ^ 32 - 16)
  exact ⟨hge, by unfold header; omega⟩

theorem perm_of_mem (ha : a ∈ live) : ∃ rest, live.Perm (a :: rest) := by
  obtain ⟨pre, post, rfl⟩ := List.append_of_mem ha
  exact ⟨pre ++ post, List.perm_middle⟩

/-- The heap over whole runs; before the first allocation it is the one
that allocation makes. -/
theorem heap_sound (hr : Regions rs) (hrun : Run rs moderate h live) :
    ∃ bs, Sound rs bs h.ready live
      ∧ ∀ turns, bs.length + 1 < turns → Returns turns h live (2 ^ 31) := by
  have hb := hrun.begun hr allows_moderate
  obtain ⟨bs, hg⟩ := hb.good hr
  refine ⟨bs, hg.sound hr, fun turns hturns => ⟨fun n hn => ?_, fun n size hn => ?_, fun a ha => ?_,
    fun a ha n hn => ?_⟩⟩
  · obtain ⟨p, h', bs', hres, -⟩ := malloc_step hr hg (allows_moderate h bs n hg.holds hn)
      (by omega : bs.length < turns)
    rw [u32_of_lt (by omega)] at hres
    rw [hres]
    rfl
  · obtain ⟨p, h', bs', hres, -⟩ := calloc_step hr hg (allows_moderate h bs _ hg.holds hn)
      (by omega : bs.length < turns)
    rw [hres]
    rfl
  · obtain ⟨rest, hperm⟩ := perm_of_mem ha
    obtain ⟨-, -, hready⟩ := ((hrun.order hperm).begun hr allows_moderate).of_live hr
    obtain ⟨h', bs', hres, -⟩ := free_good hr ((hready ▸ hg).perm hperm) (by omega : bs.length < turns)
    rw [hres]
    rfl
  · obtain ⟨rest, hperm⟩ := perm_of_mem ha
    obtain ⟨-, -, hready⟩ := ((hrun.order hperm).begun hr allows_moderate).of_live hr
    obtain ⟨q, h', bs', hres, -⟩ := realloc_step hr ((hready ▸ hg).perm hperm) (by omega : n < 2 ^ 32)
      (allows_moderate h bs n hg.holds hn) hturns
    rw [hres]
    rfl

/-- One region of 128 KB. -/
def oneRegion : List Span := [⟨2 ^ 31, 2 ^ 31 + 2 ^ 17⟩]

theorem oneRegion_regions : Regions oneRegion where
  some := List.cons_ne_nil _ _
  aligned := by decide
  bounds := by decide
  apart := List.pairwise_singleton _ _

/-- The heap over that region, before any call. -/
def newHeap : Heap := { mem := fun _ => 0, regions := oneRegion }

theorem newHeap_malloc : (malloc 3 100 newHeap).map Prod.fst = some (2 ^ 31 + 16) := by
  decide +kernel

theorem heap_sound_one : ∃ h a, Run oneRegion moderate h [a] ∧ a.size = 100
    ∧ ∃ bs, Sound oneRegion bs h.ready [a]
      ∧ ∀ turns, bs.length + 1 < turns → Returns turns h [a] (2 ^ 31) := by
  obtain ⟨⟨p, h⟩, hres, hp⟩ := Option.map_eq_some_iff.mp newHeap_malloc
  obtain rfl : p = 2 ^ 31 + 16 := hp
  have hrun : Run oneRegion moderate h [⟨2 ^ 31 + 16, 100, fun i => h.mem (2 ^ 31 + 16 + i)⟩] :=
    (Run.start fun _ => 0).malloc (by decide) (by decide : (100 : Nat) ≤ 2 ^ 31) hres
  exact ⟨h, _, hrun, rfl, heap_sound oneRegion_regions hrun⟩

-- ========================================================== every request

/-- The block list that is in memory. -/
def InHeap (h : Heap) (bs : List Block) : Prop :=
  h.head = headOf bs ∧ (∀ b ∈ bs, b.addr ≠ 0) ∧ Listed h.mem bs

/-- A request that rounding does not harm: it stays a word, or nothing
free is as large as what is left of it. -/
def Sized (h : Heap) (n : Nat) : Prop :=
  n ≤ 2 ^ 32 - 16
    ∨ ∀ bs, InHeap h.ready bs → ∀ b ∈ bs, b.used = false → b.size < roundUp (u32 n)

/-- What is promised of a request for `n` bytes: NULL and the heap as it
was, or that many bytes inside a region. -/
def Honours (rs : List Span) (h : Heap) (n : Nat) (res : Option (Nat × Heap)) : Prop :=
  ∃ p h', res = some (p, h')
    ∧ (p = 0 ∧ h' = h
      ∨ p ≠ 0 ∧ n ≤ blockSize h'.mem (sub32 p header) ∧ ∃ r ∈ rs, r.start ≤ p ∧ p + n ≤ r.stop)

theorem listed_unique {m : Mem} {bs' : List Block} (hhead : headOf bs = headOf bs')
    (hpos : ∀ b ∈ bs, b.addr ≠ 0) (hpos' : ∀ b ∈ bs', b.addr ≠ 0) (hl : Listed m bs)
    (hl' : Listed m bs') : bs = bs' := by
  induction bs generalizing bs' with
  | nil =>
      cases bs' with
      | nil => rfl
      | cons c bs' => exact absurd hhead.symm (hpos' c List.mem_cons_self)
  | cons b bs ih =>
      cases bs' with
      | nil => exact absurd hhead (hpos b List.mem_cons_self)
      | cons c bs' =>
          have haddr : b.addr = c.addr := hhead
          have hsize := hl.1.size
          have hused := hl.1.used
          have hnext := hl.1.next
          rw [haddr] at hsize hused hnext
          rw [hl'.1.size] at hsize
          rw [hl'.1.used] at hused
          rw [hl'.1.next] at hnext
          have hbc : b = c := by
            obtain ⟨addr, size, used⟩ := b
            obtain ⟨addr', size', used'⟩ := c
            obtain rfl : addr = addr' := haddr
            obtain rfl : size' = size := hsize
            have hbool : used' = used := by
              cases used with
              | true =>
                  cases used' with
                  | true => rfl
                  | false => cases hused
              | false =>
                  cases used' with
                  | true => cases hused
                  | false => rfl
            rw [hbool]
          rw [hbc, ih hnext.symm (fun x hx => hpos x (List.mem_cons_of_mem _ hx))
            (fun x hx => hpos' x (List.mem_cons_of_mem _ hx)) hl.2 hl'.2]

theorem sized_iff (hr : Regions rs) (hh : Holds rs bs h.ready) :
    Sized h n ↔ n ≤ 2 ^ 32 - 16 ∨ ∀ b ∈ bs, b.used = false → b.size < roundUp (u32 n) := by
  have hpos : ∀ b ∈ bs, b.addr ≠ 0 := fun b hb =>
    Nat.ne_of_gt ((hr.places hh.fills).bounds b hb).1
  unfold Sized
  refine or_congr_right ⟨fun h => h bs ⟨hh.head, hpos, hh.listed⟩, fun h bs' hbs' => ?_⟩
  obtain rfl := listed_unique (hh.head.symm.trans hbs'.1) hpos hbs'.2.1 hh.listed hbs'.2.2
  exact h

/-- The regions lie in the upper half of the address space, as all RAM
that the SDK uses. -/
theorem Holds.size_lt (hr : Regions rs) (hlow : ∀ r ∈ rs, 2 ^ 31 ≤ r.start) (hh : Holds rs bs h)
    {b : Block} (hb : b ∈ bs) : b.size + header < 2 ^ 31 := by
  obtain ⟨r, hr', hlo, hhi⟩ := hh.region hb
  have hstart := hlow r hr'
  have hstop := (hr.bounds r hr').2.2
  unfold Block.stop at hhi
  omega

theorem allows_sized (hr : Regions rs) (hlow : ∀ r ∈ rs, 2 ^ 31 ≤ r.start) : Allows rs Sized := by
  intro h bs n hh hok b hb hfree hle
  have hsize := hh.size_lt hr hlow hb
  rcases (sized_iff hr hh).mp hok with hn | hno
  · rw [u32_of_lt (by omega : n < 2 ^ 32)] at hle ⊢
    exact ⟨(roundUp_ge hn).1, by omega⟩
  · exact absurd hle (Nat.not_le.mpr (hno b hb hfree))

/-- Where a free block is as large as what is left of the request, NULL
is not the answer. -/
theorem malloc_some (hr : Regions rs) (hlow : ∀ r ∈ rs, 2 ^ 31 ≤ r.start) (hh : Holds rs bs h.ready)
    {b : Block} (hb : b ∈ bs) (hfree : b.used = false) (hle : roundUp n ≤ b.size)
    (hturns : bs.length < turns) : ∃ p h', malloc turns n h = some (p, h') ∧ p ≠ 0 := by
  have hwrap : ∀ c ∈ bs, c.used = false → roundUp n ≤ c.size → roundUp n + header + 64 < 2 ^ 32 := by
    intro c hc _ hle
    have hsize := hh.size_lt hr hlow hc
    omega
  rcases mallocFrom_spec hr hh (roundUp_dvd n) hwrap hturns with
    ⟨hno, -⟩ | ⟨pre, c, post, h', -, -, -, hres, -⟩
  · rcases hno b hb with hused | hlt
    · rw [hfree] at hused
      cases hused
    · exact absurd hle (Nat.not_le.mpr hlt)
  · exact ⟨c.addr + header, h', hres, by unfold header; omega⟩

/-- Past the end of the word only NULL is right. -/
theorem Honours.null (hr : Regions rs) {res : Option (Nat × Heap)} (hres : Honours rs h n res)
    (hn : ¬ n ≤ 2 ^ 32 - 16) : ∃ h', res = some (0, h') := by
  obtain ⟨p, h', heq, ⟨rfl, -⟩ | ⟨hp, -, r, hr', -, hstop⟩⟩ := hres
  · exact ⟨h', heq⟩
  · have hbound := (hr.bounds r hr').2.2
    have haligned := (hr.aligned r hr').2
    omega

/-- A payload of the heap is as large as it should be. -/
theorem Good.honours (hr : Regions rs) (hg : Good rs bs h (a :: live)) (h₀ : Heap) :
    Honours rs h₀ a.size (some (a.ptr, h)) := by
  obtain ⟨b, hb, -, hptr, hsize⟩ := hg.known a List.mem_cons_self
  obtain ⟨r, hr', hlo, hhi⟩ := hg.holds.region hb
  have htop := ((hr.places hg.holds.fills).bounds b hb).2
  have hback : sub32 a.ptr header = b.addr := by
    unfold Block.stop at htop
    rw [hptr, sub32_of_le (Nat.le_add_left _ _) (by omega)]
    omega
  have hbsize : blockSize h.mem b.addr = b.size := by
    obtain ⟨pre, post, hbs⟩ := List.append_of_mem hb
    exact (hbs ▸ hg.holds.listed).tail.1.size
  refine ⟨a.ptr, h, rfl, .inr ⟨by unfold header at hptr; omega, ?_, r, hr', by omega, ?_⟩⟩
  · rw [hback, hbsize]
    exact hsize
  · unfold Block.stop at hhi
    omega

/-- A free block as large as what is left of a request that is no word. -/
theorem not_sized (hr : Regions rs) (hh : Holds rs bs h.ready) (hn : ¬ Sized h n) :
    ¬ n ≤ 2 ^ 32 - 16 ∧ ∃ b ∈ bs, b.used = false ∧ roundUp (u32 n) ≤ b.size := by
  rw [sized_iff hr hh, not_or] at hn
  obtain ⟨hlarge, hfits⟩ := hn
  refine ⟨hlarge, ?_⟩
  by_contra hnone
  refine hfits fun b hb hfree => ?_
  by_contra hle
  exact hnone ⟨b, hb, hfree, Nat.not_lt.mp hle⟩

theorem malloc_honours (hr : Regions rs) (hlow : ∀ r ∈ rs, 2 ^ 31 ≤ r.start)
    (hg : Good rs bs h.ready live) (hturns : bs.length < turns) (hn : n < 2 ^ 32) :
    Honours rs h.ready n (malloc turns n h) ↔ Sized h n := by
  constructor
  · intro hres
    by_contra hnot
    obtain ⟨hlarge, b, hb, hfree, hle⟩ := not_sized hr hg.holds hnot
    rw [u32_of_lt hn] at hle
    obtain ⟨h', hnull⟩ := hres.null hr hlarge
    obtain ⟨p, h'', hsome, hp⟩ := malloc_some hr hlow hg.holds hb hfree hle hturns
    rw [hnull] at hsome
    exact hp (congrArg Prod.fst (Option.some.inj hsome)).symm
  · intro hok
    obtain ⟨p, h', bs', hres, hg', -, -, hnull⟩ :=
      malloc_step hr hg (allows_sized hr hlow h bs n hg.holds hok) hturns
    rw [u32_of_lt hn] at hres
    rw [hres]
    by_cases hp : p = 0
    · exact ⟨p, h', rfl, .inl ⟨hp, (hnull hp).1⟩⟩
    · unfold grant at hg'
      rw [if_neg hp] at hg'
      exact hg'.honours hr h.ready

theorem calloc_honours {size : Nat} (hr : Regions rs) (hlow : ∀ r ∈ rs, 2 ^ 31 ≤ r.start)
    (hg : Good rs bs h.ready live) (hturns : bs.length < turns) :
    Honours rs h.ready (n * size) (calloc turns n size h) ↔ Sized h (n * size) := by
  constructor
  · intro hres
    by_contra hnot
    obtain ⟨hlarge, b, hb, hfree, hle⟩ := not_sized hr hg.holds hnot
    obtain ⟨h', hnull⟩ := hres.null hr hlarge
    obtain ⟨p, h'', hsome, hp⟩ := malloc_some hr hlow hg.holds hb hfree hle hturns
    unfold calloc at hnull
    rw [hsome, Option.map_some] at hnull
    dsimp only at hnull
    rw [if_pos hp] at hnull
    exact hp (congrArg Prod.fst (Option.some.inj hnull))
  · intro hok
    obtain ⟨p, h', bs', hres, hg', hnull⟩ :=
      calloc_step hr hg (allows_sized hr hlow h bs _ hg.holds hok) hturns
    rw [hres]
    by_cases hp : p = 0
    · exact ⟨p, h', rfl, .inl ⟨hp, (hnull hp).1⟩⟩
    · unfold grant at hg'
      rw [if_neg hp] at hg'
      exact hg'.honours hr h.ready

theorem realloc_honours (hr : Regions rs) (hlow : ∀ r ∈ rs, 2 ^ 31 ≤ r.start)
    (hg : Good rs bs h (a :: live)) (hturns : bs.length + 1 < turns) (hn : n < 2 ^ 32) :
    Honours rs h n (realloc turns a.ptr n h) ↔ Sized h n := by
  have hready := hg.ready hr
  have hh : Holds rs bs h.ready := hready.symm ▸ hg.holds
  constructor
  · intro hres
    by_contra hnot
    obtain ⟨hlarge, b, hb, hfree, hle⟩ := not_sized hr hh hnot
    rw [u32_of_lt hn] at hle
    obtain ⟨h', hnull⟩ := hres.null hr hlarge
    obtain ⟨q, h₁, hsome, hq⟩ := malloc_some hr hlow hh hb hfree hle (by omega : bs.length < turns)
    obtain ⟨c, hc, -, hptr, -⟩ := hg.known a List.mem_cons_self
    have hcsize : blockSize h.mem c.addr = c.size := by
      obtain ⟨pre, post, hbs⟩ := List.append_of_mem hc
      exact (hbs ▸ hg.holds.listed).tail.1.size
    have hsmall := hg.holds.size_lt hr hlow hc
    rw [realloc_eq hcsize hptr ((hr.places hg.holds.fills).bounds c hc).2, if_neg (by omega), hsome,
      Option.bind_some] at hnull
    dsimp only at hnull
    rw [if_pos hq] at hnull
    obtain ⟨h₂, -, heq⟩ := Option.map_eq_some_iff.mp hnull
    exact hq (congrArg Prod.fst heq)
  · intro hok
    obtain ⟨q, h', bs', hres, hnull, hg'⟩ :=
      realloc_step hr hg hn (allows_sized hr hlow h bs n hh hok) hturns
    rw [hres]
    by_cases hq : q = 0
    · exact ⟨q, h', rfl, .inl ⟨hq, (hnull hq).1⟩⟩
    · exact (hg' hq).honours hr h

/-- In every run of such requests the heap is sound, and of the next
request, whatever it is, the promise is kept just if it is such a one. -/
theorem allocation_sizes (hr : Regions rs) (hlow : ∀ r ∈ rs, 2 ^ 31 ≤ r.start)
    (hrun : Run rs Sized h live) :
    ∃ bs, Sound rs bs h.ready live ∧ ∀ turns, bs.length + 1 < turns →
      (∀ n < 2 ^ 32, Honours rs h.ready n (malloc turns n h) ↔ Sized h n)
      ∧ (∀ n < 2 ^ 32, ∀ size < 2 ^ 32,
        Honours rs h.ready (n * size) (calloc turns n size h) ↔ Sized h (n * size))
      ∧ (∀ a ∈ live, ∀ n < 2 ^ 32, Honours rs h.ready n (realloc turns a.ptr n h) ↔ Sized h n) := by
  have hok := allows_sized hr hlow
  obtain ⟨bs, hg⟩ := (hrun.begun hr hok).good hr
  refine ⟨bs, hg.sound hr, fun turns hturns => ⟨fun n hn => ?_, fun n _ size _ => ?_,
    fun a ha n hn => ?_⟩⟩
  · exact malloc_honours hr hlow hg (by omega) hn
  · exact calloc_honours hr hlow hg (by omega)
  · obtain ⟨rest, hperm⟩ := perm_of_mem ha
    obtain ⟨-, -, hready⟩ := ((hrun.order hperm).begun hr hok).of_live hr
    rw [hready] at hg ⊢
    exact realloc_honours hr hlow (hg.perm hperm) hturns hn

theorem oneRegion_low : ∀ r ∈ oneRegion, 2 ^ 31 ≤ r.start := by decide

theorem allocation_sizes_new :
    ∃ bs, Sound oneRegion bs newHeap.ready [] ∧ ∀ turns, bs.length + 1 < turns →
      (∀ n < 2 ^ 32, Honours oneRegion newHeap.ready n (malloc turns n newHeap) ↔ Sized newHeap n)
      ∧ (∀ n < 2 ^ 32, ∀ size < 2 ^ 32,
        Honours oneRegion newHeap.ready (n * size) (calloc turns n size newHeap)
          ↔ Sized newHeap (n * size))
      ∧ (∀ a ∈ ([] : List Alloc), ∀ n < 2 ^ 32,
        Honours oneRegion newHeap.ready n (realloc turns a.ptr n newHeap) ↔ Sized newHeap n) :=
  allocation_sizes oneRegion_regions oneRegion_low (.start _)

/-- 8 bytes short of a whole word: the payload that comes back is empty. -/
theorem allocation_wraps :
    Run oneRegion Sized newHeap [] ∧ (malloc 3 0xfffffff8 newHeap).map Prod.fst = some (2 ^ 31 + 16)
      ∧ ¬ Honours oneRegion newHeap.ready 0xfffffff8 (malloc 3 0xfffffff8 newHeap) := by
  have hres : (malloc 3 0xfffffff8 newHeap).map Prod.fst = some (2 ^ 31 + 16) := by decide +kernel
  refine ⟨.start _, hres, fun hnot => ?_⟩
  obtain ⟨h', hnull⟩ := hnot.null oneRegion_regions (by decide)
  rw [hnull] at hres
  cases hres

end Ncmips.Libc
