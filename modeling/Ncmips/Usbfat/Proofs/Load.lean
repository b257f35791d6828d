/-
Loading a chunk of a file.

What `ufs_load` leaves alone, and that a chunk which was loaded holds the
file's position, unless the 32-bit count of sectors up to the end of the
file came out as 0.
-/
import Ncmips.Usbfat.Proofs.Scan

namespace Ncmips.Usbfat

variable {disk : Disk} {s s' : Fs}

-- ============================================================== the cluster

/-- The handle's place in the chain, and that a handle at its start is at
the first cluster. -/
def Ufile.Home (f : Ufile) : Prop := f.clusIdx = 0 → f.clus = f.first

/-- Only the place in the chain differs. -/
structure Ufile.Moved (f f' : Ufile) : Prop where
  size : f'.size = f.size
  pos : f'.pos = f.pos
  first : f'.first = f.first
  cstart : f'.cstart = f.cstart
  clen : f'.clen = f.clen
  cbuf : f'.cbuf = f.cbuf

theorem Ufile.Moved.refl (f : Ufile) : f.Moved f := ⟨rfl, rfl, rfl, rfl, rfl, rfl⟩

theorem Ufile.Moved.trans {f f' f'' : Ufile} (h : f.Moved f') (h' : f'.Moved f'') : f.Moved f'' :=
  ⟨h'.size.trans h.size, h'.pos.trans h.pos, h'.first.trans h.first, h'.cstart.trans h.cstart,
    h'.clen.trans h.clen, h'.cbuf.trans h.cbuf⟩

/-- What holds after a part of `ufs_load`. -/
structure Moves (f f' : Ufile) (s s' : Fs) (disk : Disk) : Prop where
  moved : f.Moved f'
  home : f.Home → f'.Home
  stays : s.Stays s' disk

theorem skip_moves (h : s.Steady disk) (n : Nat) (f : Ufile) :
    Moves f (onDisk disk (skipClusters n f s)).2.1 s (onDisk disk (skipClusters n f s)).2.2 disk := by
  induction n generalizing f s with
  | zero => exact ⟨.refl f, id, h.stays⟩
  | succ n ih =>
      have hstays := fatNext_stays h f.clus
      have hmoved (c : Nat) : f.Moved { f with clus := c, clusIdx := f.clusIdx + 1 } :=
        ⟨rfl, rfl, rfl, rfl, rfl, rfl⟩
      have hhome (c : Nat) : Ufile.Home { f with clus := c, clusIdx := f.clusIdx + 1 } :=
        fun h => absurd h (Nat.succ_ne_zero _)
      unfold skipClusters
      rw [onDisk_bind]
      generalize onDisk disk (ufsFatNext s f.clus) = q at hstays
      obtain ⟨c, s'⟩ := q
      dsimp only at hstays ⊢
      split
      · exact ⟨hmoved c, fun _ => hhome c, hstays⟩
      · have hrest := ih hstays.steady { f with clus := c, clusIdx := f.clusIdx + 1 }
        exact ⟨(hmoved c).trans hrest.moved, fun _ => hrest.home (hhome c),
          hstays.trans hrest.stays⟩

theorem loadCluster_moves (h : s.Steady disk) (f : Ufile) :
    Moves f (onDisk disk (loadCluster f s)).2.1 s (onDisk disk (loadCluster f s)).2.2 disk := by
  -- back to the start of the chain, for a place before
  have hback : ∀ {b : Prop} [Decidable b],
      f.Moved (if b then { f with clus := f.first, clusIdx := 0 } else f)
        ∧ (f.Home → Ufile.Home (if b then { f with clus := f.first, clusIdx := 0 } else f)) := by
    intro b _
    split
    · exact ⟨⟨rfl, rfl, rfl, rfl, rfl, rfl⟩, fun _ _ => rfl⟩
    · exact ⟨.refl f, id⟩
  unfold loadCluster
  dsimp only
  obtain ⟨hmoved, hhome⟩ := @hback (f.pos / s.geo.clusBytes < f.clusIdx) _
  generalize (if f.pos / s.geo.clusBytes < f.clusIdx then
    { f with clus := f.first, clusIdx := 0 } else f) = f₀ at hmoved hhome ⊢
  have hskip := skip_moves h (f.pos / s.geo.clusBytes - f₀.clusIdx) f₀
  rw [onDisk_bind]
  generalize onDisk disk (skipClusters (f.pos / s.geo.clusBytes - f₀.clusIdx) f₀ s) = q at hskip
  obtain ⟨ok, f', s'⟩ := q
  cases ok with
  | true => exact ⟨hmoved.trans hskip.moved, fun h => hskip.home (hhome h), hskip.stays⟩
  | false => exact ⟨hmoved.trans hskip.moved, fun h => hskip.home (hhome h), hskip.stays⟩

theorem merge_stays (h : s.Steady disk) (turns c count : Nat) :
    s.Stays (onDisk disk (mergeClusters turns c count s)).2 disk
      ∧ count ≤ (onDisk disk (mergeClusters turns c count s)).1 := by
  induction turns generalizing s c count with
  | zero => exact ⟨h.stays, le_refl count⟩
  | succ turns ih =>
      have hstays := fatNext_stays h c
      unfold mergeClusters
      by_cases hfull : count < chunkSectors
      · rw [if_pos hfull, onDisk_bind]
        generalize onDisk disk (ufsFatNext s c) = q at hstays
        obtain ⟨next, s'⟩ := q
        dsimp only at hstays ⊢
        split
        · exact ⟨hstays, le_refl count⟩
        · obtain ⟨hrest, hcount⟩ := ih hstays.steady (u32 (c + 1)) (count + s'.geo.spc)
          exact ⟨hstays.trans hrest, by omega⟩
      · rw [if_neg hfull]
        exact ⟨h.stays, le_refl count⟩

/-- The merging needs no more turns than a full buffer has sectors. -/
theorem merge_turns (hspc : 0 < s.geo.spc) (h : s.Steady disk) {turns c count : Nat}
    (henough : chunkSectors ≤ count + turns) (more : Nat) :
    onDisk disk (mergeClusters (turns + more) c count s)
      = onDisk disk (mergeClusters turns c count s) := by
  induction turns generalizing s c count with
  | zero =>
      cases more with
      | zero => rfl
      | succ more =>
          rw [Nat.zero_add]
          unfold mergeClusters
          rw [if_neg (by omega)]
  | succ turns ih =>
      rw [Nat.succ_add]
      unfold mergeClusters
      by_cases hfull : count < chunkSectors
      · have hstays := fatNext_stays h c
        rw [if_pos hfull, if_pos hfull, onDisk_bind, onDisk_bind]
        generalize onDisk disk (ufsFatNext s c) = q at hstays
        obtain ⟨next, s'⟩ := q
        dsimp only at hstays ⊢
        split
        · rfl
        · have hspc' : 0 < s'.geo.spc := by rw [hstays.geo]; exact hspc
          exact ih hspc' hstays.steady (by omega)
      · rw [if_neg hfull, if_neg hfull]

-- ================================================================ the chunk

/-- What a boot sector that is accepted says of clusters. -/
structure Geo.Boot (g : Geo) : Prop where
  spc : 0 < g.spc
  clusBytes : g.clusBytes = g.spc * ufsSector

/-- The sectors that a load reads: what is merged, at most a full buffer and
what the file has left. -/
def Ufile.chunk (f : Ufile) (merged : Nat) : Nat :=
  let count := if merged > chunkSectors then chunkSectors else merged
  if count > f.need then f.need else count

/-- `ufs_load` from the handle's cluster on. -/
def loadChunk (f : Ufile) (secIn : Nat) (s : Fs) : Io (Bool × Ufile × Fs) := do
  let (count, s) ← mergeClusters chunkSectors f.clus (s.geo.spc - secIn) s
  match ← ufsSectors s (u32 (ufsClusSector s.geo f.clus + secIn)) (f.chunk count) with
  | (none, s) => pure (false, f, s)
  | (some cbuf, s) =>
      pure (true, { f with cbuf, cstart := f.sectorPos, clen := f.chunk count * ufsSector }, s)

theorem onDisk_load (disk : Disk) (f : Ufile) (s : Fs) :
    onDisk disk (ufsLoad f s)
      = if (onDisk disk (loadCluster f s)).1 then
          onDisk disk (loadChunk (onDisk disk (loadCluster f s)).2.1
            (f.pos % s.geo.clusBytes / ufsSector) (onDisk disk (loadCluster f s)).2.2)
        else (false, (onDisk disk (loadCluster f s)).2) := by
  unfold ufsLoad
  dsimp only
  rw [onDisk_bind]
  generalize onDisk disk (loadCluster f s) = q
  obtain ⟨ok, f₁, s₁⟩ := q
  cases ok with
  | false => rfl
  | true => rfl

theorem onDisk_chunk (disk : Disk) (f : Ufile) (secIn : Nat) (s : Fs) {count : Nat}
    (hmerge : onDisk disk (mergeClusters chunkSectors f.clus (s.geo.spc - secIn) s) = (count, s')) :
    onDisk disk (loadChunk f secIn s)
      = match onDisk disk (ufsSectors s' (u32 (ufsClusSector s'.geo f.clus + secIn)) (f.chunk count)) with
        | (none, s) => (false, f, s)
        | (some cbuf, s) =>
            (true, { f with cbuf, cstart := f.sectorPos, clen := f.chunk count * ufsSector }, s) := by
  unfold loadChunk
  rw [onDisk_bind, hmerge, onDisk_bind]
  generalize onDisk disk (ufsSectors s' (u32 (ufsClusSector s'.geo f.clus + secIn))
    (f.chunk count)) = q
  obtain ⟨data, s₁⟩ := q
  cases data with
  | none => rfl
  | some cbuf => rfl

/-- What holds after `ufs_load`: `ok` if it returned 0. -/
structure Loads (f f' : Ufile) (s s' : Fs) (ok : Bool) (disk : Disk) : Prop where
  size : f'.size = f.size
  pos : f'.pos = f.pos
  first : f'.first = f.first
  home : f.Home → f'.Home
  stays : s.Stays s' disk
  there : ok = true → s'.lost = false
  start : ok = true → f'.cstart = f.sectorPos
  chunk : ok = true → ∃ count, f'.clen = count * ufsSector ∧ count ≤ f.need
    ∧ count ≤ chunkSectors ∧ (count = 0 → f.need = 0)

theorem chunk_spec (f : Ufile) {merged : Nat} (h : 0 < merged) :
    f.chunk merged ≤ f.need ∧ f.chunk merged ≤ chunkSectors ∧ (f.chunk merged = 0 → f.need = 0) := by
  unfold Ufile.chunk chunkSectors
  dsimp only
  refine ⟨?_, ?_, fun h0 => ?_⟩
  · split_ifs <;> omega
  · split_ifs <;> omega
  · split_ifs at h0 <;> omega

theorem load_spec (hb : s.geo.Boot) (h : s.Steady disk) (f : Ufile) :
    Loads f (onDisk disk (ufsLoad f s)).2.1 s (onDisk disk (ufsLoad f s)).2.2
      (onDisk disk (ufsLoad f s)).1 disk := by
  have hsec : 0 < s.geo.spc - f.pos % s.geo.clusBytes / ufsSector := by
    have hlt : f.pos % s.geo.clusBytes / ufsSector < s.geo.spc := by
      rw [hb.clusBytes, Nat.div_lt_iff_lt_mul (by decide)]
      exact Nat.mod_lt _ (Nat.mul_pos hb.spc (by decide))
    omega
  have hclus := loadCluster_moves h f
  rw [onDisk_load]
  generalize onDisk disk (loadCluster f s) = q at hclus
  obtain ⟨ok, f₁, s₁⟩ := q
  obtain ⟨hmoved, hhome, hstays⟩ := hclus
  dsimp only at hmoved hhome hstays ⊢
  cases ok with
  | false =>
      exact ⟨hmoved.size, hmoved.pos, hmoved.first, hhome, hstays, (fun h => nomatch h),
        (fun h => nomatch h), (fun h => nomatch h)⟩
  | true =>
      rw [if_pos rfl]
      have hneed : f₁.need = f.need := by
        unfold Ufile.need Ufile.sectorPos
        rw [hmoved.size, hmoved.pos]
      obtain ⟨hmerge, hcount⟩ := merge_stays hstays.steady chunkSectors f₁.clus
        (s₁.geo.spc - f.pos % s.geo.clusBytes / ufsSector)
      obtain ⟨count, s₂, hq⟩ : ∃ count s₂, onDisk disk (mergeClusters chunkSectors f₁.clus
          (s₁.geo.spc - f.pos % s.geo.clusBytes / ufsSector) s₁) = (count, s₂) := ⟨_, _, rfl⟩
      rw [onDisk_chunk disk f₁ _ s₁ hq]
      rw [hq] at hmerge hcount
      rw [hstays.geo] at hcount
      dsimp only at hmerge hcount
      have hsectors := sectors_stays hmerge.steady
        (u32 (ufsClusSector s₂.geo f₁.clus + f.pos % s.geo.clusBytes / ufsSector)) (f₁.chunk count)
      generalize hread : onDisk disk (ufsSectors s₂ (u32 (ufsClusSector s₂.geo f₁.clus
        + f.pos % s.geo.clusBytes / ufsSector)) (f₁.chunk count)) = q at hsectors
      obtain ⟨data, s₃⟩ := q
      have hall := hstays.trans (hmerge.trans hsectors)
      cases data with
      | none =>
          exact ⟨hmoved.size, hmoved.pos, hmoved.first, hhome, hall, (fun h => nomatch h),
            (fun h => nomatch h), (fun h => nomatch h)⟩
      | some cbuf =>
          obtain ⟨hle, hmax, hzero⟩ := chunk_spec f₁ (lt_of_lt_of_le hsec hcount)
          rw [hneed] at hle hzero
          refine ⟨hmoved.size, hmoved.pos, hmoved.first, hhome, hall,
            fun _ => sectors_there hread, fun _ => ?_, fun _ => ⟨f₁.chunk count, rfl, hle, hmax, hzero⟩⟩
          unfold Ufile.sectorPos
          rw [← hmoved.pos]

-- ============================================================= the read loop

/-- The count of sectors left in the file is 0 only by overflow. -/
theorem need_eq_zero {f : Ufile} (hpos : f.pos < f.size) (hsize : f.size < 2 ^ 32) :
    f.need = 0 ↔ f.pos < ufsSector ∧ 2 ^ 32 - ufsSector < f.size := by
  unfold Ufile.need Ufile.sectorPos sub32 u32 ufsSector
  omega

/-- The bytes that the buffer has for the position. -/
def Ufile.ahead (f : Ufile) : Nat := sub32 (u32 (f.cstart + f.clen)) f.pos

theorem takeBuf_eq (f : Ufile) (want : Nat) :
    (f.takeBuf want).1.length = min f.ahead want
      ∧ (f.takeBuf want).2 = { f with pos := u32 (f.pos + min f.ahead want) } := by
  unfold Ufile.takeBuf Ufile.ahead
  dsimp only
  by_cases hwant : sub32 (u32 (f.cstart + f.clen)) f.pos > want
  · rw [if_pos hwant, min_eq_right (by omega)]
    simp
  · rw [if_neg hwant, min_eq_left (by omega)]
    simp

theorem ahead_of_inside {f : Ufile} (h : f.outside = false) : 0 < f.ahead := by
  unfold Ufile.outside at h
  rw [decide_eq_false_iff_not] at h
  unfold Ufile.ahead sub32 u32
  unfold u32 at h
  omega

theorem ahead_of_load {f f' : Ufile} {ok : Bool} (h : Loads f f' s s' ok disk) (hok : ok = true)
    (hpos : f.pos < f.size) (hsize : f.size < 2 ^ 32) (hprogress : f.pos ≠ 0 ∨ f.need ≠ 0) :
    0 < f'.ahead := by
  obtain ⟨count, hclen, hneed, hmax, hzero⟩ := h.chunk hok
  unfold Ufile.ahead
  rw [h.start hok, hclen, h.pos]
  unfold Ufile.need Ufile.sectorPos sub32 u32 at *
  unfold ufsSector chunkSectors at *
  omega

/-- The chunk for the position: the buffer's, or a load. -/
def fetch (f : Ufile) (s : Fs) : Io (Bool × Ufile × Fs) :=
  if f.outside then ufsLoad f s else pure (true, f, s)

theorem readLoop_succ {len turns : Nat} {dst : List UInt8} {f : Ufile} (hlen : dst.length < len) :
    onDisk disk (readLoop len (turns + 1) dst f s)
      = if (onDisk disk (fetch f s)).1 then
          onDisk disk (readLoop len turns
            (dst ++ ((onDisk disk (fetch f s)).2.1.takeBuf (len - dst.length)).1)
            ((onDisk disk (fetch f s)).2.1.takeBuf (len - dst.length)).2
            (onDisk disk (fetch f s)).2.2)
        else some (dst, (onDisk disk (fetch f s)).2) := by
  unfold fetch
  rw [readLoop, if_pos hlen]
  cases f.outside with
  | false =>
      simp only [Bool.false_eq_true, if_false, onDisk_bind, onDisk_pure, Bool.not_true, if_true]
  | true =>
      simp only [if_true, onDisk_bind]
      cases (onDisk disk (ufsLoad f s)).1 with
      | false => rfl
      | true => rfl

/-- Not the position whose load comes out empty. -/
def Progress (disk : Disk) (s : Fs) (f : Ufile) : Prop :=
  f.pos ≠ 0 ∨ f.size ≤ 2 ^ 32 - ufsSector ∨ f.outside = false
    ∨ (onDisk disk (ufsLoad f s)).1 = false

/-- A chunk that is there has bytes for the position. -/
theorem fetch_progress (hb : s.geo.Boot) (h : s.Steady disk) {f : Ufile}
    (hpos : f.pos < f.size) (hsize : f.size < 2 ^ 32) (hprogress : Progress disk s f) :
    s.Stays (onDisk disk (fetch f s)).2.2 disk ∧ (onDisk disk (fetch f s)).2.1.size = f.size
      ∧ (onDisk disk (fetch f s)).2.1.pos = f.pos
      ∧ ((onDisk disk (fetch f s)).1 = true → 0 < (onDisk disk (fetch f s)).2.1.ahead) := by
  unfold fetch
  cases hout : f.outside with
  | false => exact ⟨h.stays, rfl, rfl, fun _ => ahead_of_inside hout⟩
  | true =>
      have hspec := load_spec hb h f
      refine ⟨hspec.stays, hspec.size, hspec.pos, fun hok => ?_⟩
      apply ahead_of_load hspec hok hpos hsize
      rcases hprogress with hp | hp | hin | hfail
      · exact .inl hp
      · right
        rw [Ne, need_eq_zero hpos hsize]
        omega
      · rw [hout] at hin
        exact nomatch hin
      · rw [if_pos rfl, hfail] at hok
        exact nomatch hok

/-- The loop ends from a position that a load makes progress from; those
after it are. -/
theorem readLoop_ends (hb : s.geo.Boot) (h : s.Steady disk) {len : Nat}
    {dst : List UInt8} {f : Ufile} (hsize : f.size < 2 ^ 32)
    (hroom : f.pos + (len - dst.length) ≤ f.size) (hprogress : Progress disk s f) :
    ∃ turns r, onDisk disk (readLoop len turns dst f s) = some r := by
  induction hmeasure : len - dst.length using Nat.strong_induction_on generalizing dst f s with
  | _ n ih =>
      by_cases hlen : dst.length < len
      · have hpos : f.pos < f.size := by omega
        obtain ⟨hstays, hsize', hpos', hahead⟩ := fetch_progress hb h hpos hsize hprogress
        generalize hfetch : onDisk disk (fetch f s) = q at hstays hsize' hpos' hahead
        obtain ⟨ok, f', s'⟩ := q
        dsimp only at hstays hsize' hpos' hahead
        cases ok with
        | false => exact ⟨1, (dst, f', s'), by rw [readLoop_succ hlen, hfetch]; rfl⟩
        | true =>
            obtain ⟨htake, hrest⟩ := takeBuf_eq f' (len - dst.length)
            have hlen' : (dst ++ (f'.takeBuf (len - dst.length)).1).length
                = dst.length + min f'.ahead (len - dst.length) := by
              rw [List.length_append, htake]
            have hmove : (f'.takeBuf (len - dst.length)).2.pos
                = f.pos + min f'.ahead (len - dst.length) := by
              rw [hrest]
              dsimp only
              rw [hpos']
              exact Nat.mod_eq_of_lt (by omega)
            have hsame : (f'.takeBuf (len - dst.length)).2.size = f.size := by
              rw [hrest]
              exact hsize'
            have hgo := hahead rfl
            have hb' : s'.geo.Boot := by rw [hstays.geo]; exact hb
            obtain ⟨turns, r, hres⟩ := ih
              (len - (dst ++ (f'.takeBuf (len - dst.length)).1).length) (by omega) hb'
              hstays.steady (f := (f'.takeBuf (len - dst.length)).2) (by omega) (by omega)
              (.inl (by omega)) rfl
            exact ⟨turns + 1, r, by rw [readLoop_succ hlen, hfetch]; exact hres⟩
      · exact ⟨1, (dst, f, s), by rw [readLoop, if_neg hlen, onDisk_pure]⟩

/-- What a read leaves: the mount, the file's size and first cluster, a
position in the file. -/
theorem readLoop_keeps (hb : s.geo.Boot) (h : s.Steady disk) {len turns : Nat}
    {dst dst' : List UInt8} {f f' : Ufile}
    (hres : onDisk disk (readLoop len turns dst f s) = some (dst', f', s')) :
    s.Stays s' disk ∧ f'.size = f.size ∧ f'.first = f.first ∧ (f.Home → f'.Home)
      ∧ (f.size < 2 ^ 32 → f.pos + (len - dst.length) ≤ f.size → f'.pos ≤ f'.size) := by
  induction turns generalizing dst f s with
  | zero => exact nomatch hres
  | succ turns ih =>
      by_cases hlen : dst.length < len
      · have hfetch : s.Stays (onDisk disk (fetch f s)).2.2 disk
            ∧ (onDisk disk (fetch f s)).2.1.size = f.size
            ∧ (onDisk disk (fetch f s)).2.1.pos = f.pos
            ∧ (onDisk disk (fetch f s)).2.1.first = f.first
            ∧ (f.Home → (onDisk disk (fetch f s)).2.1.Home) := by
          unfold fetch
          split
          · have hspec := load_spec hb h f
            exact ⟨hspec.stays, hspec.size, hspec.pos, hspec.first, hspec.home⟩
          · exact ⟨h.stays, rfl, rfl, rfl, id⟩
        rw [readLoop_succ hlen] at hres
        generalize onDisk disk (fetch f s) = q at hfetch hres
        obtain ⟨ok, f₁, s₁⟩ := q
        obtain ⟨hstays, hsize, hpos, hfirst, hhome⟩ := hfetch
        dsimp only at hstays hsize hpos hfirst hhome hres
        cases ok with
        | false =>
            cases hres
            exact ⟨hstays, hsize, hfirst, hhome, fun _ hroom => by omega⟩
        | true =>
            have hb₁ : s₁.geo.Boot := by rw [hstays.geo]; exact hb
            obtain ⟨htake, hrest⟩ := takeBuf_eq f₁ (len - dst.length)
            rw [if_pos rfl] at hres
            obtain ⟨hstays', hsize', hfirst', hhome', hpos'⟩ := ih hb₁ hstays.steady hres
            rw [hrest] at hsize' hfirst' hhome' hpos'
            rw [List.length_append, htake] at hpos'
            refine ⟨hstays.trans hstays', hsize'.trans hsize, hfirst'.trans hfirst,
              fun h => hhome' (hhome h), fun h32 hroom => hpos' (by dsimp only; omega) ?_⟩
            have hwrap : u32 (f₁.pos + min f₁.ahead (len - dst.length))
                = f₁.pos + min f₁.ahead (len - dst.length) := Nat.mod_eq_of_lt (by omega)
            dsimp only
            rw [hwrap]
            omega
      · rw [readLoop, if_neg hlen, onDisk_pure] at hres
        cases hres
        exact ⟨h.stays, rfl, rfl, id, fun _ hroom => by omega⟩

-- ============================================================ the stuck read

/-- The FAT entries that the merging of clusters reads can be read. -/
def mergeReads (disk : Disk) (g : Geo) : (turns : Nat) → (c count : Nat) → Bool
  | 0, _, _ => true
  | turns + 1, c, count =>
      if count < chunkSectors then
        match fatRead disk g c with
        | none => false
        | some next => if next ≠ u32 (c + 1) then true
          else mergeReads disk g turns (u32 (c + 1)) (count + g.spc)
      else true

/-- The load of a file's first chunk, of no sectors, succeeds. -/
structure FirstLoads (disk : Disk) (g : Geo) (first : Nat) : Prop where
  clus : ufsEoc first = false
  fat : mergeReads disk g chunkSectors first g.spc = true
  read : (disk (u32 (ufsClusSector g first)) 0).isSome = true

theorem merge_reads (hg : s.geo.Sound) (h : s.Sees disk) (turns c count : Nat) :
    (onDisk disk (mergeClusters turns c count s)).2.lost = false
      ↔ mergeReads disk s.geo turns c count = true := by
  induction turns generalizing s c count with
  | zero => simp [mergeReads, mergeClusters, h.there]
  | succ turns ih =>
      unfold mergeClusters mergeReads
      by_cases hfull : count < chunkSectors
      · rw [if_pos hfull, if_pos hfull, onDisk_bind]
        rcases onDisk_fatNext h (hg c) with ⟨v, s', hread, hres, hlike, hsees⟩ | ⟨hread, hres⟩
        · rw [hres, hread]
          dsimp only
          split
          · simp [hsees.there]
          · have hg' : s'.geo.Sound := by rw [hlike.geo]; exact hg
            rw [ih hg' hsees, hlike.geo]
        · rw [hres, hread]
          dsimp only
          split
          · simp
          · have hstays := (merge_stays (.lost rfl : Fs.Steady { s with lost := true } disk) turns
              (u32 (c + 1)) (count + s.geo.spc)).1
            constructor
            · intro hthere
              exact nomatch hstays.back hthere
            · intro hread'
              exact nomatch hread'
      · rw [if_neg hfull, if_neg hfull]
        simp [h.there]

/-- At the start of a file whose count of sectors overflows, a load gives
an empty chunk, or fails. -/
theorem load_empty_iff (hg : s.geo.Sound) (h : s.Sees disk) {f : Ufile}
    (hpos : f.pos = 0) (hhome : f.Home) (hneed : f.need = 0) :
    (onDisk disk (ufsLoad f s)).1 = true ↔ FirstLoads disk s.geo f.first := by
  -- the handle at its first cluster
  obtain ⟨f₀, hf₀, hclus⟩ : ∃ f₀ : Ufile, (if f.pos / s.geo.clusBytes < f.clusIdx then
      { f with clus := f.first, clusIdx := 0 } else f) = f₀ ∧ f₀.clus = f.first := by
    refine ⟨_, rfl, ?_⟩
    rw [hpos, Nat.zero_div]
    split
    · rfl
    · exact hhome (by omega)
  have hload : onDisk disk (loadCluster f s) = (!ufsEoc f.first, f₀, s) := by
    unfold loadCluster
    dsimp only
    rw [hf₀, hpos, Nat.zero_div, Nat.zero_sub, onDisk_bind, ← hclus]
    rfl
  have hneed₀ : f₀.need = 0 := by
    rw [← hf₀, ← hneed]
    unfold Ufile.need Ufile.sectorPos
    split <;> rfl
  rw [onDisk_load, hload]
  dsimp only
  cases heoc : ufsEoc f.first with
  | true =>
      simp only [Bool.not_true, Bool.false_eq_true, if_false, false_iff]
      intro hfirst
      exact absurd (heoc.symm.trans hfirst.clus) (by decide)
  | false =>
      have hmerge := merge_reads hg h chunkSectors f.first s.geo.spc
      have hstays := (merge_stays (fun _ => h) chunkSectors f.first s.geo.spc).1
      obtain ⟨count, s₁, hq⟩ : ∃ count s₁, onDisk disk (mergeClusters chunkSectors f.first
          s.geo.spc s) = (count, s₁) := ⟨_, _, rfl⟩
      rw [hq] at hmerge hstays
      dsimp only at hmerge hstays
      have hzero : f₀.chunk count = 0 := by
        unfold Ufile.chunk
        dsimp only
        rw [hneed₀]
        split_ifs <;> omega
      have hq₀ : onDisk disk (mergeClusters chunkSectors f₀.clus (s.geo.spc - 0) s)
          = (count, s₁) := by
        rw [hclus, Nat.sub_zero]
        exact hq
      rw [Bool.not_false, if_pos rfl, hpos, Nat.zero_mod, Nat.zero_div, onDisk_chunk disk f₀ 0 s hq₀,
        hzero, hstays.geo, hclus, Nat.add_zero]
      cases hlost : s₁.lost with
      | true =>
          rw [lost_sectors disk hlost]
          simp only [Bool.false_eq_true, false_iff]
          intro hfirst
          exact absurd (hlost.symm.trans (hmerge.mpr hfirst.fat)) (by decide)
      | false =>
          rw [onDisk_sectors (hstays.steady hlost)]
          cases hread : disk (u32 (ufsClusSector s.geo f.first)) 0 with
          | none =>
              simp only [Bool.false_eq_true, false_iff]
              intro hfirst
              have hsome := hfirst.read
              rw [hread] at hsome
              exact absurd hsome (by decide)
          | some data =>
              simp only [true_iff]
              exact ⟨heoc, hmerge.mp hlost, by rw [hread]; rfl⟩

/-- A read from the start of such a file never ends. -/
theorem readLoop_stuck (hg : s.geo.Sound) (hb : s.geo.Boot) (h : s.Sees disk) {f : Ufile}
    (hpos : f.pos = 0) (hout : f.outside = true) (hhome : f.Home) (hneed : f.need = 0)
    (hfirst : FirstLoads disk s.geo f.first) {len : Nat} {dst : List UInt8}
    (hlen : dst.length < len) (turns : Nat) :
    onDisk disk (readLoop len turns dst f s) = none := by
  induction turns generalizing f s with
  | zero => rfl
  | succ turns ih =>
      have hok := (load_empty_iff hg h hpos hhome hneed).mpr hfirst
      have hspec := load_spec hb (fun _ => h) f
      rw [readLoop_succ hlen]
      unfold fetch
      rw [hout, if_pos rfl, if_pos hok]
      generalize onDisk disk (ufsLoad f s) = q at hok hspec
      obtain ⟨ok, f', s'⟩ := q
      obtain ⟨count, hclen, hle, -, -⟩ := hspec.chunk hok
      dsimp only at hok hspec hclen ⊢
      have hcstart : f'.cstart = 0 := by
        rw [hspec.start hok]
        unfold Ufile.sectorPos
        rw [hpos, Nat.zero_div, Nat.zero_mul]
      have hclen' : f'.clen = 0 := by
        rw [hclen]
        rw [hneed] at hle
        rw [Nat.le_zero.mp hle, Nat.zero_mul]
      have hpos' : f'.pos = 0 := hspec.pos.trans hpos
      have hahead : f'.ahead = 0 := by
        unfold Ufile.ahead
        rw [hcstart, hclen', hpos']
        rfl
      obtain ⟨htake, hrest⟩ := takeBuf_eq f' (len - dst.length)
      rw [hahead, Nat.zero_min] at htake hrest
      rw [List.eq_nil_of_length_eq_zero htake, List.append_nil, hrest, hpos']
      have hg' : s'.geo.Sound := by rw [hspec.stays.geo]; exact hg
      have hb' : s'.geo.Boot := by rw [hspec.stays.geo]; exact hb
      refine ih (f := { f' with pos := u32 (0 + 0) }) hg' hb'
        (hspec.stays.steady (hspec.there hok)) rfl ?_ (hspec.home hhome) ?_ ?_
      · unfold Ufile.outside
        dsimp only
        rw [hcstart, hclen']
        rfl
      · refine Eq.trans ?_ hneed
        unfold Ufile.need Ufile.sectorPos
        dsimp only
        rw [hspec.size, hpos, show u32 (0 + 0) = 0 from rfl]
      · dsimp only
        rw [hspec.first, hspec.stays.geo]
        exact hfirst

end Ncmips.Usbfat
