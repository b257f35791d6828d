/-
Reading a file gives its bytes.

The stick does not fail, the volume is well formed. Mounting finds the
volume's regions, the chain is followed as the FAT says, clusters that are
merged into one transfer are those of the file, and the buffer holds its
bytes; so a read gives them, after any seeks and reads.
-/
import Ncmips.Usbfat.Volume
import Ncmips.Usbfat.Proofs.Cache
import Ncmips.Usbfat.Proofs.Load

namespace Ncmips.Usbfat

open Bits (byteAt)

-- ================================================================= sectors

namespace Stick

variable (st : Stick)

/-- Every read succeeds. -/
def disk : Disk := fun start count => some (st.read start count)

theorem read_one (start : Nat) : st.read start 1 = st.sector start := by
  simp [read]

theorem read_succ (start count : Nat) :
    st.read start (count + 1) = st.read start count ++ st.sector (start + count) := by
  simp [read, List.range_succ]

theorem read_length (start count : Nat) : (st.read start count).length = count * ufsSector := by
  induction count with
  | zero => simp [read]
  | succ count ih => rw [read_succ, List.length_append, ih, st.length, Nat.succ_mul]

/-- A byte of a transfer is one of its sector. -/
theorem read_byte (start count : Nat) {i : Nat} (hi : i < count * ufsSector) :
    byteAt (st.read start count) i = byteAt (st.sector (start + i / ufsSector)) (i % ufsSector) := by
  induction count with
  | zero => simp at hi
  | succ count ih =>
      rw [read_succ]
      unfold byteAt
      have hlen := st.read_length start count
      by_cases hlt : i < count * ufsSector
      · rw [List.getD_append _ _ _ _ (by omega)]
        exact ih hlt
      · have hdiv : i / ufsSector = count := by
          rw [Nat.succ_mul] at hi
          exact Nat.div_eq_of_lt_le (by omega) (by rw [Nat.succ_mul]; omega)
        have hmod : i % ufsSector = i - count * ufsSector := by
          rw [Nat.mod_eq_sub, hdiv, Nat.mul_comm]
        rw [List.getD_append_right _ _ _ _ (by omega), hlen, hdiv, hmod]

end Stick

-- =================================================================== mount

namespace Volume

variable {v : Volume} {st : Stick}

/-- The volume as the mount has it. -/
def geo (v : Volume) : Geo :=
  { fat32 := v.fat32, spc := v.spc, fatStart := v.fatStart
    rootStart := v.part + v.rsvd + v.nfats * v.fatsz, rootSectors := v.rootSectors
    dataStart := v.dataStart, rootClus := v.rootClus, clusBytes := v.clusBytes }

theorem WellFormed.data_lt (hw : v.WellFormed) : v.part + v.overhead + 4085 ≤ 2 ^ 32 := by
  have hfits := hw.fits
  have hclus : 4085 * v.spc ≤ v.totsec - v.overhead := by
    exact (Nat.le_div_iff_mul_le hw.spc).mp hw.clusters
  have hspc := hw.spc
  have hmul : 4085 * 1 ≤ 4085 * v.spc := Nat.mul_le_mul_left _ hspc
  omega

theorem u32_of_lt {n : Nat} (h : n < 2 ^ 32) : u32 n = n := Nat.mod_eq_of_lt h

theorem sub32_of_le {a b : Nat} (hle : b ≤ a) (ha : a < 2 ^ 32) : sub32 a b = a - b := by
  unfold sub32 u32
  omega

theorem bootGeo_volume (hw : v.WellFormed) {b : List UInt8} (hb : v.Boot b) :
    bootGeo b v.part = ({ v.geo with fat32 := false }, v.clusters) := by
  have hdata := hw.data_lt
  have htot : v.totsec < 2 ^ 32 := by
    rw [← hb.totsec]
    split
    · have := le16_lt b 19
      omega
    · exact le32_lt b 32
  have hover : v.overhead = v.rsvd + v.nfats * v.fatsz + v.rootSectors := rfl
  have hregions := hw.regions
  unfold bootGeo
  dsimp only
  rw [hb.spc, hb.rsvd, hb.nfats, hb.rootents, hb.totsec, hb.fatsz, hb.rootClus,
    show (v.rootents * 32 + ufsSector - 1) / ufsSector = v.rootSectors from rfl,
    u32_of_lt (show v.part + v.rsvd < 2 ^ 32 by omega),
    u32_of_lt (show v.nfats * v.fatsz < 2 ^ 32 by omega),
    u32_of_lt (show v.part + v.rsvd + v.nfats * v.fatsz < 2 ^ 32 by omega),
    u32_of_lt (show v.part + v.rsvd + v.nfats * v.fatsz + v.rootSectors < 2 ^ 32 by omega),
    sub32_of_le (show v.part ≤ v.part + v.rsvd + v.nfats * v.fatsz + v.rootSectors by omega) (by omega),
    show v.part + v.rsvd + v.nfats * v.fatsz + v.rootSectors - v.part = v.overhead by omega,
    sub32_of_le hregions htot]
  have hstart : v.part + v.rsvd + v.nfats * v.fatsz + v.rootSectors = v.dataStart := by
    unfold dataStart
    omega
  rw [hstart]
  rfl

theorem mountBoot_volume (hw : v.WellFormed) {b : List UInt8} (hb : v.Boot b) (s : Fs) :
    mountBoot s b v.part
      = (true, { s with geo := v.geo, dcache := .replicate ufsDcache ([], 0) }) := by
  have hspc : byteAt b 13 ≠ 0 := by
    intro h0
    have hzero := hb.spc
    rw [h0] at hzero
    exact absurd hzero.symm (Nat.pos_iff_ne_zero.mp hw.spc)
  have hboot : ¬(le16 b 11 ≠ ufsSector ∨ byteAt b 13 = 0) :=
    not_or.mpr ⟨not_not.mpr hb.sectorSize, hspc⟩
  unfold mountBoot
  rw [if_neg hboot, bootGeo_volume hw hb]
  dsimp only
  rw [if_neg (by have := hw.clusters; omega)]
  rfl

theorem fatPartition_first {b : List UInt8} {i : Nat} (hi : i < 4)
    (htype : (byteAt b (0x1be + 16 * i + 4)).toNat ∈ fatTypes)
    (hfirst : ∀ j < i, (byteAt b (0x1be + 16 * j + 4)).toNat ∉ fatTypes) :
    fatPartition b = some (le32 b (0x1be + 16 * i + 8)) := by
  have hhit (j : Nat) (hj : (byteAt b (0x1be + 16 * j + 4)).toNat ∈ fatTypes) :
      (if (byteAt b (0x1be + 16 * j + 4)).toNat ∈ [0x01, 0x04, 0x06, 0x0b, 0x0c, 0x0e] then
        some (le32 b (0x1be + 16 * j + 8)) else none) = some (le32 b (0x1be + 16 * j + 8)) :=
    if_pos hj
  have hmiss (j : Nat) (hj : (byteAt b (0x1be + 16 * j + 4)).toNat ∉ fatTypes) :
      (if (byteAt b (0x1be + 16 * j + 4)).toNat ∈ [0x01, 0x04, 0x06, 0x0b, 0x0c, 0x0e] then
        some (le32 b (0x1be + 16 * j + 8)) else none) = none :=
    if_neg hj
  unfold fatPartition
  rw [show List.range 4 = [0, 1, 2, 3] from rfl]
  dsimp only [List.findSome?]
  obtain rfl | rfl | rfl | rfl : i = 0 ∨ i = 1 ∨ i = 2 ∨ i = 3 := by omega
  · rw [hhit 0 htype]
  · rw [hmiss 0 (hfirst 0 (by decide)), hhit 1 htype]
  · rw [hmiss 0 (hfirst 0 (by decide)), hmiss 1 (hfirst 1 (by decide)), hhit 2 htype]
  · rw [hmiss 0 (hfirst 0 (by decide)), hmiss 1 (hfirst 1 (by decide)),
      hmiss 2 (hfirst 2 (by decide)), hhit 3 htype]

/-- The state that a mount makes. -/
def mounted (v : Volume) (s : Fs) : Fs :=
  { s with geo := v.geo, dcache := .replicate ufsDcache ([], 0) }

/-- Mounting finds the volume. -/
theorem mount_volume (hw : v.WellFormed) (hon : v.On st) {s : Fs} (hthere : s.lost = false) :
    onDisk st.disk (ufsMount s) = (true, v.mounted s) := by
  have hread : ∀ start, onDisk st.disk (ufsSectors s start 1) = (some (st.sector start), s) := by
    intro start
    unfold ufsSectors
    rw [hthere]
    simp only [Bool.false_eq_true, if_false, onDisk_bind, onDisk_read, Stick.disk, Stick.read_one,
      onDisk_pure]
  unfold ufsMount
  simp only [onDisk_bind, hread]
  cases hon with
  | floppy hpart hsign h55 haa hboot =>
      have hmount := mountBoot_volume hw hboot s
      rw [hpart] at hmount
      simp only [h55, haa, ne_eq, not_true_eq_false, or_self, if_false, hsign, if_true, hmount,
        onDisk_pure]
      rfl
  | partition hsign h55 haa i hi htype hpart hfirst hboot =>
      have hmount := mountBoot_volume hw hboot s
      have htable := fatPartition_first hi htype hfirst
      rw [hpart] at htable
      simp only [h55, haa, ne_eq, not_true_eq_false, or_self, if_false, hsign, Bool.false_eq_true,
        htable, onDisk_bind, hread, hmount, onDisk_pure]
      rfl

-- ================================================================= the FAT

/-- The mount's state while the volume is read. -/
structure Reads (v : Volume) (st : Stick) (s : Fs) : Prop where
  sees : s.Sees st.disk
  geo : s.geo = v.geo

/-- What the reader takes an entry for. -/
def next (v : Volume) (st : Stick) (c : Nat) : Nat :=
  if v.entry st c ≥ (if v.fat32 then 0x0ffffff8 else 0xfff8) then fatEnd else v.entry st c

theorem width_eq (v : Volume) :
    v.fat32 = true ∧ v.width = 4 ∨ v.fat32 = false ∧ v.width = 2 := by
  unfold width
  cases v.fat32 with
  | true => exact .inl ⟨rfl, rfl⟩
  | false => exact .inr ⟨rfl, rfl⟩

/-- A cluster, or one of those after it that merging may ask for. -/
def Near (v : Volume) (c : Nat) : Prop :=
  c < v.clusters + 2 + chunkSectors ∧ c < 0x0ffffff0 + chunkSectors

theorem fatPlace_volume (hw : v.WellFormed) {c : Nat} (hc : v.Near c) :
    fatPlace v.geo c = (v.fatStart + c * v.width / ufsSector, c * v.width % ufsSector)
      ∧ v.fatStart + c * v.width / ufsSector < noSector := by
  obtain ⟨hclus, hmax⟩ := hc
  have hdata := hw.data_lt
  have hfat := hw.fat
  have hmul : v.fatsz ≤ v.nfats * v.fatsz := Nat.le_mul_of_pos_left _ hw.fats
  have hover : v.overhead = v.rsvd + v.nfats * v.fatsz + v.rootSectors := rfl
  have hstart : v.fatStart = v.part + v.rsvd := rfl
  unfold chunkSectors at hclus hmax
  rcases v.width_eq with ⟨h32, hwidth⟩ | ⟨h16, hwidth⟩
  · rw [hwidth] at hfat ⊢
    have hsec : v.fatStart + c * 4 / ufsSector < noSector := by
      unfold ufsSector noSector at *
      omega
    refine ⟨?_, hsec⟩
    have hg : v.geo.fat32 = true := h32
    unfold fatPlace
    rw [hg, if_pos rfl, u32_of_lt (show c * 4 < 2 ^ 32 by omega)]
    have hlt : v.geo.fatStart + c * 4 / ufsSector < 2 ^ 32 := lt_trans hsec (by decide)
    dsimp only
    rw [u32_of_lt hlt]
    rfl
  · rw [hwidth] at hfat ⊢
    have hsec : v.fatStart + c * 2 / ufsSector < noSector := by
      unfold ufsSector noSector at *
      omega
    refine ⟨?_, hsec⟩
    have hg : v.geo.fat32 = false := h16
    unfold fatPlace
    rw [hg, if_neg (by decide), u32_of_lt (show c * 2 < 2 ^ 32 by omega)]
    have hlt : v.geo.fatStart + c * 2 / ufsSector < 2 ^ 32 := lt_trans hsec (by decide)
    dsimp only
    rw [u32_of_lt hlt]
    rfl

theorem fatRead_volume (hw : v.WellFormed) {c : Nat} (hc : v.Near c) :
    fatRead st.disk v.geo c = some (v.next st c) := by
  unfold fatRead Stick.disk next entry
  rw [(fatPlace_volume hw hc).1]
  dsimp only
  rw [Option.map_some, Stick.read_one]
  unfold fatValue
  have hg : v.geo.fat32 = v.fat32 := rfl
  rw [hg]
  cases v.fat32 with
  | true => rfl
  | false => rfl

theorem fatNext_volume (hw : v.WellFormed) {s : Fs} (hs : v.Reads st s) {c : Nat} (hc : v.Near c) :
    ∃ s', onDisk st.disk (ufsFatNext s c) = (v.next st c, s') ∧ v.Reads st s' := by
  obtain ⟨hplace, hsec⟩ := fatPlace_volume hw hc
  have hmark : (fatPlace s.geo c).1 ≠ noSector := by
    rw [hs.geo, hplace]
    exact Nat.ne_of_lt hsec
  have hread := @fatRead_volume _ st hw _ hc
  rw [← hs.geo] at hread
  rcases onDisk_fatNext hs.sees hmark with ⟨n, s', hread', hres, hlike, hsees⟩ | ⟨hnone, -⟩
  · rw [hread, Option.some.injEq] at hread'
    subst hread'
    exact ⟨s', hres, hsees, hlike.geo.trans hs.geo⟩
  · rw [hread] at hnone
    exact nomatch hnone

/-- A number that is a cluster's. -/
def Clus (v : Volume) (c : Nat) : Prop := 2 ≤ c ∧ c < v.clusters + 2 ∧ c < 0x0ffffff0

theorem Clus.near {c : Nat} (h : v.Clus c) : v.Near c := by
  obtain ⟨-, hclus, hmax⟩ := h
  unfold Near chunkSectors
  omega

theorem Clus.eoc {c : Nat} (h : v.Clus c) : ufsEoc c = false := by
  obtain ⟨hmin, -, hmax⟩ := h
  unfold ufsEoc
  rw [decide_eq_false_iff_not]
  omega

theorem next_of_clus {c : Nat} (h : v.Clus (v.entry st c)) : v.next st c = v.entry st c := by
  obtain ⟨-, hclus, hmax⟩ := h
  unfold next
  rw [if_neg]
  rcases hf : v.fat32 with _ | _
  · have h16 : v.clusters < 65525 := by
      unfold fat32 at hf
      simpa using hf
    simp only [Bool.false_eq_true, if_false]
    omega
  · simp only [if_true]
    omega

theorem entry_of_next {c n : Nat} (h : v.next st c = n) (hn : n < fatEnd) : v.entry st c = n := by
  unfold next at h
  by_cases hbig : v.entry st c ≥ (if v.fat32 then 0x0ffffff8 else 0xfff8)
  · rw [if_pos hbig] at h
    rw [← h] at hn
    exact absurd hn (Nat.lt_irrefl _)
  · rwa [if_neg hbig] at h

-- ============================================================== the clusters

variable {first size : Nat}

theorem HasFile.clus (hf : v.HasFile st first size) {k : Nat} (hk : k * v.clusBytes < size) :
    v.Clus (v.chain st first k) := hf.chain k hk

/-- Following the chain. -/
theorem skip_volume (hw : v.WellFormed) (hf : v.HasFile st first size) {s : Fs} (hs : v.Reads st s)
    {f : Ufile} (hplace : f.clus = v.chain st first f.clusIdx) {n : Nat}
    (hn : (f.clusIdx + n) * v.clusBytes < size) :
    ∃ s', onDisk st.disk (skipClusters n f s)
        = (true, { f with clus := v.chain st first (f.clusIdx + n), clusIdx := f.clusIdx + n }, s')
      ∧ v.Reads st s' := by
  induction n generalizing f s with
  | zero =>
      refine ⟨s, ?_, hs⟩
      unfold skipClusters
      rw [onDisk_pure, Nat.add_zero, ← hplace]
  | succ n ih =>
      have hle (k : Nat) (hk : k ≤ f.clusIdx + (n + 1)) : k * v.clusBytes < size :=
        lt_of_le_of_lt (Nat.mul_le_mul_right _ hk) hn
      have hhere := hf.clus (hle f.clusIdx (by omega))
      have hthere := hf.clus (hle (f.clusIdx + 1) (by omega))
      have hnext : v.next st f.clus = v.chain st first (f.clusIdx + 1) := by
        rw [hplace]
        exact next_of_clus hthere
      rw [← hplace] at hhere
      obtain ⟨s₁, hfat, hs₁⟩ := fatNext_volume hw hs hhere.near
      obtain ⟨s', hres, hs'⟩ := @ih s₁ hs₁
        { f with clus := v.chain st first (f.clusIdx + 1), clusIdx := f.clusIdx + 1 } rfl
        (show (f.clusIdx + 1 + n) * v.clusBytes < size from hle _ (by omega))
      refine ⟨s', ?_, hs'⟩
      unfold skipClusters
      rw [onDisk_bind, hfat, hnext]
      dsimp only
      rw [hthere.eoc, if_neg (by decide), hres]
      dsimp only
      rw [show f.clusIdx + 1 + n = f.clusIdx + (n + 1) by omega]

/-- Clusters that are merged follow each other in the FAT. -/
theorem merge_volume (hw : v.WellFormed) {s : Fs} (hs : v.Reads st s) {turns c count : Nat}
    (hc : ∀ i < turns, v.Near (c + i)) :
    ∃ j s', onDisk st.disk (mergeClusters turns c count s) = (count + j * v.spc, s')
      ∧ v.Reads st s' ∧ ∀ i < j, v.next st (c + i) = c + i + 1 := by
  induction turns generalizing c count s with
  | zero => exact ⟨0, s, by simp [mergeClusters], hs, fun i hi => absurd hi (Nat.not_lt_zero _)⟩
  | succ turns ih =>
      unfold mergeClusters
      by_cases hfull : count < chunkSectors
      · have hnear := hc 0 (by omega)
        obtain ⟨s₁, hfat, hs₁⟩ := fatNext_volume hw hs hnear
        rw [if_pos hfull, onDisk_bind]
        rw [Nat.add_zero] at hfat hnear
        rw [hfat]
        dsimp only
        have hwrap : u32 (c + 1) = c + 1 := by
          obtain ⟨-, hmax⟩ := hnear
          unfold chunkSectors at hmax
          exact u32_of_lt (by omega)
        rw [hwrap]
        by_cases hnext : v.next st c = c + 1
        · rw [if_neg (by rw [hnext]; exact fun h => h rfl)]
          obtain ⟨j, s', hres, hs', hrun⟩ := @ih s₁ hs₁ (c + 1) (count + s₁.geo.spc)
            (fun i hi => by rw [show c + 1 + i = c + (i + 1) by omega]; exact hc (i + 1) (by omega))
          refine ⟨j + 1, s', ?_, hs', fun i hi => ?_⟩
          · have hspc : s₁.geo.spc = v.spc := by rw [hs₁.geo]; rfl
            rw [hres, hspc, Nat.succ_mul]
            congr 1
            omega
          · cases i with
            | zero => exact hnext
            | succ i =>
                have := hrun i (by omega)
                rw [show c + (i + 1) = c + 1 + i by omega]
                exact this
        · rw [if_pos hnext]
          exact ⟨0, s₁, by rw [onDisk_pure, Nat.zero_mul, Nat.add_zero], hs₁,
            fun i hi => absurd hi (Nat.not_lt_zero _)⟩
      · rw [if_neg hfull]
        exact ⟨0, s, by rw [onDisk_pure, Nat.zero_mul, Nat.add_zero], hs,
          fun i hi => absurd hi (Nat.not_lt_zero _)⟩

/-- They are the file's clusters, as long as it goes on. -/
theorem chain_of_run (hf : v.HasFile st first size) {k j : Nat}
    (hrun : ∀ i < j, v.next st (v.chain st first k + i) = v.chain st first k + i + 1) {i : Nat}
    (hi : i ≤ j) (hk : (k + i) * v.clusBytes < size) :
    v.chain st first (k + i) = v.chain st first k + i := by
  induction i with
  | zero => rfl
  | succ i ih =>
      have hk' : (k + i) * v.clusBytes < size :=
        lt_of_le_of_lt (Nat.mul_le_mul_right _ (by omega)) hk
      have hprev := ih (by omega) hk'
      have hclus := hf.clus hk'
      have hentry := entry_of_next (hrun i (by omega)) (by
        obtain ⟨-, -, hmax⟩ := hclus
        rw [hprev] at hmax
        unfold fatEnd
        omega)
      calc v.chain st first (k + (i + 1)) = v.entry st (v.chain st first (k + i)) := rfl
        _ = v.chain st first k + (i + 1) := by rw [hprev, hentry]; rfl

-- ================================================================ the chunk

/-- An open handle of the file. -/
structure At (v : Volume) (st : Stick) (first size : Nat) (f : Ufile) : Prop where
  sizeEq : f.size = size
  firstEq : f.first = first
  pos : f.pos ≤ size
  place : f.clus = v.chain st first f.clusIdx
  buf : ∀ i < f.clen, f.cstart + i < size →
    byteAt f.cbuf i = v.fileByte st first (f.cstart + i)
  wrap : f.cstart + f.clen < 2 ^ 32

/-- A file's byte by its sector. -/
theorem fileByte_eq (first i : Nat) : v.fileByte st first i
    = byteAt
      (st.sector (v.dataStart + (v.chain st first (i / ufsSector / v.spc) - 2) * v.spc
        + i / ufsSector % v.spc))
      (i % ufsSector) := by
  unfold fileByte clusBytes
  rw [Nat.mod_mul_left_div_self, Nat.mul_comm v.spc, ← Nat.div_div_eq_div_mul]

/-- Sector `t` of a transfer from a place in cluster `c` on is in the cluster
it should be in. -/
theorem run_sector {spc base c secIn t : Nat} (hc : 2 ≤ c) :
    base + (c + (secIn + t) / spc - 2) * spc + (secIn + t) % spc
      = base + (c - 2) * spc + secIn + t := by
  have hdiv := Nat.div_add_mod (secIn + t) spc
  generalize (secIn + t) / spc = m at hdiv ⊢
  generalize (secIn + t) % spc = r at hdiv ⊢
  have hsub : c + m - 2 = c - 2 + m := by omega
  rw [hsub, Nat.add_mul, Nat.mul_comm m]
  omega

/-- The sector of a cluster, which does not wrap. -/
theorem clusSector_volume (hw : v.WellFormed) {c : Nat} (hc : v.Clus c) {secIn : Nat}
    (hsec : secIn < v.spc) :
    u32 (ufsClusSector v.geo c + secIn) = v.dataStart + (c - 2) * v.spc + secIn
      ∧ v.dataStart + (c - 2) * v.spc + v.spc ≤ 2 ^ 32 := by
  obtain ⟨hmin, hclus, hmax⟩ := hc
  have hfits := hw.fits
  have hregions := hw.regions
  have hstart : v.dataStart = v.part + v.overhead := rfl
  have hall : v.clusters * v.spc ≤ v.totsec - v.overhead := Nat.div_mul_le_self _ _
  have hlast : (c - 2 + 1) * v.spc ≤ v.clusters * v.spc := Nat.mul_le_mul_right _ (by omega)
  rw [Nat.succ_mul] at hlast
  refine ⟨?_, by omega⟩
  unfold ufsClusSector
  rw [sub32_of_le hmin (by omega), show v.geo.spc = v.spc from rfl,
    show v.geo.dataStart = v.dataStart from rfl, u32_of_lt (show (c - 2) * v.spc < 2 ^ 32 by omega),
    u32_of_lt (show v.dataStart + (c - 2) * v.spc < 2 ^ 32 by omega), u32_of_lt (by omega)]

theorem cluster_volume (hw : v.WellFormed) (hf : v.HasFile st first size) {s : Fs}
    (hs : v.Reads st s) {f : Ufile} (hat : v.At st first size f) (hpos : f.pos < size) :
    ∃ s', onDisk st.disk (loadCluster f s)
        = (true, { f with clus := v.chain st first (f.pos / v.clusBytes)
                          clusIdx := f.pos / v.clusBytes }, s')
      ∧ v.Reads st s' := by
  have hidx : f.pos / v.clusBytes * v.clusBytes < size :=
    lt_of_le_of_lt (Nat.div_mul_le_self _ _) hpos
  have hclus := hf.clus hidx
  have hbytes : s.geo.clusBytes = v.clusBytes := by rw [hs.geo]; rfl
  unfold loadCluster
  dsimp only
  rw [hbytes]
  by_cases hback : f.pos / v.clusBytes < f.clusIdx
  · rw [if_pos hback]
    obtain ⟨s', hskip, hs'⟩ := skip_volume hw hf hs (f := { f with clus := f.first, clusIdx := 0 })
      hat.firstEq (n := f.pos / v.clusBytes) (by rw [Nat.zero_add]; exact hidx)
    dsimp only at hskip
    rw [Nat.zero_add] at hskip
    refine ⟨s', ?_, hs'⟩
    rw [Nat.sub_zero, onDisk_bind, hskip]
    dsimp only
    rw [hclus.eoc]
    rfl
  · rw [if_neg hback]
    have hsum : f.clusIdx + (f.pos / v.clusBytes - f.clusIdx) = f.pos / v.clusBytes := by omega
    obtain ⟨s', hskip, hs'⟩ := skip_volume hw hf hs hat.place (by rw [hsum]; exact hidx)
    rw [hsum] at hskip
    refine ⟨s', ?_, hs'⟩
    rw [onDisk_bind, hskip]
    dsimp only
    rw [hclus.eoc]
    rfl

/-- The bytes of a transfer that a load does are the file's. -/
theorem chunk_bytes (hf : v.HasFile st first size) {pos j n i : Nat}
    (hrun : ∀ k < j, v.next st (v.chain st first (pos / v.clusBytes) + k)
      = v.chain st first (pos / v.clusBytes) + k + 1)
    (hn : n ≤ v.spc - pos / ufsSector % v.spc + j * v.spc) (hw : v.WellFormed) (hpos : pos < size)
    (hi : i < n * ufsSector) (hin : pos / ufsSector * ufsSector + i < size) :
    byteAt (st.read (v.dataStart + (v.chain st first (pos / v.clusBytes) - 2) * v.spc
        + pos / ufsSector % v.spc) n) i
      = v.fileByte st first (pos / ufsSector * ufsSector + i) := by
  have hspc := hw.spc
  have hclusBytes : v.clusBytes = v.spc * ufsSector := rfl
  have hsec : (pos / ufsSector * ufsSector + i) / ufsSector = pos / ufsSector + i / ufsSector := by
    unfold ufsSector
    omega
  have hbyte : (pos / ufsSector * ufsSector + i) % ufsSector = i % ufsSector := by
    unfold ufsSector
    omega
  have hidx : pos / v.clusBytes = pos / ufsSector / v.spc := by
    rw [hclusBytes, Nat.mul_comm, Nat.div_div_eq_div_mul]
  have hfirst := hf.clus (lt_of_le_of_lt (Nat.div_mul_le_self pos v.clusBytes) hpos)
  rw [hidx] at hrun hfirst ⊢
  have ht : i / ufsSector < n := (Nat.div_lt_iff_lt_mul (by decide)).mpr hi
  generalize hS : pos / ufsSector = S at *
  generalize hT : i / ufsSector = T at *
  have hdivmod := Nat.div_add_mod S v.spc
  have hsecLt : S % v.spc < v.spc := Nat.mod_lt _ hspc
  -- the cluster that sector `S + T` is in
  have hsplit : S + T = v.spc * (S / v.spc) + (S % v.spc + T) := by omega
  have hdiv : (S + T) / v.spc = S / v.spc + (S % v.spc + T) / v.spc := by
    rw [hsplit, Nat.mul_add_div hspc]
  have hmod : (S + T) % v.spc = (S % v.spc + T) % v.spc := by
    rw [hsplit, Nat.mul_add_mod]
  have hm : (S % v.spc + T) / v.spc ≤ j := by
    rw [← Nat.lt_succ_iff, Nat.div_lt_iff_lt_mul hspc, Nat.succ_mul]
    omega
  have hin' : (S / v.spc + (S % v.spc + T) / v.spc) * v.clusBytes < size := by
    rw [← hdiv, hclusBytes, ← Nat.mul_assoc]
    refine lt_of_le_of_lt (Nat.mul_le_mul_right _ (Nat.div_mul_le_self _ _)) ?_
    have hTi : T * ufsSector ≤ i := by
      rw [← hT]
      exact Nat.div_mul_le_self _ _
    rw [Nat.add_mul]
    omega
  have hchain := chain_of_run hf hrun hm hin'
  rw [st.read_byte _ _ hi, fileByte_eq, hsec, hbyte, hT, hdiv, hmod, hchain, run_sector hfirst.1]

/-- The handle after a load that merged `j` clusters, if it was in order
before. -/
theorem chunk_at (hw : v.WellFormed) (hf : v.HasFile st first size) {f f₁ : Ufile}
    (hat : v.At st first size f) (hpos : f.pos < size)
    (hf₁ : f₁ = { f with clus := v.chain st first (f.pos / v.clusBytes)
                         clusIdx := f.pos / v.clusBytes }) {j n : Nat}
    (hrun : ∀ i < j, v.next st (v.chain st first (f.pos / v.clusBytes) + i)
      = v.chain st first (f.pos / v.clusBytes) + i + 1)
    (hn : n = f₁.chunk (v.spc - f.pos / ufsSector % v.spc + j * v.spc)) :
    v.At st first size
        { f₁ with
          cbuf := st.read (v.dataStart + (v.chain st first (f.pos / v.clusBytes) - 2) * v.spc
            + f.pos / ufsSector % v.spc) n
          cstart := f₁.sectorPos, clen := n * ufsSector }
      ∧ f₁.sectorPos ≤ f.pos ∧ f.pos < f₁.sectorPos + n * ufsSector := by
  have hsecLt : f.pos / ufsSector % v.spc < v.spc := Nat.mod_lt _ hw.spc
  have hpos₁ : f₁.sectorPos = f.pos / ufsSector * ufsSector := by rw [hf₁]; rfl
  have hneed : f₁.need = (size - f₁.sectorPos + ufsSector - 1) / ufsSector := by
    have hsmall := hf.small
    have hsize : f₁.size = size := by rw [hf₁]; exact hat.sizeEq
    unfold Ufile.need
    rw [hsize, hpos₁]
    unfold sub32 u32 ufsSector at *
    omega
  have hle : n ≤ v.spc - f.pos / ufsSector % v.spc + j * v.spc := by
    rw [hn]
    unfold Ufile.chunk chunkSectors
    dsimp only
    split_ifs <;> omega
  obtain ⟨hmax, -, hzero⟩ := chunk_spec f₁
    (show 0 < v.spc - f.pos / ufsSector % v.spc + j * v.spc by omega)
  rw [← hn] at hmax hzero
  clear hn
  rw [hneed, hpos₁] at hmax hzero
  have hsmall := hf.small
  refine ⟨⟨?_, ?_, ?_, ?_, ?_, ?_⟩, ?_, ?_⟩
  · rw [hf₁]; exact hat.sizeEq
  · rw [hf₁]; exact hat.firstEq
  · rw [hf₁]; exact hat.pos
  · rw [hf₁]
  · intro i hi hin
    dsimp only at hi hin ⊢
    rw [hpos₁] at hin ⊢
    exact chunk_bytes hf hrun hle hw hpos hi hin
  · dsimp only
    rw [hpos₁]
    unfold ufsSector at *
    omega
  · rw [hpos₁]
    exact Nat.div_mul_le_self _ _
  · rw [hpos₁]
    unfold ufsSector at *
    omega

/-- A load gives the chunk that holds the position. -/
theorem load_volume (hw : v.WellFormed) (hf : v.HasFile st first size) {s : Fs}
    (hs : v.Reads st s) {f : Ufile} (hat : v.At st first size f) (hpos : f.pos < size) :
    ∃ f' s', onDisk st.disk (ufsLoad f s) = (true, f', s') ∧ v.Reads st s'
      ∧ v.At st first size f' ∧ f'.pos = f.pos ∧ f'.cstart ≤ f.pos
      ∧ f.pos < f'.cstart + f'.clen := by
  have hclus := hf.clus (lt_of_le_of_lt (Nat.div_mul_le_self f.pos v.clusBytes) hpos)
  obtain ⟨s₁, hcluster, hs₁⟩ := cluster_volume hw hf hs hat hpos
  have hsecIn : f.pos % s.geo.clusBytes / ufsSector = f.pos / ufsSector % v.spc := by
    rw [hs.geo]
    exact Nat.mod_mul_left_div_self _ _ _
  have hsecLt : f.pos / ufsSector % v.spc < v.spc := Nat.mod_lt _ hw.spc
  rw [onDisk_load, hcluster, if_pos rfl, hsecIn]
  dsimp only
  generalize hf₁ : ({ f with clus := v.chain st first (f.pos / v.clusBytes)
                             clusIdx := f.pos / v.clusBytes } : Ufile) = f₁
  have hclus₁ : f₁.clus = v.chain st first (f.pos / v.clusBytes) := by rw [← hf₁]
  obtain ⟨j, s₂, hmerge, hs₂, hrun⟩ := @merge_volume v st hw s₁ hs₁ chunkSectors
    (v.chain st first (f.pos / v.clusBytes)) (v.spc - f.pos / ufsSector % v.spc) (fun i hi => by
      obtain ⟨-, hlt, hmax⟩ := hclus
      exact ⟨by omega, by omega⟩)
  have hspc₁ : s₁.geo.spc = v.spc := by rw [hs₁.geo]; rfl
  have hmerge₁ : onDisk st.disk (mergeClusters chunkSectors f₁.clus
      (s₁.geo.spc - f.pos / ufsSector % v.spc) s₁)
        = (v.spc - f.pos / ufsSector % v.spc + j * v.spc, s₂) := by
    rw [hclus₁, hspc₁]
    exact hmerge
  obtain ⟨hsector, -⟩ := clusSector_volume hw hclus hsecLt
  have hsector₁ : u32 (ufsClusSector v.geo f₁.clus + f.pos / ufsSector % v.spc)
      = v.dataStart + (v.chain st first (f.pos / v.clusBytes) - 2) * v.spc
        + f.pos / ufsSector % v.spc := by
    rw [hclus₁]
    exact hsector
  rw [onDisk_chunk st.disk f₁ _ s₁ hmerge₁, onDisk_sectors hs₂.sees, hs₂.geo, hsector₁]
  obtain ⟨hat', hfrom, hto⟩ := chunk_at hw hf hat hpos hf₁.symm hrun rfl
  exact ⟨_, s₂, rfl, hs₂, hat', by rw [← hf₁], hfrom, hto⟩

-- ================================================================== reading

/-- The buffer has the position after a load, or had it. -/
theorem fetch_volume (hw : v.WellFormed) (hf : v.HasFile st first size) {s : Fs}
    (hs : v.Reads st s) {f : Ufile} (hat : v.At st first size f) (hpos : f.pos < size) :
    ∃ f' s', onDisk st.disk (fetch f s) = (true, f', s') ∧ v.Reads st s'
      ∧ v.At st first size f' ∧ f'.pos = f.pos ∧ f'.cstart ≤ f.pos
      ∧ f.pos < f'.cstart + f'.clen := by
  unfold fetch
  cases hout : f.outside with
  | true => exact load_volume hw hf hs hat hpos
  | false =>
      unfold Ufile.outside at hout
      rw [decide_eq_false_iff_not, u32_of_lt hat.wrap] at hout
      exact ⟨f, s, rfl, hs, hat, rfl, by omega, by omega⟩

theorem fileBytes_append (first pos m n : Nat) :
    v.fileBytes st first pos m ++ v.fileBytes st first (pos + m) n
      = v.fileBytes st first pos (m + n) := by
  unfold fileBytes
  rw [List.range_add, List.map_append, List.map_map]
  congr 1
  apply List.map_congr_left
  intro i _
  rw [Function.comp_apply, Nat.add_assoc]

theorem fileBytes_length (first pos n : Nat) : (v.fileBytes st first pos n).length = n := by
  simp [fileBytes]

/-- What is taken out of the buffer are bytes of the file. -/
theorem takeBuf_volume (hsmall : size ≤ 2 ^ 32 - ufsSector) {f : Ufile}
    (hat : v.At st first size f) (hfrom : f.cstart ≤ f.pos) (hto : f.pos < f.cstart + f.clen)
    {want : Nat} (hwant : 0 < want) (hin : f.pos + want ≤ size) :
    ∃ n f', f.takeBuf want = (v.fileBytes st first f.pos n, f') ∧ 0 < n ∧ n ≤ want
      ∧ v.At st first size f' ∧ f'.pos = f.pos + n := by
  have hwrap := hat.wrap
  have hahead : sub32 (u32 (f.cstart + f.clen)) f.pos = f.cstart + f.clen - f.pos := by
    rw [u32_of_lt hwrap, sub32_of_le (Nat.le_of_lt hto) hwrap]
  have hoff : sub32 f.pos f.cstart = f.pos - f.cstart := sub32_of_le hfrom (by omega)
  unfold Ufile.takeBuf
  dsimp only
  rw [hahead, hoff]
  generalize hn : (if f.cstart + f.clen - f.pos > want then want
    else f.cstart + f.clen - f.pos) = n
  have hbounds : 0 < n ∧ n ≤ want ∧ n ≤ f.cstart + f.clen - f.pos := by
    rw [← hn]
    split_ifs <;> omega
  obtain ⟨hn0, hle, hbuf⟩ := hbounds
  have hpos : u32 (f.pos + n) = f.pos + n := by
    unfold ufsSector at hsmall
    exact u32_of_lt (by omega)
  refine ⟨n, { f with pos := f.pos + n }, ?_, hn0, hle, ⟨hat.sizeEq, hat.firstEq, ?_, hat.place,
    hat.buf, hwrap⟩, rfl⟩
  · rw [hpos]
    congr 1
    unfold fileBytes
    apply List.map_congr_left
    intro i hi
    have hi := List.mem_range.mp hi
    rw [hat.buf _ (by omega) (by omega), show f.cstart + (f.pos - f.cstart + i) = f.pos + i by omega]
  · dsimp only
    omega

/-- The loop of a read: a turn for each chunk, which takes a byte at least. -/
theorem readLoop_volume (hw : v.WellFormed) (hf : v.HasFile st first size) {s : Fs}
    (hs : v.Reads st s) {f : Ufile} (hat : v.At st first size f) {len turns : Nat}
    {dst : List UInt8} (hdst : dst.length ≤ len) (hin : f.pos + (len - dst.length) ≤ size)
    (hturns : len - dst.length < turns) :
    ∃ f' s', onDisk st.disk (readLoop len turns dst f s)
        = some (dst ++ v.fileBytes st first f.pos (len - dst.length), f', s')
      ∧ v.Reads st s' ∧ v.At st first size f' ∧ f'.pos = f.pos + (len - dst.length) := by
  induction turns generalizing s f dst with
  | zero => exact absurd hturns (Nat.not_lt_zero _)
  | succ turns ih =>
      by_cases hmore : dst.length < len
      · obtain ⟨f₁, s₁, hfetch, hs₁, hat₁, hpos₁, hfrom, hto⟩ :=
          fetch_volume hw hf hs hat (by omega)
        rw [← hpos₁] at hfrom hto
        obtain ⟨n, f₂, htake, hn, hle, hat₂, hpos₂⟩ := takeBuf_volume hf.small hat₁ hfrom hto
          (show 0 < len - dst.length by omega) (by omega)
        have hlen : (dst ++ v.fileBytes st first f₁.pos n).length = dst.length + n := by
          rw [List.length_append, fileBytes_length]
        have hrest : len - (dst.length + n) = len - dst.length - n := by omega
        obtain ⟨f', s', hres, hs', hat', hpos'⟩ := @ih s₁ hs₁ f₂ hat₂
          (dst ++ v.fileBytes st first f₁.pos n) (by omega) (by omega) (by omega)
        refine ⟨f', s', ?_, hs', hat', ?_⟩
        · rw [readLoop_succ hmore, hfetch, if_pos rfl, htake, hres, hlen, hrest,
            List.append_assoc, hpos₂, fileBytes_append, hpos₁,
            show n + (len - dst.length - n) = len - dst.length by omega]
        · rw [hpos', hlen, hpos₂, hpos₁]
          omega
      · have hfull : len - dst.length = 0 := by omega
        refine ⟨f, s, ?_, hs, hat, by rw [hfull]; rfl⟩
        unfold readLoop
        rw [if_neg hmore, onDisk_pure, hfull]
        simp [fileBytes]

/-- One read. -/
theorem read_volume (hw : v.WellFormed) (hf : v.HasFile st first size) {s : Fs}
    (hs : v.Reads st s) {f : Ufile} (hat : v.At st first size f) {len turns : Nat}
    (hturns : min len (size - f.pos) < turns) :
    ∃ f' s', onDisk st.disk (ufsRead turns f len s)
        = some (v.fileBytes st first f.pos (min len (size - f.pos)), f', s')
      ∧ v.Reads st s' ∧ v.At st first size f' ∧ f'.pos = f.pos + min len (size - f.pos) := by
  have hpos := hat.pos
  have hsmall := hf.small
  have hleft : sub32 f.size f.pos = size - f.pos := by
    unfold ufsSector at hsmall
    rw [hat.sizeEq, sub32_of_le hpos (by omega)]
  have hlen : (if len > size - f.pos then size - f.pos else len) = min len (size - f.pos) := by
    split_ifs <;> omega
  unfold ufsRead
  rw [hleft, hlen]
  exact @readLoop_volume _ _ _ _ hw hf _ hs _ hat _ _ [] (Nat.zero_le _) (by simp; omega)
    (by simpa using hturns)

-- ============================================================ an open handle

theorem Reads.lookup {s : Fs} (hs : v.Reads st s) {turns : Nat} {path : List UInt8} {e : Udirent}
    {r : Lookup} (hres : onDisk st.disk (ufsLookup turns path e s) = some r) : v.Reads st r.s := by
  refine lookup_keeps (v.Reads st) ?_ ?_ hs hres
  · intro path len calls d e s r hs hscan
    have hstays := findLoop_stays (fun _ => hs.sees) hscan
    have hthere := hstays.kept (fun start count h => nomatch h) hs.sees.there
    exact ⟨hstays.steady hthere, hstays.geo.trans hs.geo⟩
  · intro s path len c hs
    obtain ⟨hsees, hgeo⟩ := dcachePut_sees hs.sees path len c
    exact ⟨hsees, hgeo.trans hs.geo⟩

/-- The volume is read after a mount and any lookups. -/
theorem reads_of_reached (hw : v.WellFormed) (hon : v.On st) {g : Geo} {s : Fs}
    (h : Reached st.disk g s) : v.Reads st s := by
  induction h with
  | mount hthere hempty hmount _ =>
      rw [mount_volume hw hon hthere, Prod.mk.injEq] at hmount
      rw [← hmount.2]
      exact ⟨⟨hthere, fun h => absurd hempty h⟩, rfl⟩
  | lookup _ _ hres ih => exact ih.lookup hres

/-- A handle of a file and the mount's state: opened by a path, then sought
and read any number of times, with lookups for others in between. -/
inductive Handles (v : Volume) (st : Stick) : (first size : Nat) → Ufile → Fs → Prop
  | opened {s s' : Fs} {turns : Nat} {path : List UInt8} {e : Udirent} {f : Ufile}
      (hs : Reached st.disk v.geo s)
      (hopen : onDisk st.disk (ufsOpen turns path e s) = some (some f, s')) :
      Handles v st f.first f.size f s'
  | seek {first size : Nat} {f : Ufile} {s : Fs} (h : Handles v st first size f s) (pos : Nat) :
      Handles v st first size (ufsSeek f pos) s
  | read {first size : Nat} {f f' : Ufile} {s s' : Fs} {turns len : Nat} {dst : List UInt8}
      (h : Handles v st first size f s)
      (hres : onDisk st.disk (ufsRead turns f len s) = some (dst, f', s')) :
      Handles v st first size f' s'
  | lookup {first size : Nat} {f : Ufile} {s : Fs} {turns : Nat} {path : List UInt8}
      {e : Udirent} {r : Lookup} (h : Handles v st first size f s)
      (hres : onDisk st.disk (ufsLookup turns path e s) = some r) :
      Handles v st first size f r.s

theorem readLoop_more {disk : Disk} {len turns : Nat} {dst : List UInt8} {f : Ufile} {s : Fs}
    {r : List UInt8 × Ufile × Fs} (h : onDisk disk (readLoop len turns dst f s) = some r) :
    onDisk disk (readLoop len (turns + 1) dst f s) = some r := by
  induction turns generalizing dst f s with
  | zero => exact nomatch h
  | succ turns ih =>
      by_cases hmore : dst.length < len
      · rw [readLoop_succ hmore] at h ⊢
        cases hok : (onDisk disk (fetch f s)).1 with
        | false =>
            rw [hok, if_neg (by decide)] at h
            exact h
        | true =>
            rw [hok, if_pos rfl] at h
            exact ih h
      · unfold readLoop at h ⊢
        rwa [if_neg hmore] at h ⊢

/-- More turns do not change what a read gives. -/
theorem read_more {disk : Disk} {len turns turns' : Nat} (hle : turns ≤ turns') {f : Ufile} {s : Fs}
    {r : List UInt8 × Ufile × Fs} (h : onDisk disk (ufsRead turns f len s) = some r) :
    onDisk disk (ufsRead turns' f len s) = some r := by
  induction hle with
  | refl => exact h
  | step _ ih => exact readLoop_more ih

/-- The handle is one of the file, wherever it is. -/
theorem Handles.at (hw : v.WellFormed) (hon : v.On st) (hf : v.HasFile st first size) {f : Ufile}
    {s : Fs} (h : v.Handles st first size f s) : v.Reads st s ∧ v.At st first size f := by
  induction h with
  | @opened s s' turns path e f hs hopen =>
      unfold ufsOpen at hopen
      rw [onDisk_bind] at hopen
      cases hlook : onDisk st.disk (ufsLookup turns path e s) with
      | none =>
          rw [hlook] at hopen
          exact nomatch hopen
      | some r =>
          rw [hlook] at hopen
          dsimp only at hopen
          split at hopen
          · exact nomatch hopen
          · simp only [onDisk_pure, Option.some.injEq, Prod.mk.injEq] at hopen
            obtain ⟨rfl, rfl⟩ := hopen
            refine ⟨(reads_of_reached hw hon hs).lookup hlook, rfl, rfl, Nat.zero_le _, rfl, ?_, ?_⟩
            · intro i hi
              exact absurd hi (Nat.not_lt_zero i)
            · exact (by decide : 0 + 0 < 2 ^ 32)
  | seek _ pos ih =>
      obtain ⟨hs, hat⟩ := ih hf
      refine ⟨hs, hat.sizeEq, hat.firstEq, ?_, hat.place, hat.buf, hat.wrap⟩
      have hsize := hat.sizeEq
      unfold ufsSeek
      dsimp only
      split_ifs <;> omega
  | @read first size f f' s s' turns len dst _ hres ih =>
      obtain ⟨hs, hat⟩ := ih hf
      obtain ⟨f₁, s₁, hread, hs₁, hat₁, -⟩ := @read_volume _ _ _ _ hw hf _ hs _ hat len
        (turns + len + 1) (by omega)
      have hmore := @read_more _ _ _ (turns + len + 1) (by omega) _ _ _ hres
      rw [hread] at hmore
      simp only [Option.some.injEq, Prod.mk.injEq] at hmore
      obtain ⟨-, rfl, rfl⟩ := hmore
      exact ⟨hs₁, hat₁⟩
  | lookup _ hres ih =>
      obtain ⟨hs, hat⟩ := ih hf
      exact ⟨hs.lookup hres, hat⟩

/-- A volume is mounted as it is, and of a file that is on it a read gives
the bytes from its position on, as many as asked for or left. -/
theorem read_faithful (hw : v.WellFormed) (hon : v.On st) (hf : v.HasFile st first size)
    {f : Ufile} {s : Fs} (hh : v.Handles st first size f s) {len turns : Nat}
    (hturns : min len (size - f.pos) < turns) :
    (∀ s, s.lost = false → onDisk st.disk (ufsMount s) = (true, v.mounted s))
      ∧ f.pos ≤ size
      ∧ ∃ f' s', onDisk st.disk (ufsRead turns f len s)
          = some (v.fileBytes st first f.pos (min len (size - f.pos)), f', s')
        ∧ f'.pos = f.pos + min len (size - f.pos) := by
  obtain ⟨hs, hat⟩ := hh.at hw hon hf
  obtain ⟨f', s', hres, -, -, hpos⟩ := read_volume hw hf hs hat hturns
  exact ⟨fun s hthere => mount_volume hw hon hthere, hat.pos, f', s', hres, hpos⟩

-- =========================================================== a small volume

/-- A FAT16 boot sector: 32 FAT sectors, one root sector, clusters of a
sector from sector 34 on. -/
def textBoot : List UInt8 :=
  [0xeb] ++ .replicate 11 0 ++ [2, 1, 1, 0, 1, 16, 0, 0, 0x20, 0, 32] ++ .replicate 31 0
    ++ [0x46, 0x41, 0x54] ++ .replicate 453 0 ++ [0x55, 0xaa]

/-- A file "B" of three bytes, in cluster 2. -/
def textEntry : List UInt8 :=
  [0x42] ++ .replicate 10 0x20 ++ [0x20] ++ .replicate 14 0 ++ [2, 0] ++ [3, 0, 0, 0]

def textSector (i : Nat) : List UInt8 :=
  if i = 0 then textBoot
  else if i = 33 then sectorOf [textEntry]
  else if i = 34 then [0x61, 0x62, 0x63] ++ .replicate 509 0
  else .replicate 512 0

def textStick : Stick where
  sector := textSector
  length := by
    intro i
    unfold textSector
    split_ifs
    · decide +kernel
    · decide +kernel
    · decide +kernel
    · exact List.length_replicate

def textVolume : Volume :=
  { part := 0, spc := 1, rsvd := 1, nfats := 1, rootents := 16, totsec := 0x2000, fatsz := 32
    rootClus := 0 }

theorem textVolume_wellFormed : textVolume.WellFormed := by
  constructor
  all_goals decide +kernel

theorem textVolume_on : textVolume.On textStick := by
  refine .floppy rfl ?_ ?_ ?_ ⟨?_, ?_, ?_, ?_, ?_, ?_, ?_, ?_⟩
  all_goals decide +kernel

theorem textFile : textVolume.HasFile textStick 2 3 := by
  refine ⟨by decide, fun k hk => ?_⟩
  have h512 : textVolume.clusBytes = 512 := rfl
  have hk0 : k = 0 := by
    rw [h512] at hk
    omega
  rw [hk0]
  have hclus : 2 < textVolume.clusters + 2 := by decide +kernel
  exact ⟨le_refl 2, hclus, by decide⟩

def textGeo : Geo :=
  { spc := 1, fatStart := 1, rootStart := 33, rootSectors := 1, dataStart := 34, clusBytes := 512 }

theorem textVolume_geo : textVolume.geo = textGeo := by
  have h16 : textVolume.fat32 = false := by decide +kernel
  unfold geo
  rw [h16]
  rfl

theorem textGeo_sound : textGeo.Sound := by
  intro c
  simp only [fatPlace, textGeo, Bool.false_eq_true, if_false, ufsSector, u32, noSector]
  omega

theorem text_root : rawStep textStick.disk textGeo { clus := 0 }
    = .more ((sectorOf [textEntry]).take 32)
        { clus := 0, secIdx := 1, ent := 1, nent := 16, buf := sectorOf [textEntry] } := by
  have hread : textStick.disk 33 1 = some (sectorOf [textEntry]) :=
    congrArg some (textStick.read_one 33)
  have hload : rawStep textStick.disk textGeo { clus := 0 }
      = rawLoad textStick.disk { clus := 0 } 33 1 := rfl
  rw [hload]
  unfold rawLoad
  simp only [dirSectors, gt_iff_lt, Nat.not_lt.mpr (by decide : 1 ≤ 16), if_false, hread]
  rfl

theorem turn_text (e : Udirent) : dirTurn false textEntry e false
    = .entry { name := putName e.name 0 [0x42, 0], attr := 0x20, size := 3, first := 2 } := rfl

theorem text_finds (e : Udirent) :
    Finds textStick.disk textGeo [0x42] { clus := 0 } e false
      { found := true, lost := false
        e := { name := putName e.name 0 [0x42, 0], attr := 0x20, size := 3, first := 2 } } := by
  refine .found text_root (turn_text e) ?_
  rw [nameEq_iff]
  refine ⟨fun i hi => ?_, rfl⟩
  obtain rfl : i = 0 := by simpa using hi
  exact ⟨(by decide : (0x42 : UInt8) ≠ 0), rfl⟩

theorem text_mount (s : Fs) (hthere : s.lost = false) :
    onDisk textStick.disk (ufsMount s) = (true, textVolume.mounted s) :=
  mount_volume textVolume_wellFormed textVolume_on hthere

theorem text_reached : Reached textStick.disk textVolume.geo (textVolume.mounted {}) :=
  .mount rfl rfl (text_mount {} rfl) rfl

theorem text_ufsOpen : ∃ n s, onDisk textStick.disk
    (ufsOpen n [0x42] { name := fun _ => 0 } (textVolume.mounted {}))
      = some (some { size := 3, first := 2, clus := 2 }, s) := by
  have hreads := reads_of_reached textVolume_wellFormed textVolume_on text_reached
  obtain ⟨n, hn⟩ := @findLoop_of_finds _ [0x42] 1 _ _ _ _
    (text_finds (startEntry { name := fun _ => 0 } 0)) textGeo_sound (le_refl 1)
  obtain ⟨d, s, hloop, -⟩ := hn n (le_refl n) _ hreads.sees (hreads.geo.trans textVolume_geo)
  have hwalk := @walkLoop_single _ n [0x42] 0x42 [] (by decide) 0 _ rfl _ _ hloop rfl
  have hlook : ufsLookup n [0x42] { name := fun _ => 0 } (textVolume.mounted {})
      = walkLoop n [0x42] [0x42] 0 (startEntry { name := fun _ => 0 } 0) (textVolume.mounted {}) := by
    unfold ufsLookup
    rw [hreads.geo, textVolume_geo]
    rfl
  refine ⟨n, ?_⟩
  unfold ufsOpen
  rw [onDisk_bind, hlook, hwalk]
  exact ⟨_, rfl⟩

/-- The file, opened by its name. -/
theorem text_open : ∃ s, textVolume.Handles textStick 2 3 { size := 3, first := 2, clus := 2 } s := by
  obtain ⟨n, s, hopen⟩ := text_ufsOpen
  exact ⟨s, .opened text_reached hopen⟩

/-- A seek and a read of it. -/
theorem read_faithful_text : ∃ f s f' s',
    textVolume.Handles textStick 2 3 f s ∧ f.pos = 1
      ∧ onDisk textStick.disk (ufsRead 6 f 5 s) = some ([0x62, 0x63], f', s') ∧ f'.pos = 3 := by
  obtain ⟨s, hopen⟩ := text_open
  obtain ⟨-, -, f', s', hres, hpos⟩ :=
    @read_faithful _ _ _ _ textVolume_wellFormed textVolume_on textFile _ _ (.seek hopen 1) 5 6
      (by decide)
  have hbytes : textVolume.fileBytes textStick 2 1 2 = [0x62, 0x63] := by decide +kernel
  exact ⟨_, s, f', s', .seek hopen 1, rfl, hres.trans (by rw [← hbytes]; rfl), hpos⟩

end Volume

end Ncmips.Usbfat
