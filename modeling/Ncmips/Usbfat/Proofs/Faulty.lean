/-
What a failed transfer leaves behind in an open handle.

A handle is in order (`Volume.At`) when its place in the chain and the
window in its buffer are the file's. Seeks and whole reads keep it so; a
read in which a transfer fails keeps it so if the chain is followed to its
end and the bytes of the window stay (`LoadOk`), and otherwise may not.
-/
import Ncmips.Usbfat.Faulty
import Ncmips.Usbfat.Proofs.Read

namespace Ncmips.Usbfat.Faulty

open Bits (byteAt)

-- ============================================================ runs of a handle

section

variable (st : Stick) (faults : Faults)

/-- `P` holds before each `ufs_load` of a read: of the handle, the mount's
state and the number of the next transfer. -/
def EachLoad (P : Ufile → Fs → Nat → Prop) (len : Nat) :
    (turns : Nat) → List UInt8 → Ufile → Fs → Nat → Prop
  | 0, _, _, _, _ => True
  | turns + 1, dst, f, s, t =>
      dst.length < len →
        (f.outside = true → P f s t)
          ∧ ∀ f' s' t', faced st faults (fetch f s) t = ((true, f', s'), t') →
            EachLoad P len turns (dst ++ (f'.takeBuf (len - dst.length)).1)
              (f'.takeBuf (len - dst.length)).2 s' t'

/-- A handle of a file, the mount's state and the number of the next
transfer, after any seeks and reads each of whose loads satisfied `P`. -/
inductive Run (v : Volume) (P : Ufile → Fs → Nat → Prop) (first size : Nat) :
    Ufile → Fs → Nat → Prop
  | opened {s : Fs} {t : Nat} (hs : v.Reads st s) :
      Run v P first size { size, first, clus := first } s t
  | seek {f : Ufile} {s : Fs} {t : Nat} (h : Run v P first size f s t) (pos : Nat) :
      Run v P first size (ufsSeek f pos) s t
  | read {f f' : Ufile} {s s' : Fs} {t t' turns len : Nat} {dst : List UInt8}
      (h : Run v P first size f s t) (hP : EachLoad st faults P (wanted f len) turns [] f s t)
      (hres : faced st faults (ufsRead turns f len s) t = (some (dst, f', s'), t')) :
      Run v P first size f' s' t'
  /-- The stick is found to be gone. -/
  | gone {f : Ufile} {s : Fs} {t : Nat} (h : Run v P first size f s t) :
      Run v P first size f { s with lost := true } t
  /-- The stick is to be mounted again. -/
  | again {f : Ufile} {s : Fs} {t : Nat} (h : Run v P first size f s t) :
      Run v P first size f { s with lost := false, fatCached := noSector } t

/-- FAT sectors that are needed one after another can be had: from the
cache, if no failed transfer has spoilt it, or by transfers that do not
fail. -/
def Comes : (secs : List Nat) → Nat → Fs → Prop
  | [], _, _ => True
  | sec :: secs, t, s =>
      if sec = s.fatCached then s.fatsec = st.sector sec ∧ Comes secs t s
      else s.lost = false ∧ faults t .fatsec = none
        ∧ Comes secs (t + 1) { s with fatsec := st.sector sec, fatCached := sec }

/-- The FAT sectors with the entries of a file's clusters, `n` of them from
number `k` on. -/
def chainSectors (v : Volume) (first k n : Nat) : List Nat :=
  (List.range n).map fun i => (fatPlace v.geo (v.chain st first (k + i))).1

/-- The cluster from which the chain is followed. -/
def startIdx (v : Volume) (f : Ufile) : Nat :=
  if f.pos / v.clusBytes < f.clusIdx then 0 else f.clusIdx

/-- When a load leaves a handle in order: the chain can be followed to the
position's cluster, and if the transfer of the data fails, the bytes of the
window stay as they were. -/
structure LoadOk (v : Volume) (f : Ufile) (s : Fs) (t : Nat) : Prop where
  chain : Comes st faults
    (chainSectors st v f.first (startIdx v f) (f.pos / v.clusBytes - startIdx v f)) t s
  window : ∀ i, t ≤ i → i < (faced st faults (ufsLoad f s) t).2 → ∀ left,
    faults i .cbuf = some left → ∀ k < f.clen, byteAt left k = byteAt f.cbuf k

end

-- ================================================================ transfers

section

variable {α β : Type} (st : Stick) (faults : Faults)

@[simp] theorem faced_pure (a : α) (t : Nat) : faced st faults (pure a) t = (a, t) := rfl

theorem faced_bind (p : Io α) (f : α → Io β) (t : Nat) :
    faced st faults (p >>= f) t = faced st faults (f (faced st faults p t).1) (faced st faults p t).2 :=
  Prog.evalAt_bind _ _ _ _

theorem le_faced (p : Io α) (t : Nat) : t ≤ (faced st faults p t).2 := Prog.le_evalAt _ _ _

theorem faced_sectors (s : Fs) (start count : Nat) (dst : Dst) (buf : List UInt8) (t : Nat) :
    faced st faults (ufsSectors s start count dst buf) t
      = if s.lost then ((false, buf, s), t)
        else match faults t dst with
          | none => ((true, st.read start count, s), t + 1)
          | some left => ((false, left, { s with lost := true }), t + 1) := by
  unfold ufsSectors
  cases s.lost with
  | true => rfl
  | false =>
      simp only [Bool.false_eq_true, if_false, faced_bind]
      have hask : faced st faults (.ask { start, count, dst }) t
          = (reply st faults t { start, count, dst }, t + 1) := rfl
      rw [hask]
      unfold reply
      dsimp only
      cases faults t dst with
      | none => rfl
      | some left => rfl

end

variable {v : Volume} {st : Stick} {faults : Faults} {first size : Nat}

/-- The mount's state: true of the stick, unless it is lost. -/
structure Kept (v : Volume) (st : Stick) (s : Fs) : Prop where
  geo : s.geo = v.geo
  steady : s.Steady st.disk

theorem Kept.lose {s : Fs} (h : Kept v st s) (fatsec : List UInt8) :
    Kept v st { s with lost := true, fatsec } := ⟨h.geo, .lost rfl⟩

theorem Kept.cache {s : Fs} (h : Kept v st s) (hthere : s.lost = false) (sec : Nat) :
    Kept v st { s with fatsec := st.read sec 1, fatCached := sec } :=
  ⟨h.geo, fun _ => ⟨hthere, fun _ => rfl⟩⟩

theorem Kept.reads {s : Fs} (h : Kept v st s) (hthere : s.lost = false) : v.Reads st s :=
  ⟨h.steady hthere, h.geo⟩

/-- What a FAT entry's sector says. -/
theorem fatValue_volume (hw : v.WellFormed) {c : Nat} (hc : v.Near c) :
    fatValue v.geo.fat32 (st.sector (fatPlace v.geo c).1) (fatPlace v.geo c).2 = v.next st c := by
  have hread := @Volume.fatRead_volume _ st hw _ hc
  unfold fatRead Stick.disk at hread
  rwa [Option.map_some, Stick.read_one, Option.some.injEq] at hread

theorem cached_volume (hw : v.WellFormed) {s : Fs} (hk : Kept v st s) (hthere : s.lost = false)
    {c : Nat} (hc : v.Near c) (hsame : (fatPlace v.geo c).1 = s.fatCached) :
    s.fatsec = st.sector s.fatCached := by
  have hmark : s.fatCached ≠ noSector := by
    rw [← hsame, (Volume.fatPlace_volume hw hc).1]
    exact Nat.ne_of_lt (Volume.fatPlace_volume hw hc).2
  have hcached := (hk.steady hthere).cached hmark
  unfold Stick.disk at hcached
  rw [Stick.read_one, Option.some.injEq] at hcached
  exact hcached.symm

/-- A FAT entry, with transfers that may fail: if the stick is there
afterwards, it is the right one. -/
theorem fatNext_faced (hw : v.WellFormed) {s : Fs} (hk : Kept v st s) {c : Nat} (hc : v.Near c)
    (t : Nat) : ∃ n s' t', faced st faults (ufsFatNext s c) t = ((n, s'), t') ∧ Kept v st s'
      ∧ (s'.lost = false → s.lost = false ∧ n = v.next st c) := by
  unfold ufsFatNext
  dsimp only
  rw [hk.geo]
  by_cases hsame : (fatPlace v.geo c).1 = s.fatCached
  · rw [if_neg (not_not.mpr hsame)]
    refine ⟨_, s, t, rfl, hk, fun hthere => ⟨hthere, ?_⟩⟩
    rw [cached_volume hw hk hthere hc hsame, ← hsame, fatValue_volume hw hc]
  · rw [if_pos hsame, faced_bind, faced_sectors]
    cases hlost : s.lost with
    | true =>
        rw [if_pos rfl]
        exact ⟨_, _, _, rfl, ⟨hk.geo, .lost hlost⟩, fun h => nomatch hlost.symm.trans h⟩
    | false =>
        rw [if_neg (by decide)]
        cases faults t .fatsec with
        | some left => exact ⟨_, _, _, rfl, hk.lose left, fun h => nomatch h⟩
        | none =>
            refine ⟨_, _, _, rfl, hk.cache hlost _, fun _ => ⟨rfl, ?_⟩⟩
            rw [hk.geo, Stick.read_one, fatValue_volume hw hc]

/-- A FAT entry whose sector can be had. -/
theorem fatNext_comes (hw : v.WellFormed) {s : Fs} (hk : Kept v st s) {c : Nat} (hc : v.Near c)
    {secs : List Nat} {t : Nat} (hcomes : Comes st faults ((fatPlace v.geo c).1 :: secs) t s) :
    ∃ s' t', faced st faults (ufsFatNext s c) t = ((v.next st c, s'), t') ∧ Kept v st s'
      ∧ s'.lost = s.lost ∧ Comes st faults secs t' s' := by
  unfold ufsFatNext
  unfold Comes at hcomes
  dsimp only
  rw [hk.geo]
  by_cases hsame : (fatPlace v.geo c).1 = s.fatCached
  · rw [if_pos hsame] at hcomes
    rw [if_neg (not_not.mpr hsame)]
    refine ⟨s, t, ?_, hk, rfl, hcomes.2⟩
    rw [hcomes.1, fatValue_volume hw hc]
    rfl
  · rw [if_neg hsame] at hcomes
    obtain ⟨hlost, hgood, hrest⟩ := hcomes
    rw [if_pos hsame, faced_bind, faced_sectors, hlost, if_neg (by decide), hgood]
    refine ⟨_, t + 1, ?_, hk.cache hlost (fatPlace v.geo c).1, hlost, ?_⟩
    · dsimp only
      rw [hk.geo, Stick.read_one, fatValue_volume hw hc]
      rfl
    · rw [Stick.read_one]
      exact hrest

theorem chainSectors_succ (k n : Nat) : chainSectors st v first k (n + 1)
    = (fatPlace v.geo (v.chain st first k)).1 :: chainSectors st v first (k + 1) n := by
  unfold chainSectors
  rw [List.range_succ_eq_map, List.map_cons, List.map_map, Nat.add_zero]
  congr 1
  apply List.map_congr_left
  intro i _
  rw [Function.comp_apply, show k + i.succ = k + 1 + i by omega]

/-- Following the chain over sectors that can be had. -/
theorem skip_comes (hw : v.WellFormed) (hf : v.HasFile st first size) {s : Fs} (hk : Kept v st s)
    {f : Ufile} (hplace : f.clus = v.chain st first f.clusIdx) {n t : Nat}
    (hn : (f.clusIdx + n) * v.clusBytes < size)
    (hcomes : Comes st faults (chainSectors st v first f.clusIdx n) t s) :
    ∃ s' t', faced st faults (skipClusters n f s) t
        = ((true, { f with clus := v.chain st first (f.clusIdx + n), clusIdx := f.clusIdx + n }, s'), t')
      ∧ Kept v st s' := by
  induction n generalizing f s t with
  | zero =>
      refine ⟨s, t, ?_, hk⟩
      unfold skipClusters
      rw [faced_pure, Nat.add_zero, ← hplace]
  | succ n ih =>
      have hle (k : Nat) (hk : k ≤ f.clusIdx + (n + 1)) : k * v.clusBytes < size :=
        lt_of_le_of_lt (Nat.mul_le_mul_right _ hk) hn
      have hhere := hf.clus (hle f.clusIdx (by omega))
      have hthere := hf.clus (hle (f.clusIdx + 1) (by omega))
      have hnext : v.next st f.clus = v.chain st first (f.clusIdx + 1) := by
        rw [hplace]
        exact Volume.next_of_clus hthere
      rw [chainSectors_succ, ← hplace] at hcomes
      rw [← hplace] at hhere
      obtain ⟨s₁, t₁, hfat, hk₁, -, hcomes₁⟩ := fatNext_comes hw hk hhere.near hcomes
      obtain ⟨s', t', hres, hk'⟩ := @ih s₁ hk₁
        { f with clus := v.chain st first (f.clusIdx + 1), clusIdx := f.clusIdx + 1 } rfl t₁
        (show (f.clusIdx + 1 + n) * v.clusBytes < size from hle _ (by omega)) hcomes₁
      refine ⟨s', t', ?_, hk'⟩
      unfold skipClusters
      rw [faced_bind, hfat, hnext]
      dsimp only
      rw [hthere.eoc, if_neg (by decide), hres]
      dsimp only
      rw [show f.clusIdx + 1 + n = f.clusIdx + (n + 1) by omega]

/-- Clusters that are merged follow each other, if the stick is still
there. -/
theorem merge_faced (hw : v.WellFormed) {s : Fs} (hk : Kept v st s) {turns c count t : Nat}
    (hc : ∀ i < turns, v.Near (c + i)) :
    ∃ n s' t', faced st faults (mergeClusters turns c count s) t = ((n, s'), t') ∧ Kept v st s'
      ∧ (s'.lost = false → s.lost = false ∧ ∃ j, n = count + j * v.spc
        ∧ ∀ i < j, v.next st (c + i) = c + i + 1) := by
  have hnone {s : Fs} (hthere : s.lost = false) : s.lost = false ∧ ∃ j, count = count + j * v.spc
      ∧ ∀ i < j, v.next st (c + i) = c + i + 1 :=
    ⟨hthere, 0, by rw [Nat.zero_mul, Nat.add_zero], fun i hi => absurd hi (Nat.not_lt_zero _)⟩
  induction turns generalizing c count s t with
  | zero => exact ⟨count, s, t, rfl, hk, hnone⟩
  | succ turns ih =>
      unfold mergeClusters
      by_cases hfull : count < chunkSectors
      · have hnear := hc 0 (by omega)
        rw [Nat.add_zero] at hnear
        obtain ⟨n₁, s₁, t₁, hfat, hk₁, hright⟩ := @fatNext_faced _ _ faults hw _ hk _ hnear t
        rw [if_pos hfull, faced_bind, hfat]
        dsimp only
        have hwrap : u32 (c + 1) = c + 1 := by
          obtain ⟨-, hmax⟩ := hnear
          unfold chunkSectors at hmax
          exact Volume.u32_of_lt (by omega)
        rw [hwrap]
        by_cases hnext : n₁ = c + 1
        · rw [if_neg (not_not.mpr hnext)]
          have hc₁ : ∀ i < turns, v.Near (c + 1 + i) := fun i hi => by
            rw [show c + 1 + i = c + (i + 1) by omega]
            exact hc (i + 1) (by omega)
          obtain ⟨n, s', t', hres, hk', hrun⟩ := @ih s₁ hk₁ (c + 1) (count + s₁.geo.spc) t₁ hc₁
            (fun hthere => ⟨hthere, 0, by rw [Nat.zero_mul, Nat.add_zero],
              fun i hi => absurd hi (Nat.not_lt_zero _)⟩)
          refine ⟨n, s', t', hres, hk', fun hthere => ?_⟩
          obtain ⟨hthere₁, j, hn, hj⟩ := hrun hthere
          obtain ⟨hthere₀, hvalue⟩ := hright hthere₁
          refine ⟨hthere₀, j + 1, ?_, fun i hi => ?_⟩
          · have hspc : s₁.geo.spc = v.spc := by rw [hk₁.geo]; rfl
            rw [hn, hspc, Nat.succ_mul]
            omega
          · cases i with
            | zero => exact hvalue.symm.trans hnext
            | succ i =>
                have hstep := hj i (by omega)
                rw [show c + (i + 1) = c + 1 + i by omega]
                exact hstep
        · rw [if_pos hnext]
          exact ⟨count, s₁, t₁, rfl, hk₁, fun hthere => ⟨(hright hthere).1, (hnone hthere).2⟩⟩
      · rw [if_neg hfull]
        exact ⟨count, s, t, rfl, hk, hnone⟩

-- =================================================================== a load

/-- The cluster part of a load whose chain can be followed. -/
theorem cluster_comes (hw : v.WellFormed) (hf : v.HasFile st first size) {s : Fs} (hk : Kept v st s)
    {f : Ufile} (hat : v.At st first size f) (hpos : f.pos < size) {t : Nat}
    (hcomes : Comes st faults (chainSectors st v f.first (startIdx v f)
      (f.pos / v.clusBytes - startIdx v f)) t s) :
    ∃ s' t', faced st faults (loadCluster f s) t
        = ((true, { f with clus := v.chain st first (f.pos / v.clusBytes)
                           clusIdx := f.pos / v.clusBytes }, s'), t')
      ∧ Kept v st s' := by
  have hidx : f.pos / v.clusBytes * v.clusBytes < size :=
    lt_of_le_of_lt (Nat.div_mul_le_self _ _) hpos
  have hclus := hf.clus hidx
  have hbytes : s.geo.clusBytes = v.clusBytes := by rw [hk.geo]; rfl
  rw [hat.firstEq] at hcomes
  unfold startIdx at hcomes
  unfold loadCluster
  dsimp only
  rw [hbytes]
  by_cases hback : f.pos / v.clusBytes < f.clusIdx
  · rw [if_pos hback] at hcomes ⊢
    obtain ⟨s', t', hskip, hk'⟩ := skip_comes hw hf hk (f := { f with clus := f.first, clusIdx := 0 })
      hat.firstEq (n := f.pos / v.clusBytes) (by rw [Nat.zero_add]; exact hidx) hcomes
    dsimp only at hskip
    rw [Nat.zero_add] at hskip
    refine ⟨s', t', ?_, hk'⟩
    rw [Nat.sub_zero, faced_bind, hskip]
    dsimp only
    rw [hclus.eoc]
    rfl
  · rw [if_neg hback] at hcomes ⊢
    have hsum : f.clusIdx + (f.pos / v.clusBytes - f.clusIdx) = f.pos / v.clusBytes := by omega
    obtain ⟨s', t', hskip, hk'⟩ := skip_comes hw hf hk hat.place (by rw [hsum]; exact hidx) hcomes
    rw [hsum] at hskip
    refine ⟨s', t', ?_, hk'⟩
    rw [faced_bind, hskip]
    dsimp only
    rw [hclus.eoc]
    rfl

/-- What a load that leaves the handle in order comes to. -/
structure Loaded (v : Volume) (st : Stick) (first size : Nat) (f f' : Ufile) (s' : Fs) (ok : Bool) :
    Prop where
  kept : Kept v st s'
  at_ : v.At st first size f'
  pos : f'.pos = f.pos
  inside : ok = true → f'.cstart ≤ f.pos ∧ f.pos < f'.cstart + f'.clen

theorem load_ok (hw : v.WellFormed) (hf : v.HasFile st first size) {s : Fs} (hk : Kept v st s)
    {f : Ufile} (hat : v.At st first size f) (hpos : f.pos < size) {t : Nat}
    (hok : LoadOk st faults v f s t) :
    ∃ ok f' s' t', faced st faults (ufsLoad f s) t = ((ok, f', s'), t')
      ∧ Loaded v st first size f f' s' ok := by
  obtain ⟨s₁, t₁, hcluster, hk₁⟩ := cluster_comes hw hf hk hat hpos hok.chain
  have hclus := hf.clus (lt_of_le_of_lt (Nat.div_mul_le_self f.pos v.clusBytes) hpos)
  have hsecIn : f.pos % s.geo.clusBytes / ufsSector = f.pos / ufsSector % v.spc := by
    rw [hk.geo]
    exact Nat.mod_mul_left_div_self _ _ _
  have hsecLt : f.pos / ufsSector % v.spc < v.spc := Nat.mod_lt _ hw.spc
  have hwindow := hok.window
  have hload : faced st faults (ufsLoad f s) t
      = faced st faults (loadChunk { f with clus := v.chain st first (f.pos / v.clusBytes)
                                            clusIdx := f.pos / v.clusBytes }
          (f.pos / ufsSector % v.spc) s₁) t₁ := by
    unfold ufsLoad
    dsimp only
    rw [faced_bind, hcluster, hsecIn]
  have ht₁ : t ≤ t₁ := by
    have hle := le_faced st faults (loadCluster f s) t
    rwa [hcluster] at hle
  rw [hload] at hwindow ⊢
  generalize hf₁ : ({ f with clus := v.chain st first (f.pos / v.clusBytes)
                             clusIdx := f.pos / v.clusBytes } : Ufile) = f₁ at hwindow ⊢
  have hclus₁ : f₁.clus = v.chain st first (f.pos / v.clusBytes) := by rw [← hf₁]
  have hat₁ : v.At st first size f₁ := by
    rw [← hf₁]
    exact ⟨hat.sizeEq, hat.firstEq, hat.pos, rfl, hat.buf, hat.wrap⟩
  have hpos₁ : f₁.pos = f.pos := by rw [← hf₁]
  have hspc₁ : s₁.geo.spc = v.spc := by rw [hk₁.geo]; rfl
  obtain ⟨count, s₂, t₂, hmerge, hk₂, hrun⟩ := @merge_faced v st faults hw s₁ hk₁ chunkSectors
    f₁.clus (s₁.geo.spc - f.pos / ufsSector % v.spc) t₁ (fun i hi => by
      obtain ⟨-, hlt, hmax⟩ := hclus
      rw [hclus₁]
      exact ⟨by omega, by omega⟩)
  have ht₂ : t₁ ≤ t₂ := by
    have hle := le_faced st faults
      (mergeClusters chunkSectors f₁.clus (s₁.geo.spc - f.pos / ufsSector % v.spc) s₁) t₁
    rwa [hmerge] at hle
  unfold loadChunk at hwindow ⊢
  rw [faced_bind, hmerge] at hwindow ⊢
  dsimp only at hwindow ⊢
  rw [faced_bind, faced_sectors] at hwindow ⊢
  cases hlost : s₂.lost with
  | true =>
      rw [if_pos rfl]
      exact ⟨false, f₁, s₂, t₂, rfl, hk₂, hat₁, hpos₁, fun h => nomatch h⟩
  | false =>
      rw [hlost, if_neg (by decide)] at hwindow
      rw [if_neg (by decide)]
      obtain ⟨-, j, hcount, hj⟩ := hrun hlost
      cases hfault : faults t₂ .cbuf with
      | some left =>
          -- the bytes of the window are still the file's
          rw [hfault] at hwindow
          have hsame := hwindow t₂ (by omega) (Nat.lt_succ_self t₂) left hfault
          refine ⟨false, { f₁ with cbuf := left }, { s₂ with lost := true }, t₂ + 1, rfl,
            ⟨hk₂.geo, .lost rfl⟩, ⟨hat₁.sizeEq, hat₁.firstEq, hat₁.pos, hat₁.place, ?_, hat₁.wrap⟩, hpos₁,
            fun h => nomatch h⟩
          intro i hi hin
          have hlen : f₁.clen = f.clen := by rw [← hf₁]
          have hstart : f₁.cstart = f.cstart := by rw [← hf₁]
          dsimp only at hi hin ⊢
          rw [hlen] at hi
          rw [hstart] at hin ⊢
          rw [hsame i hi]
          exact hat.buf i hi hin
      | none =>
          rw [hclus₁] at hj
          rw [hspc₁] at hcount
          subst hcount
          obtain ⟨hsector, -⟩ := Volume.clusSector_volume hw hclus hsecLt
          rw [← hclus₁] at hsector
          obtain ⟨hat', hfrom, hto⟩ := Volume.chunk_at hw hf hat hpos hf₁.symm hj rfl
          rw [← hclus₁] at hat'
          refine ⟨true, _, s₂, t₂ + 1, rfl, hk₂, ?_, ?_, ?_⟩
          · rw [hk₂.geo, hsector]
            exact hat'
          · exact hpos₁
          · exact fun _ => ⟨hfrom, hto⟩

-- ===================================================== reads that go wrong

theorem start_at :
    v.At st first size { size, first, clus := first } := by
  refine ⟨rfl, rfl, Nat.zero_le _, rfl, fun i hi => absurd hi (Nat.not_lt_zero i), ?_⟩
  exact (by decide : 0 + 0 < 2 ^ 32)

theorem seek_at {f : Ufile} (hat : v.At st first size f) (pos : Nat) :
    v.At st first size (ufsSeek f pos) := by
  refine ⟨hat.sizeEq, hat.firstEq, ?_, hat.place, hat.buf, hat.wrap⟩
  have hsize := hat.sizeEq
  unfold ufsSeek
  dsimp only
  split_ifs <;> omega

/-- A turn's load, if it needs one. -/
theorem fetch_ok (hw : v.WellFormed) (hf : v.HasFile st first size) {s : Fs} (hk : Kept v st s)
    {f : Ufile} (hat : v.At st first size f) (hpos : f.pos < size) {t : Nat}
    (hok : f.outside = true → LoadOk st faults v f s t) :
    ∃ ok f' s' t', faced st faults (fetch f s) t = ((ok, f', s'), t')
      ∧ Loaded v st first size f f' s' ok := by
  unfold fetch
  cases hout : f.outside with
  | true => exact load_ok hw hf hk hat hpos (hok hout)
  | false =>
      unfold Ufile.outside at hout
      rw [decide_eq_false_iff_not, Volume.u32_of_lt hat.wrap] at hout
      exact ⟨true, f, s, t, rfl, hk, hat, rfl, fun _ => by omega⟩

theorem readLoop_ok (hw : v.WellFormed) (hf : v.HasFile st first size) {len turns : Nat}
    {dst : List UInt8} {f : Ufile} {s : Fs} {t : Nat} (hk : Kept v st s)
    (hat : v.At st first size f) (hroom : f.pos + (len - dst.length) ≤ size)
    (heach : EachLoad st faults (LoadOk st faults v) len turns dst f s t) {dst' : List UInt8}
    {f' : Ufile} {s' : Fs} {t' : Nat}
    (hres : faced st faults (readLoop len turns dst f s) t = (some (dst', f', s'), t')) :
    Kept v st s' ∧ v.At st first size f' := by
  induction turns generalizing dst f s t with
  | zero => exact nomatch congrArg Prod.fst hres
  | succ turns ih =>
      unfold readLoop at hres
      by_cases hmore : dst.length < len
      · rw [if_pos hmore, faced_bind] at hres
        obtain ⟨hload, hrest⟩ := heach hmore
        obtain ⟨ok, f₁, s₁, t₁, hfetch, hloaded⟩ := fetch_ok hw hf hk hat (by omega) hload
        rw [hfetch] at hres
        cases ok with
        | false =>
            simp only [Bool.not_false, if_true, faced_pure, Prod.mk.injEq, Option.some.injEq] at hres
            obtain ⟨⟨-, rfl, rfl⟩, -⟩ := hres
            exact ⟨hloaded.kept, hloaded.at_⟩
        | true =>
            simp only [Bool.not_true, Bool.false_eq_true, if_false] at hres
            obtain ⟨hfrom, hto⟩ := hloaded.inside rfl
            rw [← hloaded.pos] at hfrom hto
            have hwant : 0 < len - dst.length := by omega
            obtain ⟨n, f₂, htake, hn0, hle, hat₂, hpos₂⟩ := Volume.takeBuf_volume hf.small
              hloaded.at_ hfrom hto hwant (by rw [hloaded.pos]; exact hroom)
            have hnext := hrest f₁ s₁ t₁ hfetch
            rw [htake] at hres hnext
            refine ih hloaded.kept hat₂ ?_ hnext hres
            rw [List.length_append, Volume.fileBytes_length, hpos₂, hloaded.pos]
            omega
      · rw [if_neg hmore, faced_pure, Prod.mk.injEq, Option.some.injEq, Prod.mk.injEq,
          Prod.mk.injEq] at hres
        obtain ⟨⟨-, rfl, rfl⟩, -⟩ := hres
        exact ⟨hk, hat⟩

theorem wanted_eq (hsmall : size ≤ 2 ^ 32 - ufsSector) {f : Ufile} (hat : v.At st first size f)
    (len : Nat) : wanted f len = min len (size - f.pos) := by
  have hpos := hat.pos
  unfold wanted
  unfold ufsSector at hsmall
  rw [hat.sizeEq, Volume.sub32_of_le hpos (by omega)]
  split_ifs <;> omega

/-- The handle is in order all along. -/
theorem Run.inOrder (hw : v.WellFormed) (hf : v.HasFile st first size) {f : Ufile} {s : Fs} {t : Nat}
    (h : Run st faults v (LoadOk st faults v) first size f s t) :
    Kept v st s ∧ v.At st first size f := by
  induction h with
  | opened hs => exact ⟨⟨hs.geo, fun _ => hs.sees⟩, start_at⟩
  | seek _ pos ih => exact ⟨ih.1, seek_at ih.2 pos⟩
  | read _ heach hres ih =>
      obtain ⟨hk, hat⟩ := ih
      have hpos := hat.pos
      refine readLoop_ok hw hf hk hat ?_ heach hres
      rw [wanted_eq hf.small hat, List.length_nil]
      omega
  | @gone f s t _ ih => exact ⟨ih.1.lose s.fatsec, ih.2⟩
  | again _ ih => exact ⟨⟨ih.1.geo, fun _ => ⟨rfl, fun h => absurd rfl h⟩⟩, ih.2⟩

-- ====================================================== without failures

/-- No transfer from number `t` on fails. -/
def NoFaults (faults : Faults) (t : Nat) : Prop := ∀ i ≥ t, ∀ dst, faults i dst = none

theorem NoFaults.later {t t' : Nat} (h : NoFaults faults t) (hle : t ≤ t') : NoFaults faults t' :=
  fun i hi => h i (le_trans hle hi)

theorem sectors_same {t : Nat} (h : NoFaults faults t) (s : Fs) (start count : Nat) (dst : Dst)
    (buf : List UInt8) : (faced st faults (ufsSectors s start count dst buf) t).1
      = ((onDisk st.disk (Usbfat.ufsSectors s start count)).1.isSome,
          (onDisk st.disk (Usbfat.ufsSectors s start count)).1.getD buf,
          (onDisk st.disk (Usbfat.ufsSectors s start count)).2) := by
  rw [faced_sectors, h t (le_refl t) dst]
  unfold Usbfat.ufsSectors
  cases s.lost with
  | true => rfl
  | false => rfl

theorem fatNext_same {t : Nat} (h : NoFaults faults t) (s : Fs) (c : Nat) :
    (faced st faults (ufsFatNext s c) t).1 = onDisk st.disk (Usbfat.ufsFatNext s c) := by
  unfold ufsFatNext Usbfat.ufsFatNext
  dsimp only
  split
  · rw [faced_bind, onDisk_bind, sectors_same h]
    unfold Usbfat.ufsSectors
    cases s.lost with
    | true => rfl
    | false => rfl
  · rfl

theorem skip_same {t : Nat} (h : NoFaults faults t) (n : Nat) (f : Ufile) (s : Fs) :
    (faced st faults (skipClusters n f s) t).1 = onDisk st.disk (Usbfat.skipClusters n f s) := by
  induction n generalizing f s t with
  | zero => rfl
  | succ n ih =>
      unfold skipClusters Usbfat.skipClusters
      rw [faced_bind, onDisk_bind, fatNext_same h]
      dsimp only
      split
      · rfl
      · exact ih (h.later (le_faced _ _ _ _)) _ _

theorem merge_same {t : Nat} (h : NoFaults faults t) (turns c count : Nat) (s : Fs) :
    (faced st faults (mergeClusters turns c count s) t).1
      = onDisk st.disk (Usbfat.mergeClusters turns c count s) := by
  induction turns generalizing c count s t with
  | zero => rfl
  | succ turns ih =>
      unfold mergeClusters Usbfat.mergeClusters
      split
      · rw [faced_bind, onDisk_bind, fatNext_same h]
        dsimp only
        split
        · rfl
        · exact ih (h.later (le_faced _ _ _ _)) _ _ _
      · rfl

theorem cluster_same {t : Nat} (h : NoFaults faults t) (f : Ufile) (s : Fs) :
    (faced st faults (loadCluster f s) t).1 = onDisk st.disk (Usbfat.loadCluster f s) := by
  unfold loadCluster Usbfat.loadCluster
  dsimp only
  rw [faced_bind, onDisk_bind, skip_same h]
  generalize onDisk st.disk (Usbfat.skipClusters _ _ s) = q
  obtain ⟨ok, f', s'⟩ := q
  cases ok with
  | true => rfl
  | false => rfl

theorem chunk_same {t : Nat} (h : NoFaults faults t) (f : Ufile) (secIn : Nat) (s : Fs) :
    (faced st faults (loadChunk f secIn s) t).1 = onDisk st.disk (Usbfat.loadChunk f secIn s) := by
  unfold loadChunk Usbfat.loadChunk
  rw [faced_bind, onDisk_bind, merge_same h]
  dsimp only
  rw [faced_bind, onDisk_bind, sectors_same (h.later (le_faced _ _ _ _))]
  unfold Ufile.chunk
  dsimp only
  generalize onDisk st.disk (Usbfat.ufsSectors _ _ _) = q
  obtain ⟨data, s'⟩ := q
  cases data with
  | none => rfl
  | some data => rfl

/-- Then a load is one of the other model. -/
theorem load_same {t : Nat} (h : NoFaults faults t) (f : Ufile) (s : Fs) :
    (faced st faults (ufsLoad f s) t).1 = onDisk st.disk (Usbfat.ufsLoad f s) := by
  rw [onDisk_load]
  unfold ufsLoad
  dsimp only
  rw [faced_bind, cluster_same h]
  have hlater := h.later (le_faced st faults (loadCluster f s) t)
  generalize (faced st faults (loadCluster f s) t).2 = t₁ at hlater
  generalize onDisk st.disk (Usbfat.loadCluster f s) = q
  obtain ⟨ok, f', s'⟩ := q
  cases ok with
  | true => exact chunk_same hlater _ _ _
  | false => rfl

theorem fetch_same {t : Nat} (h : NoFaults faults t) (f : Ufile) (s : Fs) :
    (faced st faults (fetch f s) t).1 = onDisk st.disk (Usbfat.fetch f s) := by
  unfold fetch Usbfat.fetch
  split
  · exact load_same h f s
  · rfl

theorem readLoop_same {t : Nat} (h : NoFaults faults t) (len turns : Nat) (dst : List UInt8)
    (f : Ufile) (s : Fs) : (faced st faults (readLoop len turns dst f s) t).1
      = onDisk st.disk (Usbfat.readLoop len turns dst f s) := by
  induction turns generalizing dst f s t with
  | zero => rfl
  | succ turns ih =>
      by_cases hmore : dst.length < len
      · rw [readLoop_succ hmore]
        unfold readLoop
        rw [if_pos hmore, faced_bind, fetch_same h]
        have hlater := h.later (le_faced st faults (fetch f s) t)
        generalize (faced st faults (fetch f s) t).2 = t₁ at hlater
        generalize onDisk st.disk (Usbfat.fetch f s) = q
        obtain ⟨ok, f', s'⟩ := q
        cases ok with
        | false => rfl
        | true => exact ih hlater _ _ _
      · unfold readLoop Usbfat.readLoop
        rw [if_neg hmore, if_neg hmore]
        rfl

-- ============================================================ in good health

theorem comes_healthy (hw : v.WellFormed) (hf : v.HasFile st first size) {s : Fs} (hk : Kept v st s)
    (hthere : s.lost = false) {t : Nat} (hgood : NoFaults faults t) {k n : Nat}
    (hn : ∀ i < n, (k + i) * v.clusBytes < size) :
    Comes st faults (chainSectors st v first k n) t s := by
  induction n generalizing k s t with
  | zero => trivial
  | succ n ih =>
      have hrest : ∀ i < n, (k + 1 + i) * v.clusBytes < size := fun i hi => by
        rw [show k + 1 + i = k + (i + 1) by omega]
        exact hn (i + 1) (by omega)
      have hnear : v.Near (v.chain st first k) := (hf.clus (hn 0 (by omega))).near
      rw [chainSectors_succ]
      unfold Comes
      by_cases hsame : (fatPlace v.geo (v.chain st first k)).1 = s.fatCached
      · rw [if_pos hsame]
        refine ⟨?_, ih hk hthere hgood hrest⟩
        rw [hsame]
        exact cached_volume hw hk hthere hnear hsame
      · rw [if_neg hsame, ← Stick.read_one]
        exact ⟨hthere, hgood t (le_refl t) .fatsec,
          ih (hk.cache hthere _) hthere (hgood.later (Nat.le_succ t)) hrest⟩

theorem loadOk_healthy (hw : v.WellFormed) (hf : v.HasFile st first size) {s : Fs}
    (hk : Kept v st s) (hthere : s.lost = false) {f : Ufile} (hat : v.At st first size f)
    (hpos : f.pos < size) {t : Nat} (hgood : NoFaults faults t) : LoadOk st faults v f s t where
  chain := by
    rw [hat.firstEq]
    refine comes_healthy hw hf hk hthere hgood fun i hi => ?_
    refine lt_of_le_of_lt (le_trans (Nat.mul_le_mul_right v.clusBytes ?_) (Nat.div_mul_le_self f.pos _))
      hpos
    omega
  window := fun i hi _ left hleft => by
    rw [hgood i hi .cbuf] at hleft
    exact nomatch hleft

/-- A read without failures is one whose loads leave the handle in order. -/
theorem eachLoad_healthy (hw : v.WellFormed) (hf : v.HasFile st first size) {len turns : Nat}
    {dst : List UInt8} {f : Ufile} {s : Fs} {t : Nat} (hs : v.Reads st s)
    (hat : v.At st first size f) (hroom : f.pos + (len - dst.length) ≤ size)
    (hgood : NoFaults faults t) :
    EachLoad st faults (LoadOk st faults v) len turns dst f s t := by
  induction turns generalizing dst f s t with
  | zero => trivial
  | succ turns ih =>
      intro hmore
      have hk : Kept v st s := ⟨hs.geo, fun _ => hs.sees⟩
      refine ⟨fun _ => loadOk_healthy hw hf hk hs.sees.there hat (by omega) hgood,
        fun f₁ s₁ t₁ hfetch => ?_⟩
      obtain ⟨f', s', hres, hs', hat', hpos', hfrom, hto⟩ :=
        Volume.fetch_volume hw hf hs hat (by omega)
      have hsame := @fetch_same st _ _ hgood f s
      have hle := le_faced st faults (fetch f s) t
      rw [hfetch] at hsame hle
      dsimp only at hsame hle
      rw [hres] at hsame
      simp only [Prod.mk.injEq, true_and] at hsame
      obtain ⟨rfl, rfl⟩ := hsame
      rw [← hpos'] at hfrom hto
      have hwant : 0 < len - dst.length := by omega
      obtain ⟨n, f₂, htake, hn0, hn, hat₂, hpos₂⟩ := Volume.takeBuf_volume hf.small hat' hfrom hto
        hwant (by rw [hpos']; exact hroom)
      rw [htake]
      refine ih hs' hat₂ ?_ (hgood.later hle)
      rw [List.length_append, Volume.fileBytes_length, hpos₂, hpos']
      omega

/-- After any seeks, and reads with failures whose loads are all `LoadOk`:
once transfers succeed again a read gives the file's bytes, and so does
every later one. -/
theorem reads_recover (hw : v.WellFormed) (hf : v.HasFile st first size) {f : Ufile} {s : Fs}
    {t : Nat} (h : Run st faults v (LoadOk st faults v) first size f s t) (hthere : s.lost = false)
    (hgood : NoFaults faults t) {len turns : Nat} (hturns : min len (size - f.pos) < turns) :
    ∃ f' s' t', faced st faults (ufsRead turns f len s) t
        = (some (v.fileBytes st first f.pos (min len (size - f.pos)), f', s'), t')
      ∧ f'.pos = f.pos + min len (size - f.pos) ∧ s'.lost = false ∧ NoFaults faults t'
      ∧ Run st faults v (LoadOk st faults v) first size f' s' t' := by
  obtain ⟨hk, hat⟩ := h.inOrder hw hf
  have hs := hk.reads hthere
  have hpos := hat.pos
  obtain ⟨f', s', hread, hs', -, hpos'⟩ := Volume.read_volume hw hf hs hat hturns
  have hsame := @readLoop_same st _ _ hgood (wanted f len) turns [] f s
  have hres : faced st faults (ufsRead turns f len s) t
      = (some (v.fileBytes st first f.pos (min len (size - f.pos)), f', s'),
          (faced st faults (ufsRead turns f len s) t).2) :=
    Prod.ext (hsame.trans hread) rfl
  refine ⟨f', s', _, hres, hpos', hs'.sees.there, hgood.later (le_faced _ _ _ _), .read h ?_ hres⟩
  refine eachLoad_healthy hw hf hs hat ?_ hgood
  rw [wanted_eq hf.small hat, List.length_nil]
  omega

-- ========================================================== a handle spoilt

/-- A file of two sectors, in clusters 2 and 3. -/
def chainSector (i : Nat) : List UInt8 :=
  if i = 1 then [0xf8, 0xff, 0xff, 0xff, 3, 0, 0xff, 0xff] ++ .replicate 504 0
  else .replicate 512 0x61

def chainStick : Stick where
  sector := chainSector
  length := by
    intro i
    unfold chainSector
    split_ifs
    · decide +kernel
    · exact List.length_replicate

theorem chainFile : Volume.textVolume.HasFile chainStick 2 1024 := by
  have h512 : Volume.textVolume.clusBytes = 512 := rfl
  have hclus : 3 < Volume.textVolume.clusters + 2 := by decide +kernel
  have hnext : Volume.textVolume.entry chainStick 2 = 3 := by decide +kernel
  refine ⟨by decide, fun k hk => ?_⟩
  rw [h512] at hk
  obtain rfl | rfl : k = 0 ∨ k = 1 := by omega
  · exact ⟨le_refl 2, by unfold Volume.chain; omega, (by decide : (2 : Nat) < 0x0ffffff0)⟩
  · unfold Volume.chain Volume.chain
    rw [hnext]
    exact ⟨by decide, hclus, by decide⟩

/-- The first transfer fails. -/
def firstFails : Faults := fun i _ => if i = 0 then some [] else none

def chainState : Fs := { geo := Volume.textGeo }

/-- Opened and sought to its second sector. -/
def chainHandle : Ufile := { size := 1024, pos := 512, first := 2, clus := 2 }

/-- After the read that failed. -/
def spoiltHandle : Ufile := { chainHandle with clus := fatEnd, clusIdx := 1 }

theorem chain_fails : faced chainStick firstFails (ufsRead 2 chainHandle 1 chainState) 0
    = (some ([], spoiltHandle, { chainState with lost := true }), 1) := rfl

theorem spoilt_read : (faced chainStick firstFails (ufsRead 2 spoiltHandle 1 chainState) 1).1
    = some ([], spoiltHandle, chainState) := rfl

theorem chainState_reads : Volume.textVolume.Reads chainStick chainState :=
  ⟨⟨rfl, fun h => absurd rfl h⟩, Volume.textVolume_geo.symm⟩

/-- All in one: a read fails as it follows the chain, the stick is mounted
again, and the same read still gives nothing. -/
theorem reads_poisoned : ∃ v st faults first size f s t, Volume.WellFormed v
    ∧ v.HasFile st first size ∧ Run st faults v (fun _ _ _ => True) first size f s t
    ∧ s.lost = false ∧ NoFaults faults t ∧ min 1 (size - f.pos) < 2
    ∧ (faced st faults (ufsRead 2 f 1 s) t).1.map Prod.fst
      ≠ some (v.fileBytes st first f.pos (min 1 (size - f.pos))) := by
  have hopened : Run chainStick firstFails Volume.textVolume (fun _ _ _ => True) 2 1024
      { size := 1024, first := 2, clus := 2 } chainState 0 := .opened chainState_reads
  have heach : EachLoad chainStick firstFails (fun _ _ _ => True) (wanted chainHandle 1) 2 []
      chainHandle chainState 0 :=
    fun _ => ⟨fun _ => trivial, fun f' s' t' h _ => ⟨fun _ => trivial, fun _ _ _ _ => trivial⟩⟩
  have hrun := Run.again (Run.read (hopened.seek 512) heach chain_fails)
  refine ⟨Volume.textVolume, chainStick, firstFails, 2, 1024, spoiltHandle, chainState, 1,
    Volume.textVolume_wellFormed, chainFile, hrun, rfl, ?_, by decide, ?_⟩
  · intro i hi dst
    exact if_neg (by omega)
  · rw [spoilt_read]
    intro h
    exact absurd (congrArg List.length (Option.some.inj h)) (by
      rw [Volume.fileBytes_length]
      decide)

/-- The file just opened. -/
def freshHandle : Ufile := { size := 1024, first := 2, clus := 2 }

theorem fresh_fails : faced chainStick firstFails (ufsRead 2 freshHandle 1 chainState) 0
    = (some ([], freshHandle, { chainState with lost := true }), 1) := rfl

/-- A read that fails as clusters are merged does no harm. -/
theorem reads_recover_chain : ∃ f s t f' s' t',
    Run chainStick firstFails Volume.textVolume (LoadOk chainStick firstFails Volume.textVolume) 2 1024
        f s t
      ∧ 0 < t ∧ faced chainStick firstFails (ufsRead 2 f 1 s) t
        = (some (Volume.textVolume.fileBytes chainStick 2 f.pos (min 1 (1024 - f.pos)), f', s'), t') := by
  have hopened : Run chainStick firstFails Volume.textVolume
      (LoadOk chainStick firstFails Volume.textVolume) 2 1024 freshHandle chainState 0 :=
    .opened chainState_reads
  -- no step in the chain, and nothing in the window
  have hload : LoadOk chainStick firstFails Volume.textVolume freshHandle chainState 0 :=
    ⟨trivial, fun _ _ _ _ _ k hk => absurd hk (Nat.not_lt_zero k)⟩
  have heach : EachLoad chainStick firstFails (LoadOk chainStick firstFails Volume.textVolume)
      (wanted freshHandle 1) 2 [] freshHandle chainState 0 :=
    fun _ => ⟨fun _ => hload, fun f' s' t' h => nomatch congrArg (fun r => r.1.1) h⟩
  have hrun := Run.again (Run.read hopened heach fresh_fails)
  have hgood : NoFaults firstFails 1 := fun i hi dst => if_neg (by omega)
  have hturns : min 1 (1024 - freshHandle.pos) < 2 := by decide
  obtain ⟨f', s', t', hres, -⟩ :=
    reads_recover Volume.textVolume_wellFormed chainFile hrun rfl hgood hturns
  exact ⟨_, _, 1, f', s', t', hrun, by decide, hres⟩

end Ncmips.Usbfat.Faulty
