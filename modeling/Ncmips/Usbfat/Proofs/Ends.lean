/-
When the FAT reader ends.

Nothing in it counts the clusters of a folder or remembers where it has
been: reading a folder ends if its entries do (`EntriesEnd`), which a
chain of clusters without an end does not bring about by itself. The other
place is a file of almost 4 GB, whose count of sectors overflows to 0 at
the start of the file.
-/
import Ncmips.Usbfat.Proofs.Load
import Ncmips.Usbfat.Proofs.Cache

namespace Ncmips.Usbfat

open Bits (byteAt)

-- ================================================================ folders

/-- From a place of a folder on there is an end: the chain's, a read that
fails, or the mark of the last entry. -/
inductive EntriesEnd (disk : Disk) (g : Geo) : Udir → Prop
  | fin {d d' : Udir} {lost : Bool} (hraw : rawStep disk g d = .fin d' lost) : EntriesEnd disk g d
  | stop {d d' : Udir} {r : List UInt8} (hraw : rawStep disk g d = .more r d')
      (h0 : byteAt r 0 = 0) : EntriesEnd disk g d
  | more {d d' : Udir} {r : List UInt8} (hraw : rawStep disk g d = .more r d')
      (hrest : EntriesEnd disk g d') : EntriesEnd disk g d

variable {disk : Disk} {g : Geo}

/-- Then every search ends. -/
theorem finds_of_ends {d : Udir} (h : EntriesEnd disk g d) (comp : List UInt8) (e : Udirent)
    (lfnOk : Bool) : ∃ o, Finds disk g comp d e lfnOk o := by
  induction h generalizing e lfnOk with
  | fin hraw => exact ⟨_, .fin hraw⟩
  | stop hraw h0 => exact ⟨_, .stop hraw (dirTurn_stop.mpr h0)⟩
  | @more d d' r hraw _ ih =>
      cases hturn : dirTurn g.fat32 r e lfnOk with
      | stop => exact ⟨_, .stop hraw hturn⟩
      | skip e' lfnOk' =>
          obtain ⟨o, ho⟩ := ih e' lfnOk'
          exact ⟨o, .skip hraw hturn ho⟩
      | entry e' =>
          cases hname : ufsNameEq e'.name comp comp.length with
          | true => exact ⟨_, .found hraw hturn hname⟩
          | false =>
              obtain ⟨o, ho⟩ := ih e' false
              exact ⟨o, .other hraw hturn hname ho⟩

/-- No entry has a name with a 0 in it. -/
theorem nameEq_zero (name : Nat → UInt8) : ufsNameEq name [0] 1 = false := by
  rw [Bool.eq_false_iff]
  intro h
  obtain ⟨hall, -⟩ := (nameEq_iff _ _ _).mp h
  obtain ⟨hne, heq⟩ := hall 0 (by decide)
  exact hne ((ufsLower_zero _).mp heq)

/-- A search for what is not there goes through all entries. -/
theorem ends_of_finds {d : Udir} {e : Udirent} {lfnOk : Bool} {o : Found}
    (h : Finds disk g [0] d e lfnOk o) : EntriesEnd disk g d := by
  induction h with
  | fin hraw => exact .fin hraw
  | stop hraw hturn => exact .stop hraw (dirTurn_stop.mp hturn)
  | skip hraw _ _ ih => exact .more hraw ih
  | @found d d' e e' lfnOk r hraw hturn hname =>
      rw [show [(0 : UInt8)].length = 1 from rfl, nameEq_zero] at hname
      exact nomatch hname
  | other hraw _ _ _ ih => exact .more hraw ih

/-- A caller's `while (ufs_readdir (&d, &e))`. -/
def listLoop (turns : Nat) : (calls : Nat) → Udir → Udirent → Fs → Io (Option Scan)
  | 0, _, _, _ => pure none
  | calls + 1, d, e, s => do
      match ← ufsReaddir turns d e s with
      | none => pure none
      | some r => if r.found then listLoop turns calls r.d r.e r.s else pure (some r)

theorem listLoop_eq (disk : Disk) (turns calls : Nat) (d : Udir) (e : Udirent) (s : Fs) :
    onDisk disk (listLoop turns calls d e s) = onDisk disk (findLoop turns [0] 1 calls d e s) := by
  induction calls generalizing d e s with
  | zero => rfl
  | succ calls ih =>
      unfold listLoop findLoop
      rw [onDisk_bind, onDisk_bind]
      cases onDisk disk (ufsReaddir turns d e s) with
      | none => rfl
      | some r =>
          dsimp only
          split
          · rw [nameEq_zero, ih]
            rfl
          · rfl

/-- Listing a folder ends if and only if its entries do. -/
theorem list_ends_iff {s : Fs} (h : s.Sees disk) (hg : s.geo.Sound) (d : Udir) (e : Udirent) :
    (∃ turns r, onDisk disk (listLoop turns turns d e s) = some r) ↔ EntriesEnd disk s.geo d := by
  constructor
  · rintro ⟨turns, r, hres⟩
    rw [listLoop_eq] at hres
    exact ends_of_finds (finds_of_findLoop h hg (le_refl 1) hres).2
  · intro hends
    obtain ⟨o, hfinds⟩ := finds_of_ends hends [0] e false
    obtain ⟨n, hn⟩ := @findLoop_of_finds _ [0] 1 _ _ _ _ hfinds hg (le_refl 1)
    obtain ⟨d', s', hres, -⟩ := hn n (le_refl n) s h rfl
    exact ⟨n, _, by rw [listLoop_eq]; exact hres⟩

-- ================================================================= chains

/-- A chain of clusters that ends: at an end mark, or at a FAT sector that
cannot be read. -/
inductive ChainEnds (disk : Disk) (g : Geo) : Nat → Prop
  | eoc {c : Nat} (h : ufsEoc c = true) : ChainEnds disk g c
  | unreadable {c : Nat} (h : fatRead disk g c = none) : ChainEnds disk g c
  | next {c c' : Nat} (h : fatRead disk g c = some c') (hrest : ChainEnds disk g c') :
      ChainEnds disk g c

/-- What is in the buffer has an end if what is behind it has. -/
theorem ends_of_buffer {d : Udir} (hdone : d.done = false) (hle : d.ent ≤ d.nent)
    (h : EntriesEnd disk g { d with ent := d.nent }) : EntriesEnd disk g d := by
  induction hn : d.nent - d.ent generalizing d with
  | zero =>
      cases d with
      | mk clus secIdx ent nent done buf =>
          dsimp only at hn hle h
          obtain rfl : ent = nent := by omega
          exact h
  | succ n ih =>
      have hraw : rawStep disk g d = .more d.take.1 d.take.2 := by
        unfold rawStep
        rw [hdone, if_neg (by decide), if_neg (by omega)]
      exact .more hraw (@ih d.take.2 hdone (show d.ent + 1 ≤ d.nent by omega) h
        (show d.nent - (d.ent + 1) = n by omega))

/-- A place where the buffer is used up. -/
def Udir.emptied (d : Udir) (k n : Nat) (buf : List UInt8) : Udir :=
  { d with secIdx := k, ent := n, nent := n, buf }

/-- Within a region of `total` sectors the entries end if they do behind it. -/
theorem ends_of_region {d : Udir} (hdone : d.done = false) (total : Nat) (sec : Nat → Nat)
    (hraw : ∀ k n buf, k < total → rawStep disk g (d.emptied k n buf)
      = rawLoad disk (d.emptied k n buf) (sec k) (total - k))
    (hend : ∀ n buf, EntriesEnd disk g (d.emptied total n buf)) {k : Nat} (hk : k ≤ total) (n : Nat)
    (buf : List UInt8) : EntriesEnd disk g (d.emptied k n buf) := by
  induction hleft : total - k using Nat.strong_induction_on generalizing k n buf with
  | _ left ih =>
      by_cases hlt : k < total
      · have hstep := hraw k n buf hlt
        unfold rawLoad at hstep
        dsimp only at hstep
        generalize hcount : (if total - k > dirSectors then dirSectors else total - k) = count at hstep
        have hpos : 0 < count ∧ count ≤ total - k := by
          rw [← hcount]
          unfold dirSectors
          split_ifs <;> omega
        cases hread : disk (sec k) count with
        | none =>
            rw [hread] at hstep
            exact .fin hstep
        | some data =>
            rw [hread] at hstep
            refine .more hstep (ends_of_buffer hdone ?_ ?_)
            · unfold Udir.take ufsSector
              dsimp only
              omega
            · exact ih (total - (k + count)) (by omega) (k := k + count) (by omega)
                (count * (ufsSector / 32)) data rfl
      · rw [show k = total by omega]
        exact hend n buf

theorem EntriesEnd.congr {d d' : Udir} (hraw : rawStep disk g d = rawStep disk g d')
    (h : EntriesEnd disk g d') : EntriesEnd disk g d := by
  cases h with
  | fin h => exact .fin (hraw.trans h)
  | stop h h0 => exact .stop (hraw.trans h) h0
  | more h hrest => exact .more (hraw.trans h) hrest

theorem rawStep_start {c : Nat} (hc : c ≠ 0) (k n : Nat) (buf : List UInt8)
    (hk : k ≠ g.spc) : rawStep disk g (({ clus := c } : Udir).emptied k n buf)
      = rawCluster disk g (({ clus := c } : Udir).emptied k n buf) := by
  unfold rawStep Udir.emptied
  dsimp only
  rw [if_neg (by decide), if_pos rfl, if_neg hc, if_neg hk]

theorem rawStep_emptied {c : Nat} (hc : c ≠ 0) (n : Nat) (buf : List UInt8) :
    rawStep disk g (({ clus := c } : Udir).emptied g.spc n buf)
      = match fatRead disk g c with
        | none => .fin { ({ clus := c } : Udir).emptied g.spc n buf with
            clus := fatEnd, secIdx := 0, done := true } true
        | some c' => rawCluster disk g (({ clus := c' } : Udir).emptied 0 n buf) := by
  unfold rawStep Udir.emptied
  dsimp only
  rw [if_neg (by decide), if_pos rfl, if_neg hc]
  cases fatRead disk g c with
  | none => exact if_pos rfl
  | some c' => exact if_pos rfl

/-- Behind a cluster the reading goes on in the next one. -/
theorem ends_behind (hb : g.Boot) {c : Nat} (hc : c ≠ 0)
    (h : ∀ c', fatRead disk g c = some c' → c' ≠ 0 → ∀ n buf,
      EntriesEnd disk g (({ clus := c' } : Udir).emptied 0 n buf)) (n : Nat) (buf : List UInt8) :
    EntriesEnd disk g (({ clus := c } : Udir).emptied g.spc n buf) := by
  have hraw := @rawStep_emptied disk g c hc n buf
  cases hnext : fatRead disk g c with
  | none =>
      rw [hnext] at hraw
      exact .fin hraw
  | some c' =>
      rw [hnext] at hraw
      by_cases hc' : c' = 0
      · subst hc'
        exact .fin (hraw.trans rfl)
      · have hspc := hb.spc
        exact .congr (hraw.trans (rawStep_start hc' 0 n buf (by omega)).symm) (h c' hnext hc' n buf)

/-- A folder whose chain ends has an end. -/
theorem ends_of_chain (hb : g.Boot) {c : Nat} (h : ChainEnds disk g c) (hc : c ≠ 0) (n : Nat)
    (buf : List UInt8) : EntriesEnd disk g (({ clus := c } : Udir).emptied 0 n buf) := by
  have hspc := hb.spc
  -- the cluster itself, once what is behind it ends
  have hcluster : ∀ {c : Nat}, c ≠ 0 →
      (ufsEoc c = false → ∀ n buf, EntriesEnd disk g (({ clus := c } : Udir).emptied g.spc n buf)) →
      ∀ n buf, EntriesEnd disk g (({ clus := c } : Udir).emptied 0 n buf) := by
    intro c hc hbehind n buf
    cases heoc : ufsEoc c with
    | true =>
        have hfin : rawCluster disk g (({ clus := c } : Udir).emptied 0 n buf)
            = .fin { ({ clus := c } : Udir).emptied 0 n buf with done := true } false := by
          unfold rawCluster Udir.emptied
          rw [heoc, if_pos rfl]
        exact .fin ((rawStep_start hc 0 n buf (by omega)).trans hfin)
    | false =>
        refine ends_of_region rfl g.spc (fun k => u32 (ufsClusSector g c + k)) ?_ (hbehind heoc)
          (Nat.zero_le _) n buf
        intro k n buf hk
        rw [rawStep_start hc k n buf (by omega)]
        unfold rawCluster Udir.emptied
        rw [heoc, if_neg (by decide)]
  induction h generalizing n buf with
  | eoc heoc => exact hcluster hc (fun h => by rw [heoc] at h; exact nomatch h) n buf
  | unreadable hnone =>
      refine hcluster hc (fun _ n buf => ends_behind hb hc (fun c' hc' _ => ?_) n buf) n buf
      rw [hnone] at hc'
      exact nomatch hc'
  | @next c c' hnext _ ih =>
      refine hcluster hc (fun _ n buf => ends_behind hb hc (fun c'' hc'' hne n buf => ?_) n buf) n buf
      rw [hnext, Option.some.injEq] at hc''
      subst hc''
      exact ih hne n buf

/-- The FAT16 root always has an end. -/
theorem ends_of_root : EntriesEnd disk g { clus := 0 } := by
  refine ends_of_region (d := { clus := 0 }) rfl g.rootSectors (fun k => u32 (g.rootStart + k))
    ?_ ?_ (Nat.zero_le _) 0 []
  · intro k n buf hk
    unfold rawStep Udir.emptied
    dsimp only
    rw [if_neg (by decide), if_pos rfl, if_pos rfl, if_neg (by omega)]
  · intro n buf
    have hfin : rawStep disk g (({ clus := 0 } : Udir).emptied g.rootSectors n buf)
        = .fin { ({ clus := 0 } : Udir).emptied g.rootSectors n buf with done := true } false := by
      unfold rawStep Udir.emptied
      dsimp only
      rw [if_neg (by decide), if_pos rfl, if_pos rfl, if_pos rfl]
    exact .fin hfin

/-- A volume whose folders' chains end. -/
theorem folders_end (hb : g.Boot)
    (hchains : ∀ c, Folder disk g c → c ≠ 0 → ChainEnds disk g c) (c : Nat)
    (hc : Folder disk g c) : EntriesEnd disk g { clus := c } := by
  by_cases h0 : c = 0
  · rw [h0]
    exact ends_of_root
  · exact ends_of_chain hb (hchains c hc h0) h0 0 []

-- ================================================================ lookups

/-- If every folder of the volume has an end, every walk ends. -/
theorem walks_of_ends (hall : ∀ c, Folder disk g c → EntriesEnd disk g { clus := c })
    (cs : List (List UInt8)) {c : Nat} {e : Udirent} (hc : e.isDir = true → Folder disk g c) :
    ∃ o, Walks disk g cs c e o := by
  induction cs generalizing c e with
  | nil => exact ⟨_, .nil c e⟩
  | cons comp cs ih =>
      cases hdir : e.isDir with
      | false => exact ⟨_, .file hdir⟩
      | true =>
          obtain ⟨o, hfind⟩ := finds_of_ends (hall c (hc hdir)) comp e false
          cases hfound : o.found with
          | false => exact ⟨o, .missing hdir hfind hfound⟩
          | true =>
              obtain ⟨out, hrest⟩ := ih fun h => hfind.folder (hc hdir) hfound h
              exact ⟨out, .next hdir hfind hfound hrest⟩

/-- With the stick lost nothing is found. -/
theorem lost_find {s : Fs} (h : s.lost = true) {d : Udir} (hd : d.ent = d.nent)
    (path : List UInt8) (len turns calls : Nat) (e : Udirent) :
    ∃ d', onDisk disk (findLoop (turns + 1) path len (calls + 1) d e s)
      = some { found := false, d := d', e, s } := by
  have hnone := lost_dirRaw_start disk h hd
  have hsame := lost_dirRaw disk h d
  generalize hraw : onDisk disk (ufsDirRaw d s) = q at hnone hsame
  obtain ⟨r, d', s'⟩ := q
  dsimp only at hnone hsame
  subst hnone hsame
  refine ⟨d', ?_⟩
  unfold findLoop ufsReaddir readdirLoop
  simp only [onDisk_bind, hraw, onDisk_pure, Bool.false_eq_true, if_false]

/-- Nor is anything remembered. -/
theorem lost_walk {s : Fs} (h : s.lost = true) (turns : Nat) (full path : List UInt8) (c : Nat)
    (e : Udirent) : ∃ r, onDisk disk (walkLoop (turns + 1) full path c e s) = some r ∧ r.s = s := by
  cases path with
  | nil =>
      refine ⟨{ ok := true, e, s }, ?_, rfl⟩
      unfold walkLoop
      rfl
  | cons b bs =>
      unfold walkLoop
      dsimp only
      cases hdir : e.isDir with
      | false =>
          refine ⟨{ ok := false, e, s }, ?_, rfl⟩
          simp only [Bool.not_false, if_true, onDisk_pure]
      | true =>
          obtain ⟨d', hfind⟩ := @lost_find disk s h { clus := c } rfl (b :: bs)
            ((b :: bs).takeWhile (· ≠ 0x2f)).length turns turns e
          refine ⟨{ ok := false, e, s }, ?_, rfl⟩
          simp only [Bool.not_true, Bool.false_eq_true, if_false, onDisk_bind, hfind,
            Bool.not_false, if_true, onDisk_pure]

/-- What is cached are folders of the volume. -/
structure Ready (disk : Disk) (g : Geo) (s : Fs) : Prop where
  geo : s.geo = g
  steady : s.Steady disk
  folders : ∀ kc ∈ s.dcache, kc.1 ≠ [] → Folder disk g kc.2

theorem Ready.after {s s' : Fs} (h : Ready disk g s) (hlike : s.Like s') (hsteady : s'.Steady disk) :
    Ready disk g s' where
  geo := hlike.geo.trans h.geo
  steady := hsteady
  folders := by rw [hlike.dcache]; exact h.folders

theorem Ready.found {s : Fs} (h : Ready disk g s) {r : Scan} (hr : r.s = s) (hthere : s.lost = false)
    (hfolder : r.e.isDir = true → Folder disk g (nextClus g r.e)) (full path : List UInt8) :
    Ready disk g (afterFound g r full path) := by
  subst hr
  obtain ⟨hsees, hgeo⟩ := afterFound_sees (h.steady hthere) h.geo full path
  refine ⟨hgeo, fun _ => hsees, ?_⟩
  unfold afterFound
  split
  · next hdir =>
    unfold ufsDcachePut
    split_ifs
    · exact h.folders
    · exact h.folders
    · intro kc hkc hne
      rcases List.mem_or_eq_of_mem_set hkc with hold | rfl
      · exact h.folders kc hold hne
      · exact hfolder hdir
  · exact h.folders

theorem Ready.walk (hg : g.Sound) {turns : Nat} {full path : List UInt8} {c : Nat} {e : Udirent}
    {s : Fs} (h : Ready disk g s) (hc : e.isDir = true → Folder disk g c) {r : Lookup}
    (hres : onDisk disk (walkLoop turns full path c e s) = some r) : Ready disk g r.s := by
  induction hlen : path.length using Nat.strong_induction_on generalizing path c e s with
  | _ n ih =>
      cases path with
      | nil =>
          unfold walkLoop at hres
          simp only [onDisk_pure, Option.some.injEq] at hres
          rw [← hres]
          exact h
      | cons b bs =>
          cases hlost : s.lost with
          | true =>
              cases turns with
              | zero =>
                  unfold walkLoop at hres
                  dsimp only [findLoop] at hres
                  split at hres
                  · simp only [onDisk_pure, Option.some.injEq] at hres
                    rw [← hres]
                    exact h
                  · exact nomatch hres
              | succ turns =>
                  obtain ⟨r', hres', hsame⟩ := @lost_walk disk s hlost turns full (b :: bs) c e
                  rw [hres, Option.some.injEq] at hres'
                  rw [hres', hsame]
                  exact h
          | false =>
              unfold walkLoop at hres
              dsimp only at hres
              cases hdir : e.isDir with
              | false =>
                  simp only [hdir, Bool.not_false, if_true, onDisk_pure, Option.some.injEq] at hres
                  rw [← hres]
                  exact h
              | true =>
                  have hg' : s.geo.Sound := by rw [h.geo]; exact hg
                  simp only [hdir, Bool.not_true, Bool.false_eq_true, if_false, onDisk_bind] at hres
                  cases hloop : onDisk disk (findLoop turns (b :: bs) (firstComp (b :: bs)).length
                      turns { clus := c } e s) with
                  | none =>
                      unfold firstComp at hloop
                      simp only [hloop, onDisk_pure, reduceCtorEq] at hres
                  | some r' =>
                      have hle : (firstComp (b :: bs)).length ≤ (b :: bs).length :=
                        (List.takeWhile_sublist _).length_le
                      obtain ⟨hafter, hfind⟩ := finds_of_findLoop (h.steady hlost) hg' hle hloop
                      rw [h.geo] at hfind
                      have h' := h.after hafter.toLike fun hb => hafter.sees hb
                      unfold firstComp at hloop
                      simp only [hloop] at hres
                      cases hfound : r'.found with
                      | false =>
                          simp only [hfound, Bool.not_false, if_true, onDisk_pure,
                            Option.some.injEq] at hres
                          rw [← hres]
                          exact h'
                      | true =>
                          have hfolder (hd : r'.e.isDir = true) := hfind.folder (hc hdir) hfound hd
                          have hput := h'.found rfl (hfind.there hfound) hfolder full (b :: bs)
                          simp only [hfound, Bool.not_true, Bool.false_eq_true, if_false] at hres
                          rw [h'.geo] at hres
                          exact ih _ (hlen ▸ next_component_lt b bs) hput hfolder hres rfl

/-- A lookup walks from the root, or from a cached folder. -/
theorem Ready.start {s : Fs} (h : Ready disk g s) (path : List UInt8) (e : Udirent) :
    ∃ left c, Trimmed left ∧ Folder disk g c
      ∧ ∀ turns, ufsLookup turns path e s
        = walkLoop turns (skipSlashes path) left c (startEntry e c) s := by
  unfold ufsLookup
  dsimp only
  rw [h.geo]
  rcases dcacheGet_spec s (skipSlashes path) (rootOf g) with hmiss | ⟨kc, hkc, hne, hhit, -, -⟩
  · rw [hmiss]
    exact ⟨_, rootOf g, trimmed_skip path, .root, fun turns => rfl⟩
  · rw [hhit]
    have hlen : kc.1.length ≠ 0 := fun h => hne (List.eq_nil_of_length_eq_zero h)
    refine ⟨skipSlashes ((skipSlashes path).drop kc.1.length), kc.2, trimmed_skip _,
      h.folders kc hkc hne, fun turns => ?_⟩
    rw [if_pos hlen]
    rfl

theorem Ready.lookup (hg : g.Sound) {s : Fs} (h : Ready disk g s) {turns : Nat} {path : List UInt8}
    {e : Udirent} {r : Lookup} (hres : onDisk disk (ufsLookup turns path e s) = some r) :
    Ready disk g r.s := by
  obtain ⟨left, c, -, hc, hstart⟩ := h.start path e
  rw [hstart] at hres
  exact h.walk hg (fun _ => hc) hres

/-- If every folder of the volume has an end, every lookup ends. -/
theorem Ready.lookup_ends (hg : g.Sound) {s : Fs} (h : Ready disk g s)
    (hall : ∀ c, Folder disk g c → EntriesEnd disk g { clus := c }) (path : List UInt8)
    (e : Udirent) : ∃ turns r, onDisk disk (ufsLookup turns path e s) = some r := by
  obtain ⟨left, c, htrim, hc, hstart⟩ := h.start path e
  cases hlost : s.lost with
  | true =>
      obtain ⟨r, hres, -⟩ := @lost_walk disk s hlost 0 (skipSlashes path) left c (startEntry e c)
      exact ⟨1, r, by rw [hstart]; exact hres⟩
  | false =>
      obtain ⟨o, hwalk⟩ := walks_of_ends hall (comps left) (e := startEntry e c) fun _ => hc
      obtain ⟨n, hn⟩ := walkLoop_of_walks hg htrim hwalk
      obtain ⟨r, hres, -⟩ := hn n (le_refl n) (skipSlashes path) s (h.steady hlost) h.geo
      exact ⟨n, r, by rw [hstart]; exact hres⟩

theorem Ready.list_ends (hg : g.Sound) {s : Fs} (h : Ready disk g s) {c : Nat}
    (hc : EntriesEnd disk g { clus := c }) (e : Udirent) :
    ∃ turns r, onDisk disk (listLoop turns turns { clus := c } e s) = some r := by
  cases hlost : s.lost with
  | true =>
      obtain ⟨d', hres⟩ := @lost_find disk s hlost { clus := c } rfl [0] 1 0 0 e
      exact ⟨1, _, by rw [listLoop_eq]; exact hres⟩
  | false =>
      rw [← h.geo] at hg hc
      exact (list_ends_iff (h.steady hlost) hg { clus := c } e).mpr hc

-- ============================================================== everything

/-- The states since volume `g` was mounted: any lookups, calls of
`ufs_readdir` and reads, one after another. -/
inductive Visited (disk : Disk) (g : Geo) : Fs → Prop
  | mount {s s' : Fs} (hthere : s.lost = false) (hempty : s.fatCached = noSector)
      (hmount : onDisk disk (ufsMount s) = (true, s')) (hgeo : s'.geo = g) : Visited disk g s'
  | lookup {s : Fs} {turns : Nat} {path : List UInt8} {e : Udirent} {r : Lookup}
      (hs : Visited disk g s) (h0 : 0 ∉ path)
      (hres : onDisk disk (ufsLookup turns path e s) = some r) : Visited disk g r.s
  | readdir {s : Fs} {turns : Nat} {d : Udir} {e : Udirent} {r : Scan} (hs : Visited disk g s)
      (hres : onDisk disk (ufsReaddir turns d e s) = some r) : Visited disk g r.s
  | read {s s' : Fs} {turns len : Nat} {f f' : Ufile} {dst : List UInt8} (hs : Visited disk g s)
      (hres : onDisk disk (ufsRead turns f len s) = some (dst, f', s')) : Visited disk g s'

/-- The handles of the volume's files, after any seeks and reads. -/
inductive Handle (disk : Disk) (g : Geo) : Ufile → Prop
  | opened {c : Nat} {rs : List (List UInt8)} {d d' : Udir} {r : List UInt8} {e x : Udirent}
      {lfnOk : Bool} (hc : Folder disk g c) (hrun : RawRun disk g { clus := c } rs d)
      (hraw : rawStep disk g d = .more r d') (hturn : dirTurn g.fat32 r e lfnOk = .entry x)
      (hfile : x.isDir = false) :
      Handle disk g { size := x.size, first := x.first, clus := x.first }
  | seek {f : Ufile} (hf : Handle disk g f) (pos : Nat) : Handle disk g (ufsSeek f pos)
  | read {s s' : Fs} {turns len : Nat} {f f' : Ufile} {dst : List UInt8} (hs : Visited disk g s)
      (hf : Handle disk g f) (hres : onDisk disk (ufsRead turns f len s) = some (dst, f', s')) :
      Handle disk g f'

/-- Every call ends, after any calls, on this stick. -/
structure AllEnd (disk : Disk) (g : Geo) : Prop where
  lookup : ∀ s, Visited disk g s → ∀ path e, 0 ∉ path →
    ∃ turns r, onDisk disk (ufsLookup turns path e s) = some r
  list : ∀ s, Visited disk g s → ∀ c, Folder disk g c → ∀ e,
    ∃ turns r, onDisk disk (listLoop turns turns { clus := c } e s) = some r
  read : ∀ s, Visited disk g s → ∀ f, Handle disk g f → ∀ len,
    ∃ turns r, onDisk disk (ufsRead turns f len s) = some r

/-- The folders of the volume have an end, and its files are not of almost
4 GB with a first chunk that can be loaded. -/
structure CanEnd (disk : Disk) (g : Geo) : Prop where
  folders : ∀ c, Folder disk g c → EntriesEnd disk g { clus := c }
  files : ∀ c rs d r d' e lfnOk x, Folder disk g c → RawRun disk g { clus := c } rs d →
    rawStep disk g d = .more r d' → dirTurn g.fat32 r e lfnOk = .entry x → x.isDir = false →
      x.size ≤ 2 ^ 32 - ufsSector ∨ ¬FirstLoads disk g x.first

theorem mountBoot_cache {s s' : Fs} {b : List UInt8} {part : Nat}
    (hres : mountBoot s b part = (true, s')) : s'.dcache = .replicate ufsDcache ([], 0) := by
  unfold mountBoot at hres
  dsimp only at hres
  split at hres
  · exact nomatch hres
  · split at hres
    · exact nomatch hres
    · simp only [Prod.mk.injEq, true_and] at hres
      rw [← hres]

theorem mountBoot_boot {s s' : Fs} {b : List UInt8} {part : Nat}
    (hres : mountBoot s b part = (true, s')) : s'.geo.Boot := by
  unfold mountBoot at hres
  dsimp only at hres
  split at hres
  · exact nomatch hres
  · next hboot =>
    split at hres
    · exact nomatch hres
    · simp only [Prod.mk.injEq, true_and] at hres
      subst hres
      refine ⟨?_, rfl⟩
      have hne : byteAt b 13 ≠ 0 := fun h => hboot (.inr h)
      have hpos : (byteAt b 13).toNat ≠ 0 := fun h => hne (UInt8.toNat_inj.mp h)
      unfold bootGeo
      dsimp only
      omega

theorem Visited.ready (hg : g.Sound) {s : Fs} (h : Visited disk g s) :
    Ready disk g s ∧ g.Boot := by
  induction h with
  | mount hthere hempty hmount hgeo =>
      obtain ⟨b, part, hboot⟩ := mount_eq_boot ⟨hthere, fun h => absurd hempty h⟩ hmount
      have hm := @mountBoot_mounted disk _ _ hthere hempty _ _ hboot
      have hcache := mountBoot_cache hboot
      subst hgeo
      refine ⟨⟨rfl, hm.sees, fun kc hkc hne => ?_⟩, mountBoot_boot hboot⟩
      rw [hcache] at hkc
      obtain ⟨-, rfl⟩ := List.mem_replicate.mp hkc
      exact absurd rfl hne
  | lookup _ _ hres ih => exact ⟨ih.1.lookup hg hres, ih.2⟩
  | @readdir s turns d e r _ hres ih =>
      cases hlost : s.lost with
      | true =>
          rw [lost_readdir disk hlost hres]
          exact ih
      | false =>
          have hg' : s.geo.Sound := by rw [ih.1.geo]; exact hg
          obtain ⟨hafter, -⟩ := finds_of_readdir (ih.1.steady hlost) hg' hres []
          exact ⟨ih.1.after hafter.toLike fun hb => hafter.sees hb, ih.2⟩
  | @read s s' turns len f f' dst _ hres ih =>
      have hg' : s.geo.Sound := by rw [ih.1.geo]; exact hg
      have hb' : s.geo.Boot := by rw [ih.1.geo]; exact ih.2
      obtain ⟨hstays, -⟩ := readLoop_keeps hb' ih.1.steady hres
      exact ⟨ih.1.after hstays.toLike hstays.steady, ih.2⟩

/-- What holds of a handle. -/
structure HandleOk (f : Ufile) : Prop where
  size : f.size < 2 ^ 32
  pos : f.pos ≤ f.size
  home : f.Home

theorem Visited.sound_boot (hg : g.Sound) {s : Fs} (h : Visited disk g s) :
    s.geo.Sound ∧ s.geo.Boot ∧ s.Steady disk := by
  obtain ⟨hready, hb⟩ := h.ready hg
  rw [hready.geo]
  exact ⟨hg, hb, hready.steady⟩

/-- A read asks for no more than the file has from its position on. -/
theorem read_room {f : Ufile} (hpos : f.pos ≤ f.size) (hsize : f.size < 2 ^ 32) (len : Nat) :
    f.pos + ((if len > sub32 f.size f.pos then sub32 f.size f.pos else len) - ([] : List UInt8).length)
      ≤ f.size := by
  have hsub : sub32 f.size f.pos = f.size - f.pos := by
    unfold sub32 u32
    omega
  rw [hsub, List.length_nil]
  split_ifs <;> omega

/-- The file of a handle: its size and first cluster are an entry's. -/
theorem Handle.entry {P : Nat → Nat → Prop}
    (hP : ∀ c rs d r d' e lfnOk x, Folder disk g c → RawRun disk g { clus := c } rs d →
      rawStep disk g d = .more r d' → dirTurn g.fat32 r e lfnOk = .entry x → x.isDir = false →
        P x.size x.first)
    (hg : g.Sound) {f : Ufile} (h : Handle disk g f) : P f.size f.first ∧ HandleOk f := by
  induction h with
  | opened hc hrun hraw hturn hfile =>
      refine ⟨hP _ _ _ _ _ _ _ _ hc hrun hraw hturn hfile, ?_, Nat.zero_le _, fun _ => rfl⟩
      rw [dirTurn_entry hturn]
      exact le32_lt _ _
  | seek hf pos ih =>
      obtain ⟨hentry, hok⟩ := ih
      refine ⟨hentry, hok.size, ?_, hok.home⟩
      unfold ufsSeek
      dsimp only
      split_ifs <;> omega
  | read hs _ hres ih =>
      obtain ⟨hentry, hok⟩ := ih
      obtain ⟨hg', hb', hsteady⟩ := hs.sound_boot hg
      obtain ⟨-, hsize, hfirst, hhome, hpos⟩ := readLoop_keeps hb' hsteady hres
      refine ⟨by rw [hsize, hfirst]; exact hentry, by rw [hsize]; exact hok.size,
        hpos hok.size (read_room hok.pos hok.size _), hhome hok.home⟩

/-- On a stick whose FAT has no sector of the number that marks the FAT cache
as empty, every call ends if and only if the folders have an end and no file
of almost 4 GB can be loaded. -/
theorem all_end_iff (hg : g.Sound) {s : Fs} (hs : Visited disk g s) (hthere : s.lost = false) :
    AllEnd disk g ↔ CanEnd disk g := by
  constructor
  · intro hall
    obtain ⟨hready, hb⟩ := hs.ready hg
    have hsees := hready.steady hthere
    have hgeo := hready.geo
    subst hgeo
    refine ⟨fun c hc => ?_, fun c rs d r d' e lfnOk x hc hrun hraw hturn hfile => ?_⟩
    · exact (list_ends_iff hsees hg { clus := c } (rootEntry s.geo)).mp
        (hall.list s hs c hc (rootEntry s.geo))
    · by_contra hbig
      rw [not_or, not_le, not_not] at hbig
      obtain ⟨hsize, hfirst⟩ := hbig
      have h32 : x.size < 2 ^ 32 := by
        rw [dirTurn_entry hturn]
        exact le32_lt _ _
      have hneed : Ufile.need { size := x.size, first := x.first, clus := x.first } = 0 := by
        rw [need_eq_zero (by dsimp only; unfold ufsSector at hsize; omega) h32]
        exact ⟨(by decide : 0 < ufsSector), hsize⟩
      obtain ⟨turns, r', hres⟩ := hall.read s hs _ (.opened hc hrun hraw hturn hfile) 1
      unfold ufsRead at hres
      have hlen : (if 1 > sub32 x.size 0 then sub32 x.size 0 else 1) = 1 := by
        unfold sub32 u32 ufsSector at *
        rw [if_neg (by omega)]
      rw [hlen, readLoop_stuck hg hb hsees rfl rfl (fun _ => rfl) hneed hfirst (by decide)] at hres
      exact nomatch hres
  · intro hcan
    refine ⟨fun s hs path e _ => ?_, fun s hs c hc e => ?_, fun s hs f hf len => ?_⟩
    · exact (hs.ready hg).1.lookup_ends hg hcan.folders path e
    · exact (hs.ready hg).1.list_ends hg (hcan.folders c hc) e
    · obtain ⟨hg', hb', hsteady⟩ := hs.sound_boot hg
      obtain ⟨hentry, hok⟩ := Handle.entry
        (P := fun size first => size ≤ 2 ^ 32 - ufsSector ∨ ¬FirstLoads disk g first)
        hcan.files hg hf
      apply readLoop_ends hb' hsteady hok.size (read_room hok.pos hok.size len)
      by_cases hpos : f.pos = 0
      · rcases hentry with hsmall | hfirst
        · exact .inr (.inl hsmall)
        · rcases le_or_gt f.size (2 ^ 32 - ufsSector) with hsmall | hbig
          · exact .inr (.inl hsmall)
          · have hneed : f.need = 0 := by
              rw [need_eq_zero (by omega) hok.size, hpos]
              exact ⟨by decide, hbig⟩
            refine .inr (.inr (.inr (Bool.eq_false_iff.mpr fun hload => hfirst ?_)))
            have hspec := load_spec hb' hsteady f
            have hthere := hspec.stays.back (hspec.there hload)
            rw [← (hs.ready hg).1.geo]
            exact (load_empty_iff hg' (hsteady hthere) hpos hok.home hneed).mp hload
      · exact .inl hpos

theorem all_end_folder : AllEnd folderStick smallGeo := by
  have hmount := @small_mount folderStick rfl
  refine (all_end_iff smallGeo_sound (.mount rfl rfl hmount rfl) rfl).mpr ⟨fun c hc => ?_, ?_⟩
  · rcases folderStick_folders hc with rfl | rfl
    · exact ends_of_root
    · exact .stop folderEmpty rfl
  · intro c rs d r d' e lfnOk x hc hrun hraw hturn hfile
    rcases folderStick_entries (folderStick_folders hc) hrun hraw with rfl | rfl
    · rw [dirTurn_entry hturn] at hfile
      exact absurd hfile (by decide : ¬decide (byteAt folderEntry 11 &&& attrDir ≠ 0) = false)
    · rw [dirTurn_stop.mpr rfl] at hturn
      exact nomatch hturn

-- ==================================================== a chain without an end

/-- A stick whose folder's one cluster is its own successor, and holds
deleted entries only. -/
def loopStick : Disk := fun start n =>
  if start = 1 then some ([0xf8, 0xff, 0xff, 0xff, 2, 0] ++ .replicate 506 0)
  else smallStick [folderEntry] (.replicate 16 (0xe5 :: .replicate 31 0)) start n

/-- The reading of the folder, behind `n` entries. -/
def loopPlace (n : Nat) : Udir :=
  { clus := 2, secIdx := 1, ent := n, nent := 16
    buf := sectorOf (.replicate 16 (0xe5 :: .replicate 31 0)) }

theorem loop_fatRead : fatRead loopStick smallGeo 2 = some 2 := by
  decide +kernel

/-- A place of that reading. -/
def AtLoop (d : Udir) : Prop := d = { clus := 2 } ∨ ∃ n ≤ 16, d = loopPlace n

theorem loop_entry : ∀ n < 16,
    byteAt (((sectorOf (.replicate 16 (0xe5 :: .replicate 31 0))).drop (32 * n)).take 32) 0 ≠ 0 := by
  decide +kernel

/-- It always goes on. -/
theorem loop_goes {d : Udir} (h : AtLoop d) :
    ∃ r d', rawStep loopStick smallGeo d = .more r d' ∧ byteAt r 0 ≠ 0 ∧ AtLoop d' := by
  rcases h with rfl | ⟨n, hn, rfl⟩
  · exact ⟨_, _, rfl, loop_entry 0 (by decide), .inr ⟨1, by decide, rfl⟩⟩
  · by_cases hlast : n = 16
    · subst hlast
      refine ⟨_, loopPlace 1, ?_, loop_entry 0 (by decide), .inr ⟨1, by decide, rfl⟩⟩
      unfold rawStep
      rw [if_neg (by decide), if_pos (show (loopPlace 16).ent = (loopPlace 16).nent from rfl),
        if_neg (by decide), if_pos (show (loopPlace 16).secIdx = smallGeo.spc from rfl),
        show (loopPlace 16).clus = 2 from rfl, loop_fatRead]
      rfl
    · refine ⟨_, loopPlace (n + 1), ?_, loop_entry n (by omega), .inr ⟨n + 1, by omega, rfl⟩⟩
      unfold rawStep
      rw [if_neg (show ¬(loopPlace n).done = true from Bool.false_ne_true),
        if_neg (show ¬(loopPlace n).ent = (loopPlace n).nent from hlast)]
      rfl

theorem loop_endless {d : Udir} (h : EntriesEnd loopStick smallGeo d) : ¬AtLoop d := by
  induction h with
  | fin hraw =>
      intro hat
      obtain ⟨r, d', hmore, -, -⟩ := loop_goes hat
      rw [hraw] at hmore
      exact nomatch hmore
  | stop hraw h0 =>
      intro hat
      obtain ⟨r, d', hmore, hne, -⟩ := loop_goes hat
      rw [hraw] at hmore
      cases hmore
      exact hne h0
  | more hraw _ ih =>
      intro hat
      obtain ⟨r, d', hmore, -, hnext⟩ := loop_goes hat
      rw [hraw] at hmore
      cases hmore
      exact ih hnext

/-- Listing that folder never ends. -/
theorem not_all_end : ∃ disk s, onDisk disk (ufsMount {}) = (true, s) ∧ ¬AllEnd disk s.geo := by
  have hmount := @small_mount loopStick rfl
  refine ⟨loopStick, { geo := smallGeo }, hmount, fun hall => ?_⟩
  have hfolder : Folder loopStick smallGeo 2 :=
    .sub .root (.nil _) (show rawStep loopStick smallGeo { clus := 0 } = .more folderEntry
      { clus := 0, secIdx := 1, ent := 1, nent := 16, buf := sectorOf [folderEntry] } from rfl)
      (turn_folder (rootEntry smallGeo)) rfl
  have hsees : ({ geo := smallGeo } : Fs).Sees loopStick := ⟨rfl, fun h => absurd rfl h⟩
  have hlist := hall.list _ (.mount rfl rfl hmount rfl) 2 hfolder (rootEntry smallGeo)
  exact loop_endless ((list_ends_iff hsees smallGeo_sound _ _).mp hlist) (.inl rfl)

end Ncmips.Usbfat
