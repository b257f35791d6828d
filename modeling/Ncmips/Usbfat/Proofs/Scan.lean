/-
Searching a folder, as a relation.

`rawStep` is what `ufs_dir_raw` does on a stick that does not change, and
`Finds` the search for a name from any place of a folder: what the two
nested loops come to if they end. They end, with this result, when they
may take enough turns (`findLoop_of_finds`), and only then
(`finds_of_findLoop`).
-/
import Ncmips.Usbfat.Proofs.Fat

namespace Ncmips.Usbfat

-- ============================================================ raw entries

/-- What `ufs_dir_raw` comes to: an entry, or the end, with a read that
failed or not. -/
inductive Raw
  | more (r : List UInt8) (d : Udir)
  | fin (d : Udir) (lost : Bool)

def rawLoad (disk : Disk) (d : Udir) (sec n : Nat) : Raw :=
  let n := if n > dirSectors then dirSectors else n
  let d := { d with secIdx := d.secIdx + n }
  match disk sec n with
  | none => .fin { d with done := true } true
  | some buf =>
      let d := { d with buf, ent := 0, nent := n * (ufsSector / 32) }
      .more d.take.1 d.take.2

/-- Within a cluster, or at its start. -/
def rawCluster (disk : Disk) (g : Geo) (d : Udir) : Raw :=
  if ufsEoc d.clus then .fin { d with done := true } false
  else rawLoad disk d (u32 (ufsClusSector g d.clus + d.secIdx)) (g.spc - d.secIdx)

def rawStep (disk : Disk) (g : Geo) (d : Udir) : Raw :=
  if d.done then .fin d false
  else if d.ent = d.nent then
    if d.clus = 0 then
      if d.secIdx = g.rootSectors then .fin { d with done := true } false
      else rawLoad disk d (u32 (g.rootStart + d.secIdx)) (g.rootSectors - d.secIdx)
    else if d.secIdx = g.spc then
      match fatRead disk g d.clus with
      | none => .fin { d with clus := fatEnd, secIdx := 0, done := true } true
      | some clus => rawCluster disk g { d with clus, secIdx := 0 }
    else rawCluster disk g d
  else .more d.take.1 d.take.2

variable {disk : Disk} {s : Fs}

/-- The state after a step that ended with the stick lost or not. -/
structure Fs.After (s s' : Fs) (disk : Disk) (lost : Bool) : Prop extends s.Like s' where
  lost_eq : s'.lost = lost
  sees : lost = false → s'.Sees disk

theorem Fs.Sees.after (h : s.Sees disk) : s.After s disk false :=
  { Fs.Like.refl s with lost_eq := h.there, sees := fun _ => h }

theorem Fs.After.ofLike {s s' : Fs} (hlike : s.Like s') (h : s'.Sees disk) :
    s.After s' disk false :=
  { hlike with lost_eq := h.there, sees := fun _ => h }

theorem Fs.After.head {s s' s'' : Fs} {lost : Bool} (hlike : s.Like s')
    (h : s'.After s'' disk lost) : s.After s'' disk lost :=
  { hlike.trans h.toLike with lost_eq := h.lost_eq, sees := h.sees }

/-- The program does what `raw` says. -/
def DoesRaw (disk : Disk) (s : Fs) (res : Option (List UInt8) × Udir × Fs) : Raw → Prop
  | .more r d => ∃ s', res = (some r, d, s') ∧ s.After s' disk false
  | .fin d lost => ∃ s', res = (none, d, s') ∧ s.After s' disk lost

theorem DoesRaw.head {s s' : Fs} {res : Option (List UInt8) × Udir × Fs} {raw : Raw}
    (hlike : s.Like s') (h : DoesRaw disk s' res raw) : DoesRaw disk s res raw := by
  cases raw with
  | more r d =>
      obtain ⟨s'', heq, hafter⟩ := h
      exact ⟨s'', heq, hafter.head hlike⟩
  | fin d lost =>
      obtain ⟨s'', heq, hafter⟩ := h
      exact ⟨s'', heq, hafter.head hlike⟩

theorem onDisk_dirLoad (h : s.Sees disk) (d : Udir) (sec n : Nat) :
    DoesRaw disk s (onDisk disk (dirLoad d s sec n)) (rawLoad disk d sec n) := by
  unfold dirLoad rawLoad
  simp only [onDisk_bind, onDisk_sectors h]
  cases disk sec (if n > dirSectors then dirSectors else n) with
  | none =>
      refine ⟨_, rfl, ?_⟩
      exact { geo := rfl, dcache := rfl, next := rfl, lost_eq := rfl,
              sees := fun h => absurd h (by decide) }
  | some data => exact ⟨s, rfl, h.after⟩

theorem onDisk_rawCluster (h : s.Sees disk) (d : Udir) :
    DoesRaw disk s
      (onDisk disk (if ufsEoc d.clus then pure (none, { d with done := true }, s)
        else dirLoad d s (u32 (ufsClusSector s.geo d.clus + d.secIdx)) (s.geo.spc - d.secIdx)))
      (rawCluster disk s.geo d) := by
  unfold rawCluster
  cases ufsEoc d.clus with
  | true => exact ⟨s, rfl, h.after⟩
  | false => exact onDisk_dirLoad h d _ _

theorem onDisk_dirRaw_at (h : s.Sees disk) {d : Udir} (hd : (fatPlace s.geo d.clus).1 ≠ noSector) :
    DoesRaw disk s (onDisk disk (ufsDirRaw d s)) (rawStep disk s.geo d) := by
  unfold ufsDirRaw rawStep
  by_cases hdone : d.done = true
  · rw [if_pos hdone, if_pos hdone]
    exact ⟨s, rfl, h.after⟩
  rw [if_neg hdone, if_neg hdone]
  by_cases hload : d.ent = d.nent
  · rw [if_pos hload, if_pos hload]
    by_cases hroot : d.clus = 0
    · rw [if_pos hroot, if_pos hroot]
      by_cases hend : d.secIdx = s.geo.rootSectors
      · rw [if_pos hend, if_pos hend]
        exact ⟨s, rfl, h.after⟩
      · rw [if_neg hend, if_neg hend]
        exact onDisk_dirLoad h d _ _
    · rw [if_neg hroot, if_neg hroot]
      by_cases hnext : d.secIdx = s.geo.spc
      · simp only [if_pos hnext, onDisk_bind]
        rcases onDisk_fatNext h hd with ⟨v, s', hread, hres, hlike, hsees⟩ | ⟨hread, hres⟩
        · simp only [hread, hres, onDisk_pure]
          rw [← hlike.geo]
          exact (onDisk_rawCluster hsees { d with clus := v, secIdx := 0 }).head hlike
        · simp only [hread, hres, onDisk_pure]
          refine ⟨_, rfl, ?_⟩
          exact { geo := rfl, dcache := rfl, next := rfl, lost_eq := rfl
                  sees := fun h => nomatch h }
      · simp only [if_neg hnext, onDisk_bind, onDisk_pure]
        exact onDisk_rawCluster h d
  · rw [if_neg hload, if_neg hload]
    exact ⟨s, rfl, h.after⟩

theorem onDisk_dirRaw (h : s.Sees disk) (hg : s.geo.Sound) (d : Udir) :
    DoesRaw disk s (onDisk disk (ufsDirRaw d s)) (rawStep disk s.geo d) :=
  onDisk_dirRaw_at h (hg d.clus)

-- ================================================================ searches

/-- What a search comes to. -/
structure Found where
  found : Bool
  e : Udirent
  lost : Bool

/-- The search for `comp` from a place of a folder, the long name read so
far being whole (`lfnOk`) or not. -/
inductive Finds (disk : Disk) (g : Geo) (comp : List UInt8) :
    Udir → Udirent → Bool → Found → Prop
  | fin {d d' : Udir} {e : Udirent} {lfnOk lost : Bool} (hraw : rawStep disk g d = .fin d' lost) :
      Finds disk g comp d e lfnOk { found := false, e, lost }
  | stop {d d' : Udir} {e : Udirent} {lfnOk : Bool} {r : List UInt8}
      (hraw : rawStep disk g d = .more r d') (hturn : dirTurn g.fat32 r e lfnOk = .stop) :
      Finds disk g comp d e lfnOk { found := false, e, lost := false }
  | skip {d d' : Udir} {e e' : Udirent} {lfnOk lfnOk' : Bool} {r : List UInt8} {o : Found}
      (hraw : rawStep disk g d = .more r d') (hturn : dirTurn g.fat32 r e lfnOk = .skip e' lfnOk')
      (hrest : Finds disk g comp d' e' lfnOk' o) : Finds disk g comp d e lfnOk o
  | found {d d' : Udir} {e e' : Udirent} {lfnOk : Bool} {r : List UInt8}
      (hraw : rawStep disk g d = .more r d') (hturn : dirTurn g.fat32 r e lfnOk = .entry e')
      (hname : ufsNameEq e'.name comp comp.length = true) :
      Finds disk g comp d e lfnOk { found := true, e := e', lost := false }
  | other {d d' : Udir} {e e' : Udirent} {lfnOk : Bool} {r : List UInt8} {o : Found}
      (hraw : rawStep disk g d = .more r d') (hturn : dirTurn g.fat32 r e lfnOk = .entry e')
      (hname : ufsNameEq e'.name comp comp.length = false)
      (hrest : Finds disk g comp d' e' false o) : Finds disk g comp d e lfnOk o

/-- Comparing with the first bytes of a path is comparing with those. -/
theorem nameEq_take (a : Nat → UInt8) (path : List UInt8) {len : Nat} (hlen : len ≤ path.length) :
    ufsNameEq a path len = ufsNameEq a (path.take len) (path.take len).length := by
  rw [List.length_take, Nat.min_eq_left hlen]
  have hbyte : ∀ i ∈ List.range len, Bits.byteAt (path.take len) i = Bits.byteAt path i := by
    intro i hi
    have hi' := List.mem_range.mp hi
    simp only [Bits.byteAt, List.getD_eq_getElem?_getD, List.getElem?_take, hi', if_true]
  have hall : (List.range len).all (fun i => a i ≠ 0 ∧ ufsLower (a i) = ufsLower (Bits.byteAt path i))
      = (List.range len).all
          fun i => a i ≠ 0 ∧ ufsLower (a i) = ufsLower (Bits.byteAt (path.take len) i) := by
    rw [Bool.eq_iff_iff, List.all_eq_true, List.all_eq_true]
    constructor
    · intro h i hi
      rw [hbyte i hi]
      exact h i hi
    · intro h i hi
      have := h i hi
      rwa [hbyte i hi] at this
  unfold ufsNameEq
  rw [hall]

variable {path : List UInt8} {len : Nat}

/-- One call of `ufs_readdir`, from any place of it: what follows decides
the search. -/
theorem finds_of_readdir {turns : Nat} (h : s.Sees disk) (hg : s.geo.Sound) {d : Udir}
    {e : Udirent} {lfnOk : Bool} {r : Scan}
    (hres : onDisk disk (readdirLoop turns d e lfnOk s) = some r) (comp : List UInt8) :
    s.After r.s disk r.s.lost
      ∧ (r.found = false → Finds disk s.geo comp d e lfnOk { found := false, e := r.e, lost := r.s.lost })
      ∧ (r.found = true → r.s.lost = false
        ∧ (ufsNameEq r.e.name comp comp.length = true →
            Finds disk s.geo comp d e lfnOk { found := true, e := r.e, lost := false })
        ∧ (ufsNameEq r.e.name comp comp.length = false →
          ∀ o, Finds disk s.geo comp r.d r.e false o → Finds disk s.geo comp d e lfnOk o)) := by
  induction turns generalizing d e lfnOk s with
  | zero => simp [readdirLoop] at hres
  | succ turns ih =>
      have hraw := onDisk_dirRaw h hg d
      unfold readdirLoop at hres
      rw [onDisk_bind] at hres
      cases hstep : rawStep disk s.geo d with
      | fin d' lost =>
          rw [hstep] at hraw
          obtain ⟨s', heq, hafter⟩ := hraw
          simp only [heq, onDisk_pure, Option.some.injEq] at hres
          subst hres
          dsimp only
          rw [hafter.lost_eq]
          exact ⟨hafter, fun _ => .fin hstep, fun hf => nomatch hf⟩
      | more raw d' =>
          rw [hstep] at hraw
          obtain ⟨s', heq, hafter⟩ := hraw
          have hsees := hafter.sees rfl
          simp only [heq] at hres
          rw [hafter.geo] at hres
          cases hturn : dirTurn s.geo.fat32 raw e lfnOk with
          | stop =>
              simp only [hturn, onDisk_pure, Option.some.injEq] at hres
              subst hres
              dsimp only
              rw [hafter.lost_eq]
              exact ⟨hafter, fun _ => .stop hstep hturn, fun hf => nomatch hf⟩
          | skip e' lfnOk' =>
              simp only [hturn] at hres
              have hg' : s'.geo.Sound := by rw [hafter.geo]; exact hg
              obtain ⟨hlike, hno, hyes⟩ := ih hsees hg' hres
              rw [hafter.geo] at hno hyes
              refine ⟨hlike.head hafter.toLike, fun hf => .skip hstep hturn (hno hf), fun hf => ?_⟩
              obtain ⟨hthere, heq, hne⟩ := hyes hf
              exact ⟨hthere, fun hn => .skip hstep hturn (heq hn),
                fun hn o ho => .skip hstep hturn (hne hn o ho)⟩
          | entry e' =>
              simp only [hturn, onDisk_pure, Option.some.injEq] at hres
              subst hres
              dsimp only
              rw [hafter.lost_eq]
              exact ⟨hafter, (fun hf => nomatch hf), fun _ => ⟨rfl,
                fun hn => .found hstep hturn hn, fun hn o ho => .other hstep hturn hn ho⟩⟩

/-- A search that ended is one of the relation. -/
theorem finds_of_findLoop {turns calls : Nat} (h : s.Sees disk) (hg : s.geo.Sound)
    (hlen : len ≤ path.length) {d : Udir} {e : Udirent} {r : Scan}
    (hres : onDisk disk (findLoop turns path len calls d e s) = some r) :
    s.After r.s disk r.s.lost
      ∧ Finds disk s.geo (path.take len) d e false { found := r.found, e := r.e, lost := r.s.lost } := by
  induction calls generalizing d e s with
  | zero => simp [findLoop] at hres
  | succ calls ih =>
      unfold findLoop ufsReaddir at hres
      rw [onDisk_bind] at hres
      cases hcall : onDisk disk (readdirLoop turns d e false s) with
      | none => simp [hcall] at hres
      | some r' =>
          obtain ⟨hafter, hno, hyes⟩ := finds_of_readdir h hg hcall (path.take len)
          simp only [hcall] at hres
          cases hfound : r'.found with
          | false =>
              simp only [hfound, Bool.false_eq_true, if_false, onDisk_pure, Option.some.injEq] at hres
              subst hres
              rw [hfound]
              exact ⟨hafter, hno hfound⟩
          | true =>
              obtain ⟨hthere, heq, hne⟩ := hyes hfound
              rw [hfound, if_pos rfl, nameEq_take _ _ hlen] at hres
              cases hname : ufsNameEq r'.e.name (path.take len) (path.take len).length with
              | true =>
                  simp only [hname, if_true, onDisk_pure, Option.some.injEq] at hres
                  subst hres
                  rw [hfound, hthere]
                  exact ⟨hthere ▸ hafter, heq hname⟩
              | false =>
                  simp only [hname, Bool.false_eq_true, if_false] at hres
                  rw [hthere] at hafter
                  have hg' : r'.s.geo.Sound := by rw [hafter.geo]; exact hg
                  obtain ⟨hafter', hfinds⟩ := ih (hafter.sees rfl) hg' hres
                  rw [hafter.geo] at hfinds
                  exact ⟨hafter'.head hafter.toLike, hne hname _ hfinds⟩

/-- What `findLoop` does with a call of `ufs_readdir` that is under way. -/
def findFrom (turns : Nat) (path : List UInt8) (len calls inner : Nat) (d : Udir) (e : Udirent)
    (lfnOk : Bool) (s : Fs) : Io (Option Scan) := do
  match ← readdirLoop inner d e lfnOk s with
  | none => pure none
  | some r =>
      if r.found then
        if ufsNameEq r.e.name path len then pure (some r)
        else findLoop turns path len calls r.d r.e r.s
      else pure (some r)

theorem findLoop_succ (turns : Nat) (path : List UInt8) (len calls : Nat) (d : Udir) (e : Udirent)
    (s : Fs) : findLoop turns path len (calls + 1) d e s
      = findFrom turns path len calls turns d e false s := rfl

/-- A search of the relation is one that ends, if it may take enough
turns. -/
theorem findFrom_of_finds {d : Udir} {e : Udirent} {lfnOk : Bool} {o : Found} {g : Geo}
    (hfinds : Finds disk g (path.take len) d e lfnOk o) (hg : g.Sound) (hlen : len ≤ path.length) :
    ∃ n, ∀ turns ≥ n, ∀ inner ≥ n, ∀ calls ≥ n, ∀ s : Fs, s.Sees disk → s.geo = g →
      ∃ d' s', onDisk disk (findFrom turns path len calls inner d e lfnOk s)
          = some { found := o.found, d := d', e := o.e, s := s' }
        ∧ s.After s' disk o.lost := by
  induction hfinds with
  | @fin d d' e lfnOk lost hraw =>
      refine ⟨1, fun turns _ inner hinner calls _ s hs hgeo => ?_⟩
      obtain ⟨inner, rfl⟩ : ∃ k, inner = k + 1 := ⟨inner - 1, by omega⟩
      subst hgeo
      have hstep := onDisk_dirRaw hs hg d
      rw [hraw] at hstep
      obtain ⟨s', heq, hafter⟩ := hstep
      refine ⟨d', s', ?_, hafter⟩
      unfold findFrom readdirLoop
      simp only [onDisk_bind, heq, onDisk_pure, Bool.false_eq_true, if_false]
  | @stop d d' e lfnOk r hraw hturn =>
      refine ⟨1, fun turns _ inner hinner calls _ s hs hgeo => ?_⟩
      obtain ⟨inner, rfl⟩ : ∃ k, inner = k + 1 := ⟨inner - 1, by omega⟩
      subst hgeo
      have hstep := onDisk_dirRaw hs hg d
      rw [hraw] at hstep
      obtain ⟨s', heq, hafter⟩ := hstep
      refine ⟨{ d' with done := true }, s', ?_, hafter⟩
      unfold findFrom readdirLoop
      simp only [onDisk_bind, heq, hafter.geo, hturn, onDisk_pure, Bool.false_eq_true, if_false]
  | @skip d d' e e' lfnOk lfnOk' r o hraw hturn _ ih =>
      obtain ⟨n, hn⟩ := ih
      refine ⟨n + 1, fun turns ht inner hinner calls hc s hs hgeo => ?_⟩
      obtain ⟨inner, rfl⟩ : ∃ k, inner = k + 1 := ⟨inner - 1, by omega⟩
      subst hgeo
      have hstep := onDisk_dirRaw hs hg d
      rw [hraw] at hstep
      obtain ⟨s', heq, hafter⟩ := hstep
      obtain ⟨d'', s'', hres, hafter'⟩ := hn turns (by omega) inner (by omega) calls (by omega) s'
        (hafter.sees rfl) hafter.geo
      refine ⟨d'', s'', ?_, hafter'.head hafter.toLike⟩
      rw [← hres]
      unfold findFrom
      rw [readdirLoop]
      simp only [onDisk_bind, heq, hafter.geo, hturn]
  | @found d d' e e' lfnOk r hraw hturn hname =>
      refine ⟨1, fun turns _ inner hinner calls _ s hs hgeo => ?_⟩
      obtain ⟨inner, rfl⟩ : ∃ k, inner = k + 1 := ⟨inner - 1, by omega⟩
      subst hgeo
      have hstep := onDisk_dirRaw hs hg d
      rw [hraw] at hstep
      obtain ⟨s', heq, hafter⟩ := hstep
      rw [← nameEq_take _ _ hlen] at hname
      refine ⟨d', s', ?_, hafter⟩
      unfold findFrom readdirLoop
      simp only [onDisk_bind, heq, hafter.geo, hturn, onDisk_pure, if_true, hname]
  | @other d d' e e' lfnOk r o hraw hturn hname _ ih =>
      obtain ⟨n, hn⟩ := ih
      refine ⟨n + 1, fun turns ht inner hinner calls hc s hs hgeo => ?_⟩
      obtain ⟨inner, rfl⟩ : ∃ k, inner = k + 1 := ⟨inner - 1, by omega⟩
      obtain ⟨calls, rfl⟩ : ∃ k, calls = k + 1 := ⟨calls - 1, by omega⟩
      subst hgeo
      have hstep := onDisk_dirRaw hs hg d
      rw [hraw] at hstep
      obtain ⟨s', heq, hafter⟩ := hstep
      obtain ⟨d'', s'', hres, hafter'⟩ := hn turns (by omega) turns (by omega) calls (by omega) s'
        (hafter.sees rfl) hafter.geo
      rw [← nameEq_take _ _ hlen] at hname
      refine ⟨d'', s'', ?_, hafter'.head hafter.toLike⟩
      rw [← hres, ← findLoop_succ]
      unfold findFrom readdirLoop
      simp only [onDisk_bind, heq, hafter.geo, hturn, onDisk_pure, if_true, hname,
        Bool.false_eq_true, if_false]

theorem findLoop_of_finds {d : Udir} {e : Udirent} {o : Found} {g : Geo}
    (hfinds : Finds disk g (path.take len) d e false o) (hg : g.Sound) (hlen : len ≤ path.length) :
    ∃ n, ∀ turns ≥ n, ∀ s : Fs, s.Sees disk → s.geo = g →
      ∃ d' s', onDisk disk (findLoop turns path len turns d e s)
          = some { found := o.found, d := d', e := o.e, s := s' }
        ∧ s.After s' disk o.lost := by
  obtain ⟨n, hn⟩ := findFrom_of_finds hfinds hg hlen
  refine ⟨n + 1, fun turns ht s hs hgeo => ?_⟩
  obtain ⟨turns, rfl⟩ : ∃ k, turns = k + 1 := ⟨turns - 1, by omega⟩
  exact hn (turns + 1) (by omega) (turns + 1) (by omega) turns (by omega) s hs hgeo

-- ============================================================== the stick gone

section

variable (disk : Disk) {s : Fs}

theorem lost_dirLoad (h : s.lost = true) (d : Udir) (sec n : Nat) :
    (onDisk disk (dirLoad d s sec n)).2.2 = s := by
  unfold dirLoad
  dsimp only
  rw [onDisk_bind, lost_sectors disk h]
  rfl

theorem lost_rawCluster (h : s.lost = true) (d : Udir) :
    (onDisk disk (if ufsEoc d.clus then pure (none, { d with done := true }, s)
        else dirLoad d s (u32 (ufsClusSector s.geo d.clus + d.secIdx))
          (s.geo.spc - d.secIdx))).2.2 = s := by
  cases ufsEoc d.clus with
  | true => rfl
  | false => exact lost_dirLoad disk h _ _ _

theorem lost_dirRaw (h : s.lost = true) (d : Udir) : (onDisk disk (ufsDirRaw d s)).2.2 = s := by
  unfold ufsDirRaw
  by_cases hdone : d.done = true
  · rw [if_pos hdone]
    rfl
  rw [if_neg hdone]
  by_cases hload : d.ent = d.nent
  · rw [if_pos hload]
    by_cases hroot : d.clus = 0
    · rw [if_pos hroot]
      split
      · rfl
      · exact lost_dirLoad disk h _ _ _
    · rw [if_neg hroot]
      by_cases hnext : d.secIdx = s.geo.spc
      · simp only [if_pos hnext, onDisk_bind, onDisk_pure]
        have hfat := lost_fatNext disk h d.clus
        revert hfat
        generalize onDisk disk (ufsFatNext s d.clus) = q
        rintro rfl
        exact lost_rawCluster disk h { d with clus := q.1, secIdx := 0 }
      · simp only [if_neg hnext, onDisk_bind, onDisk_pure]
        exact lost_rawCluster disk h d
  · rw [if_neg hload]
    rfl

/-- With an empty buffer there is no entry. -/
theorem lost_dirRaw_start (h : s.lost = true) {d : Udir} (hd : d.ent = d.nent) :
    (onDisk disk (ufsDirRaw d s)).1 = none := by
  have hload : ∀ d sec n, (onDisk disk (dirLoad d s sec n)).1 = none := by
    intro d sec n
    unfold dirLoad
    dsimp only
    rw [onDisk_bind, lost_sectors disk h]
    rfl
  have hclus : ∀ d : Udir, (onDisk disk (if ufsEoc d.clus then pure (none, { d with done := true }, s)
      else dirLoad d s (u32 (ufsClusSector s.geo d.clus + d.secIdx))
        (s.geo.spc - d.secIdx))).1 = none := by
    intro d
    cases ufsEoc d.clus with
    | true => rfl
    | false => exact hload d _ _
  unfold ufsDirRaw
  by_cases hdone : d.done = true
  · rw [if_pos hdone]
    rfl
  rw [if_neg hdone, if_pos hd]
  by_cases hroot : d.clus = 0
  · rw [if_pos hroot]
    split
    · rfl
    · exact hload _ _ _
  · rw [if_neg hroot]
    by_cases hnext : d.secIdx = s.geo.spc
    · simp only [if_pos hnext, onDisk_bind, onDisk_pure]
      have hfat := lost_fatNext disk h d.clus
      revert hfat
      generalize onDisk disk (ufsFatNext s d.clus) = q
      rintro rfl
      exact hclus { d with clus := q.1, secIdx := 0 }
    · simp only [if_neg hnext, onDisk_bind, onDisk_pure]
      exact hclus d

theorem lost_readdir (h : s.lost = true) {turns : Nat} {d : Udir} {e : Udirent} {lfnOk : Bool}
    {r : Scan} (hres : onDisk disk (readdirLoop turns d e lfnOk s) = some r) : r.s = s := by
  induction turns generalizing d e lfnOk with
  | zero => simp [readdirLoop] at hres
  | succ turns ih =>
      have hraw := lost_dirRaw disk h d
      unfold readdirLoop at hres
      rw [onDisk_bind] at hres
      obtain ⟨o, d', s', heq⟩ : ∃ o d' s', onDisk disk (ufsDirRaw d s) = (o, d', s') := ⟨_, _, _, rfl⟩
      rw [heq] at hraw hres
      obtain rfl : s' = s := hraw
      cases o with
      | none =>
          simp only [onDisk_pure, Option.some.injEq] at hres
          rw [← hres]
      | some raw =>
          simp only at hres
          cases hturn : dirTurn s'.geo.fat32 raw e lfnOk with
          | stop =>
              simp only [hturn, onDisk_pure, Option.some.injEq] at hres
              rw [← hres]
          | skip e' lfnOk' =>
              simp only [hturn] at hres
              exact ih hres
          | entry e' =>
              simp only [hturn, onDisk_pure, Option.some.injEq] at hres
              rw [← hres]

theorem lost_findLoop (h : s.lost = true) {turns calls : Nat} {path : List UInt8} {len : Nat}
    {d : Udir} {e : Udirent} {r : Scan}
    (hres : onDisk disk (findLoop turns path len calls d e s) = some r) : r.s = s := by
  induction calls generalizing d e with
  | zero => simp [findLoop] at hres
  | succ calls ih =>
      unfold findLoop ufsReaddir at hres
      rw [onDisk_bind] at hres
      cases hcall : onDisk disk (readdirLoop turns d e false s) with
      | none => simp [hcall] at hres
      | some r' =>
          have hs := lost_readdir disk h hcall
          simp only [hcall, hs] at hres
          split at hres
          · split at hres
            · simp only [onDisk_pure, Option.some.injEq] at hres
              rw [← hres, hs]
            · exact ih hres
          · simp only [onDisk_pure, Option.some.injEq] at hres
            rw [← hres, hs]

end

-- =============================================================== what stays

theorem dirLoad_stays {s : Fs} (h : s.Steady disk) (d : Udir) (sec n : Nat) :
    s.Stays (onDisk disk (dirLoad d s sec n)).2.2 disk := by
  unfold dirLoad
  dsimp only
  have hstays := sectors_stays h sec (if n > dirSectors then dirSectors else n)
  rw [onDisk_bind]
  generalize onDisk disk (ufsSectors s sec (if n > dirSectors then dirSectors else n)) = q at hstays
  obtain ⟨data, s'⟩ := q
  cases data with
  | none => exact hstays
  | some buf => exact hstays

theorem rawCluster_stays {s : Fs} (h : s.Steady disk) (d : Udir) :
    s.Stays (onDisk disk (if ufsEoc d.clus then pure (none, { d with done := true }, s)
        else dirLoad d s (u32 (ufsClusSector s.geo d.clus + d.secIdx))
          (s.geo.spc - d.secIdx))).2.2 disk := by
  cases ufsEoc d.clus with
  | true => exact h.stays
  | false => exact dirLoad_stays h d _ _

theorem dirRaw_stays {s : Fs} (h : s.Steady disk) (d : Udir) :
    s.Stays (onDisk disk (ufsDirRaw d s)).2.2 disk := by
  unfold ufsDirRaw
  by_cases hdone : d.done = true
  · rw [if_pos hdone]
    exact h.stays
  rw [if_neg hdone]
  by_cases hload : d.ent = d.nent
  · rw [if_pos hload]
    by_cases hroot : d.clus = 0
    · rw [if_pos hroot]
      split
      · exact h.stays
      · exact dirLoad_stays h _ _ _
    · rw [if_neg hroot]
      by_cases hnext : d.secIdx = s.geo.spc
      · simp only [if_pos hnext, onDisk_bind, onDisk_pure]
        have hfat := fatNext_stays h d.clus
        generalize onDisk disk (ufsFatNext s d.clus) = q at hfat
        exact hfat.trans (rawCluster_stays hfat.steady { d with clus := q.1, secIdx := 0 })
      · simp only [if_neg hnext, onDisk_bind, onDisk_pure]
        exact rawCluster_stays h d
  · rw [if_neg hload]
    exact h.stays

theorem readdir_stays {s : Fs} (h : s.Steady disk) {turns : Nat} {d : Udir} {e : Udirent}
    {lfnOk : Bool} {r : Scan} (hres : onDisk disk (readdirLoop turns d e lfnOk s) = some r) :
    s.Stays r.s disk := by
  induction turns generalizing d e lfnOk s with
  | zero => simp [readdirLoop] at hres
  | succ turns ih =>
      have hraw := dirRaw_stays h d
      unfold readdirLoop at hres
      rw [onDisk_bind] at hres
      generalize onDisk disk (ufsDirRaw d s) = q at hraw hres
      obtain ⟨o, d', s'⟩ := q
      cases o with
      | none =>
          simp only [onDisk_pure, Option.some.injEq] at hres
          rw [← hres]
          exact hraw
      | some raw =>
          simp only at hres
          cases hturn : dirTurn s'.geo.fat32 raw e lfnOk with
          | stop =>
              simp only [hturn, onDisk_pure, Option.some.injEq] at hres
              rw [← hres]
              exact hraw
          | skip e' lfnOk' =>
              simp only [hturn] at hres
              exact hraw.trans (ih hraw.steady hres)
          | entry e' =>
              simp only [hturn, onDisk_pure, Option.some.injEq] at hres
              rw [← hres]
              exact hraw

theorem findLoop_stays {s : Fs} (h : s.Steady disk) {turns calls : Nat} {path : List UInt8}
    {len : Nat} {d : Udir} {e : Udirent} {r : Scan}
    (hres : onDisk disk (findLoop turns path len calls d e s) = some r) : s.Stays r.s disk := by
  induction calls generalizing d e s with
  | zero => simp [findLoop] at hres
  | succ calls ih =>
      unfold findLoop ufsReaddir at hres
      rw [onDisk_bind] at hres
      cases hcall : onDisk disk (readdirLoop turns d e false s) with
      | none => simp [hcall] at hres
      | some r' =>
          have hstays := readdir_stays h hcall
          simp only [hcall] at hres
          split at hres
          · split at hres
            · simp only [onDisk_pure, Option.some.injEq] at hres
              rw [← hres]
              exact hstays
            · exact hstays.trans (ih hstays.steady hres)
          · simp only [onDisk_pure, Option.some.injEq] at hres
            rw [← hres]
            exact hstays

end Ncmips.Usbfat
