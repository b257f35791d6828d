/-
The folder cache tells the truth.

Every folder in the cache is one that its path leads to from the root
(`Leads`), whatever lookups and evictions there were. A lookup then comes
to what the walk over the path's components from the root comes to, with
the cache or without, on a volume that is `Clean`.
-/
import Ncmips.Usbfat.Proofs.Names

namespace Ncmips.Usbfat

open Bits (byteAt)

-- ============================================================== the stick gone

@[simp] theorem dcachePut_lost (s : Fs) (path : List UInt8) (len clus : Nat) :
    (ufsDcachePut s path len clus).lost = s.lost := by
  unfold ufsDcachePut
  split_ifs <;> rfl

/-- What scans of folders and the cache keep, the walk keeps. -/
theorem walkLoop_keeps {disk : Disk} (P : Fs → Prop) {turns : Nat} {full : List UInt8}
    (hfind : ∀ {path len calls d e s r}, P s →
      onDisk disk (findLoop turns path len calls d e s) = some r → P r.s)
    (hput : ∀ {s : Fs} (path len c), P s → P (ufsDcachePut s path len c)) (path : List UInt8)
    {clus : Nat} {e : Udirent} {s : Fs} (h : P s) {r : Lookup}
    (hres : onDisk disk (walkLoop turns full path clus e s) = some r) : P r.s := by
  induction hlen : path.length using Nat.strong_induction_on generalizing path clus e s with
  | _ n ih =>
      cases path with
      | nil =>
          unfold walkLoop at hres
          simp only [onDisk_pure, Option.some.injEq] at hres
          rw [← hres]
          exact h
      | cons b bs =>
          unfold walkLoop at hres
          dsimp only at hres
          split at hres
          · simp only [onDisk_pure, Option.some.injEq] at hres
            rw [← hres]
            exact h
          · rw [onDisk_bind] at hres
            cases hscan : onDisk disk (findLoop turns (b :: bs)
                ((b :: bs).takeWhile (· ≠ 0x2f)).length turns { clus } e s) with
            | none => simp only [hscan, onDisk_pure, reduceCtorEq] at hres
            | some r' =>
                have hs := hfind h hscan
                simp only [hscan] at hres
                split at hres
                · simp only [onDisk_pure, Option.some.injEq] at hres
                  rw [← hres]
                  exact hs
                · refine ih _ ?_ _ ?_ hres rfl
                  · rw [← hlen]
                    exact next_component_lt b bs
                  · split
                    · exact hput _ _ _ hs
                    · exact hs

theorem lookup_keeps {disk : Disk} (P : Fs → Prop) {turns : Nat}
    (hfind : ∀ {path len calls d e s r}, P s →
      onDisk disk (findLoop turns path len calls d e s) = some r → P r.s)
    (hput : ∀ {s : Fs} (path len c), P s → P (ufsDcachePut s path len c)) {path : List UInt8}
    {e : Udirent} {s : Fs} (h : P s) {r : Lookup}
    (hres : onDisk disk (ufsLookup turns path e s) = some r) : P r.s := by
  unfold ufsLookup at hres
  dsimp only at hres
  split at hres
  · exact walkLoop_keeps P hfind hput _ h hres
  · exact walkLoop_keeps P hfind hput _ h hres

/-- Once lost, a stick stays lost until it is mounted again. -/
theorem lost_lookup {disk : Disk} {s : Fs} (h : s.lost = true) {turns : Nat} {path : List UInt8}
    {e : Udirent} {r : Lookup} (hres : onDisk disk (ufsLookup turns path e s) = some r) :
    r.s.lost = true := by
  refine lookup_keeps (fun s => s.lost = true) ?_ ?_ h hres
  · intro path len calls d e s r hs hscan
    rw [lost_findLoop disk hs hscan]
    exact hs
  · intro s path len c hs
    rw [dcachePut_lost]
    exact hs

-- ================================================== where a path's start leads

/-- Nothing, or up to a slash: where a component may begin. -/
def AtStart (pre : List UInt8) : Prop := pre = [] ∨ ∃ p, pre = p ++ [0x2f]

theorem comps_append {pre : List UInt8} (h : AtStart pre) (c : List UInt8) :
    comps (pre ++ c) = comps pre ++ comps c := by
  rcases h with rfl | ⟨p, rfl⟩
  · rfl
  · rw [List.append_assoc, List.singleton_append, comps_slash, comps_slash, comps_nil,
      List.append_nil]

theorem comps_split {pre left : List UInt8} (h : left ≠ [] → AtStart pre) :
    comps (pre ++ left) = comps pre ++ comps left := by
  cases left with
  | nil => rw [List.append_nil, comps_nil, List.append_nil]
  | cons b bs => exact comps_append (h (List.cons_ne_nil _ _)) _

theorem skipSlashes_eq (path : List UInt8) :
    ∃ n, path = List.replicate n 0x2f ++ skipSlashes path := by
  induction path with
  | nil => exact ⟨0, rfl⟩
  | cons b bs ih =>
      obtain ⟨n, hn⟩ := ih
      unfold skipSlashes at hn ⊢
      by_cases hb : b = 0x2f
      · refine ⟨n + 1, ?_⟩
        rw [List.dropWhile_cons_of_pos (by simpa using hb), List.replicate_succ, List.cons_append,
          ← hn, hb]
      · exact ⟨0, by rw [List.dropWhile_cons_of_neg (by simpa using hb)]; rfl⟩

theorem comps_slashes (x : List UInt8) (n : Nat) : comps (x ++ .replicate n 0x2f) = comps x := by
  induction n generalizing x with
  | zero => rw [List.replicate_zero, List.append_nil]
  | succ n ih =>
      rw [List.replicate_succ, comps_slash]
      have := ih []
      rw [List.nil_append] at this
      rw [this, comps_nil, List.append_nil]

/-- From the root, the components lead to folder `c`. -/
def Leads (disk : Disk) (g : Geo) (cs : List (List UInt8)) (c : Nat) : Prop :=
  ∀ e : Udirent, e.isDir = true →
    ∃ o, Walks disk g cs (rootOf g) e o ∧ o.found = true ∧ o.e.isDir = true
      ∧ nextClus g o.e = c

variable {disk : Disk} {g : Geo}

theorem Leads.congr {cs cs' : List (List UInt8)} (hcs : cs.map lower = cs'.map lower) {c : Nat}
    (h : Leads disk g cs c) : Leads disk g cs' c := by
  intro e he
  obtain ⟨o, hwalk, ho⟩ := h e he
  exact ⟨o, hwalk.congr hcs, ho⟩

/-- The walk stands at folder `c` behind the components: at the root, or
where they lead. -/
def Stands (disk : Disk) (g : Geo) (cs : List (List UInt8)) (c : Nat) : Prop :=
  cs = [] ∧ c = rootOf g ∨ cs ≠ [] ∧ Leads disk g cs c

theorem Stands.folder (hclean : Clean disk g) {cs : List (List UInt8)} {c : Nat}
    (h : Stands disk g cs c) : Folder disk g c := by
  rcases h with ⟨-, rfl⟩ | ⟨hcs, h⟩
  · exact .root
  · obtain ⟨o, hwalk, hfound, hdir, rfl⟩ := h { name := fun _ => 0, isDir := true } rfl
    exact (hwalk.folder hclean hcs (fun _ => .root) hfound hdir).1

/-- A folder found behind the components is where one more leads. -/
theorem Stands.next (hclean : Clean disk g) {cs : List (List UInt8)} {c : Nat}
    (h : Stands disk g cs c) {comp : List UInt8} {e : Udirent} {o : Found}
    (hfind : Finds disk g comp { clus := c } e false o) (hyes : o.found = true)
    (hdir : o.e.isDir = true) : Leads disk g (cs ++ [comp]) (nextClus g o.e) := by
  have hfolder := h.folder hclean
  intro e₀ he₀
  have hlast : ∀ e₁ : Udirent, e₁.isDir = true →
      ∃ o₂, Walks disk g [comp] c e₁ o₂ ∧ o.Twin o₂ := by
    intro e₁ he₁
    obtain ⟨o₂, hfind₂, htwin⟩ := hfind.twin_start hclean hfolder e₁
    have hfound₂ := htwin.found.trans hyes
    have hthere := hfind₂.there hfound₂
    refine ⟨o₂, ?_, htwin⟩
    have hwalk : Walks disk g [comp] c e₁ { found := true, e := o₂.e, lost := false } :=
      .next he₁ hfind₂ hfound₂ (.nil _ _)
    rw [← hfound₂, ← hthere] at hwalk
    exact hwalk
  have hend : ∀ o₂ : Found, o.Twin o₂ → o₂.found = true ∧ o₂.e.isDir = true
      ∧ nextClus g o₂.e = nextClus g o.e := by
    intro o₂ htwin
    have hentry := htwin.entry hyes
    exact ⟨htwin.found.trans hyes, hentry.isDir.trans hdir, nextClus_twin hentry⟩
  rcases h with ⟨rfl, rfl⟩ | ⟨hcs, hleads⟩
  · obtain ⟨o₂, hwalk, htwin⟩ := hlast e₀ he₀
    exact ⟨o₂, hwalk, hend o₂ htwin⟩
  · obtain ⟨o₁, hwalk₁, hfound₁, hdir₁, rfl⟩ := hleads e₀ he₀
    obtain ⟨o₂, hwalk, htwin⟩ := hlast o₁.e hdir₁
    exact ⟨o₂, hwalk₁.append hcs hfound₁ hwalk, hend o₂ htwin⟩

-- =============================================================== the cache

/-- What is in the folder cache is true: each path that is not the mark of
a free place leads to its cluster. -/
def CacheOk (disk : Disk) (g : Geo) (cache : List (List UInt8 × Nat)) : Prop :=
  ∀ kc ∈ cache, kc.1 ≠ [] → comps kc.1 ≠ [] ∧ Leads disk g (comps kc.1) kc.2

theorem cacheOk_empty (n : Nat) : CacheOk disk g (.replicate n ([], 0)) := by
  intro kc hkc hne
  obtain ⟨-, rfl⟩ := List.mem_replicate.mp hkc
  exact absurd rfl hne

theorem CacheOk.put {s : Fs} (h : CacheOk disk g s.dcache) {path : List UInt8} {len c : Nat}
    (hcomps : comps (path.take len) ≠ []) (hleads : Leads disk g (comps (path.take len)) c) :
    CacheOk disk g (ufsDcachePut s path len c).dcache := by
  unfold ufsDcachePut
  split_ifs
  · exact h
  · exact h
  · intro kc hkc hne
    rcases List.mem_or_eq_of_mem_set hkc with hold | rfl
    · exact h kc hold hne
    · exact ⟨hcomps, hleads⟩

theorem dcachePut_sees {s : Fs} (h : s.Sees disk) (path : List UInt8) (len c : Nat) :
    (ufsDcachePut s path len c).Sees disk ∧ (ufsDcachePut s path len c).geo = s.geo := by
  unfold ufsDcachePut
  split_ifs
  · exact ⟨h, rfl⟩
  · exact ⟨h, rfl⟩
  · exact ⟨⟨h.there, h.cached⟩, rfl⟩

-- ============================================================ the walk's loop

/-- What holds of the state since the volume was mounted. -/
structure Mounted (disk : Disk) (g : Geo) (s : Fs) : Prop where
  geo : s.geo = g
  sees : s.lost = false → s.Sees disk
  cache : CacheOk disk g s.dcache

theorem Mounted.after {s s' : Fs} {lost : Bool} (h : Mounted disk g s)
    (hafter : s.After s' disk lost) : Mounted disk g s' where
  geo := hafter.geo.trans h.geo
  sees := fun hthere => hafter.sees (hafter.lost_eq.symm.trans hthere)
  cache := by rw [hafter.dcache]; exact h.cache

/-- Remembering where the start of a path leads. -/
theorem Mounted.put_prefix {s : Fs} (h : Mounted disk g s) (hthere : s.lost = false)
    {full pre path comp : List UInt8} {len c : Nat} (hfull : full = pre ++ path)
    (hcomp : path.take len = comp) (hcomps : comps (pre ++ comp) ≠ [])
    (hleads : Leads disk g (comps (pre ++ comp)) c) :
    Mounted disk g (ufsDcachePut s full (full.length - path.length + len) c)
      ∧ (ufsDcachePut s full (full.length - path.length + len) c).lost = false := by
  have htake : full.take (full.length - path.length + len) = pre ++ comp := by
    rw [hfull, List.length_append, Nat.add_sub_cancel, List.take_length_add_append, hcomp]
  rw [← htake] at hcomps hleads
  obtain ⟨hsees, hgeo⟩ := dcachePut_sees (h.sees hthere) full (full.length - path.length + len) c
  exact ⟨⟨hgeo.trans h.geo, fun _ => hsees, h.cache.put hcomps hleads⟩, hsees.there⟩

/-- The state after a component was found: a folder is remembered. -/
def afterFound (g : Geo) (r : Scan) (full path : List UInt8) : Fs :=
  if r.e.isDir then
    ufsDcachePut r.s full (full.length - path.length + (firstComp path).length) (nextClus g r.e)
  else r.s

/-- Behind the slashes after a component the next one begins. -/
theorem atStart_of_skip {x y : List UInt8} {n : Nat}
    (hn : y = List.replicate n 0x2f ++ skipSlashes y) (hy : y = [] ∨ ∃ z, y = 0x2f :: z)
    (hne : skipSlashes y ≠ []) : AtStart (x ++ List.replicate n 0x2f) := by
  rcases hy with rfl | ⟨z, hz⟩
  · exact absurd rfl hne
  · cases n with
    | zero =>
        have htrim := trimmed_skip y
        rw [List.replicate_zero, List.nil_append] at hn
        rw [← hn, hz] at htrim
        exact absurd rfl htrim
    | succ n =>
        right
        exact ⟨x ++ List.replicate n 0x2f, by rw [List.replicate_succ', ← List.append_assoc]⟩

theorem atStart_next (pre : List UInt8) {b : UInt8} {bs : List UInt8} :
    ∃ n, pre ++ b :: bs
        = (pre ++ firstComp (b :: bs) ++ List.replicate n 0x2f)
          ++ skipSlashes ((b :: bs).drop (firstComp (b :: bs)).length)
      ∧ (skipSlashes ((b :: bs).drop (firstComp (b :: bs)).length) ≠ [] →
        AtStart (pre ++ firstComp (b :: bs) ++ List.replicate n 0x2f)) := by
  obtain ⟨n, hn⟩ := skipSlashes_eq ((b :: bs).drop (firstComp (b :: bs)).length)
  refine ⟨n, ?_, fun hne => ?_⟩
  · rw [List.append_assoc, List.append_assoc, ← hn, firstComp_append]
  · exact atStart_of_skip hn (drop_firstComp (b :: bs)) hne

/-- The loop does what the walk says and keeps the cache true. -/
theorem walks_of_walkLoop (hclean : Clean disk g) {turns : Nat} {full pre path : List UInt8}
    (hfull : full = pre ++ path) (hstart : path ≠ [] → AtStart pre) (htrim : Trimmed path)
    {clus : Nat} {e : Udirent} {s : Fs} (hm : Mounted disk g s) (hthere : s.lost = false)
    (hstands : e.isDir = true → Stands disk g (comps pre) clus) {r : Lookup}
    (hres : onDisk disk (walkLoop turns full path clus e s) = some r) :
    Mounted disk g r.s
      ∧ Walks disk g (comps path) clus e { found := r.ok, e := r.e, lost := r.s.lost } := by
  induction hlen : path.length using Nat.strong_induction_on generalizing pre path clus e s with
  | _ n ih =>
      cases path with
      | nil =>
          unfold walkLoop at hres
          simp only [onDisk_pure, Option.some.injEq] at hres
          subst hres
          dsimp only
          rw [hthere]
          exact ⟨hm, .nil clus e⟩
      | cons b bs =>
          rw [comps_cons htrim]
          unfold walkLoop at hres
          dsimp only at hres
          cases hdir : e.isDir with
          | false =>
              simp only [hdir, Bool.not_false, if_true, onDisk_pure, Option.some.injEq] at hres
              subst hres
              dsimp only
              rw [hthere]
              exact ⟨hm, .file hdir⟩
          | true =>
              have hg : s.geo.Sound := by rw [hm.geo]; exact hclean.sound
              have hstand := hstands hdir
              simp only [hdir, Bool.not_true, Bool.false_eq_true, if_false, onDisk_bind] at hres
              cases hloop : onDisk disk (findLoop turns (b :: bs) (firstComp (b :: bs)).length turns
                  { clus } e s) with
              | none =>
                  unfold firstComp at hloop
                  simp only [hloop, onDisk_pure, reduceCtorEq] at hres
              | some r' =>
                  have hle : (firstComp (b :: bs)).length ≤ (b :: bs).length :=
                    (List.takeWhile_sublist _).length_le
                  obtain ⟨hafter, hfind⟩ := finds_of_findLoop (hm.sees hthere) hg hle hloop
                  rw [firstComp_eq_take, hm.geo] at hfind
                  have hm' := hm.after hafter
                  unfold firstComp at hloop
                  simp only [hloop] at hres
                  cases hfound : r'.found with
                  | false =>
                      simp only [hfound, Bool.not_false, if_true, onDisk_pure,
                        Option.some.injEq] at hres
                      subst hres
                      rw [hfound] at hfind
                      exact ⟨hm', .missing hdir hfind rfl⟩
                  | true =>
                      obtain ⟨k, hsplit, hstart'⟩ := @atStart_next pre b bs
                      have hcomps : comps (pre ++ firstComp (b :: bs))
                          = comps pre ++ [firstComp (b :: bs)] := by
                        rw [comps_append (hstart (List.cons_ne_nil _ _)),
                          comps_single (firstComp_ne_nil htrim) (slash_not_mem_firstComp _)]
                      have hleads (hd : r'.e.isDir = true) :=
                        hstand.next hclean hfind hfound hd
                      have hthere' : r'.s.lost = false := hfind.there hfound
                      have hput : Mounted disk g (afterFound g r' full (b :: bs))
                          ∧ (afterFound g r' full (b :: bs)).lost = false := by
                        unfold afterFound
                        cases hd : r'.e.isDir with
                        | false => exact ⟨hm', hthere'⟩
                        | true =>
                            exact hm'.put_prefix hthere' hfull (firstComp_eq_take (b :: bs))
                              (by rw [hcomps]; simp) (hcomps.symm ▸ hleads hd)
                      simp only [hfound, Bool.not_true, Bool.false_eq_true, if_false] at hres
                      rw [hm'.geo] at hres
                      obtain ⟨hm'', hwalk⟩ := ih _ (hlen ▸ next_component_lt b bs)
                        (hfull.trans hsplit) hstart' (trimmed_skip _)
                        hput.1 hput.2
                        (fun hd => .inr ⟨by rw [comps_slashes, hcomps]; simp,
                          by rw [comps_slashes, hcomps]; exact hleads hd⟩) hres rfl
                      exact ⟨hm'', .next hdir hfind hfound hwalk⟩

theorem afterFound_sees {r : Scan} (hr : r.s.Sees disk) (hgeo : r.s.geo = g)
    (full path : List UInt8) :
    (afterFound g r full path).Sees disk ∧ (afterFound g r full path).geo = g := by
  unfold afterFound
  split
  · obtain ⟨hsees, hgeo'⟩ := dcachePut_sees hr full
      (full.length - path.length + (firstComp path).length) (nextClus g r.e)
    exact ⟨hsees, hgeo'.trans hgeo⟩
  · exact ⟨hr, hgeo⟩

/-- A walk is one that the loop does, if it may take enough turns. -/
theorem walkLoop_of_walks (hg : g.Sound) {path : List UInt8} (htrim : Trimmed path) {clus : Nat}
    {e : Udirent} {o : Found} (h : Walks disk g (comps path) clus e o) :
    ∃ n, ∀ turns ≥ n, ∀ (full : List UInt8) (s : Fs), s.Sees disk → s.geo = g →
      ∃ r, onDisk disk (walkLoop turns full path clus e s) = some r
        ∧ r.ok = o.found ∧ r.e = o.e := by
  induction hlen : path.length using Nat.strong_induction_on generalizing path clus e with
  | _ n ih =>
      cases path with
      | nil =>
          cases h
          refine ⟨0, fun turns _ full s _ _ => ⟨{ ok := true, e, s }, ?_, rfl, rfl⟩⟩
          unfold walkLoop
          rfl
      | cons b bs =>
          rw [comps_cons htrim] at h
          have hle : (firstComp (b :: bs)).length ≤ (b :: bs).length :=
            (List.takeWhile_sublist _).length_le
          -- the search for the first component
          have hsearch : ∀ {o₁ : Found}, Finds disk g (firstComp (b :: bs)) { clus } e false o₁ →
              ∃ m, ∀ turns ≥ m, ∀ s : Fs, s.Sees disk → s.geo = g →
                ∃ d' s', onDisk disk (findLoop turns (b :: bs) (firstComp (b :: bs)).length turns
                    { clus } e s) = some { found := o₁.found, d := d', e := o₁.e, s := s' }
                  ∧ s.After s' disk o₁.lost := by
            intro o₁ hfind
            rw [← firstComp_eq_take (b :: bs)] at hfind
            exact findLoop_of_finds hfind hg hle
          cases h with
          | file hfile =>
              refine ⟨0, fun turns _ full s _ _ => ⟨{ ok := false, e, s }, ?_, rfl, rfl⟩⟩
              unfold walkLoop
              simp only [hfile, Bool.not_false, if_true, onDisk_pure]
          | missing hdir hfind hno =>
              obtain ⟨m, hm⟩ := hsearch hfind
              refine ⟨m, fun turns ht full s hs hgeo => ?_⟩
              obtain ⟨d', s', hloop, hafter⟩ := hm turns ht s hs hgeo
              unfold firstComp at hloop
              refine ⟨{ ok := false, e := o.e, s := s' }, ?_, hno.symm, rfl⟩
              unfold walkLoop
              simp only [hdir, Bool.not_true, Bool.false_eq_true, if_false, onDisk_bind, hloop, hno,
                Bool.not_false, if_true, onDisk_pure]
          | @next _ _ _ _ o₁ _ hdir hfind hyes hrest =>
              obtain ⟨m, hm⟩ := hsearch hfind
              obtain ⟨m', hm'⟩ := ih _ (hlen ▸ next_component_lt b bs) (trimmed_skip _) hrest rfl
              refine ⟨max m m', fun turns ht full s hs hgeo => ?_⟩
              obtain ⟨d', s', hloop, hafter⟩ := hm turns (le_of_max_le_left ht) s hs hgeo
              have hsees := hafter.sees (hfind.there hyes)
              have hgeo' := hafter.geo.trans hgeo
              obtain ⟨hs'', hgeo''⟩ := afterFound_sees
                (r := { found := o₁.found, d := d', e := o₁.e, s := s' }) hsees hgeo' full (b :: bs)
              obtain ⟨r, hwalk, hr⟩ := hm' turns (le_of_max_le_right ht) full _ hs'' hgeo''
              refine ⟨r, ?_, hr⟩
              unfold firstComp at hloop
              unfold walkLoop
              simp only [hdir, Bool.not_true, Bool.false_eq_true, if_false, onDisk_bind, hloop, hyes,
                hgeo']
              exact hwalk

-- ============================================================ cached prefixes

/-- What the cache answers: nothing, or an entry whose path is the start
of this one, up to the end of a component. -/
theorem dcacheGet_spec (s : Fs) (path : List UInt8) (clus : Nat) :
    ufsDcacheGet s path clus = (0, clus)
      ∨ ∃ kc ∈ s.dcache, kc.1 ≠ [] ∧ ufsDcacheGet s path clus = (kc.1.length, kc.2)
        ∧ (byteAt path kc.1.length = 0x2f ∨ byteAt path kc.1.length = 0)
        ∧ ufsNameEq (byteAt kc.1) path kc.1.length = true := by
  unfold ufsDcacheGet
  apply List.foldlRecOn (motive := fun best : Nat × Nat => best = (0, clus)
    ∨ ∃ kc ∈ s.dcache, kc.1 ≠ [] ∧ best = (kc.1.length, kc.2)
      ∧ (byteAt path kc.1.length = 0x2f ∨ byteAt path kc.1.length = 0)
      ∧ ufsNameEq (byteAt kc.1) path kc.1.length = true)
  · exact .inl rfl
  · intro best hbest kc hkc
    dsimp only
    split
    · next hhit =>
      obtain ⟨hlong, hend, hname⟩ := hhit
      right
      refine ⟨kc, hkc, ?_, rfl, hend, hname⟩
      intro hnil
      rw [hnil] at hlong
      exact absurd hlong (Nat.not_lt_zero _)
    · exact hbest

theorem nameEq_length {k path : List UInt8} (h : ufsNameEq (byteAt k) path k.length = true) :
    k.length ≤ path.length := by
  obtain ⟨hall, -⟩ := (nameEq_iff _ _ _).mp h
  by_contra hshort
  obtain ⟨hne, heq⟩ := hall path.length (by omega)
  have hout : byteAt path path.length = 0 := by
    unfold byteAt
    rw [List.getD_eq_default _ _ (le_refl _)]
  rw [hout, (ufsLower_zero 0).mpr rfl, ufsLower_zero] at heq
  exact hne heq

/-- A hit is the start of the path but for the case of letters. -/
theorem lower_take_of_nameEq {k path : List UInt8}
    (h : ufsNameEq (byteAt k) path k.length = true) : lower (path.take k.length) = lower k := by
  have hle := nameEq_length h
  obtain ⟨hall, -⟩ := (nameEq_iff _ _ _).mp h
  apply List.ext_getElem
  · simp [lower, hle]
  · intro i hi hi'
    have hik : i < k.length := by simpa [lower] using hi'
    have hip : i < path.length := by omega
    obtain ⟨-, heq⟩ := hall i hik
    unfold byteAt at heq
    rw [List.getD_eq_getElem _ _ hik, List.getD_eq_getElem _ _ hip] at heq
    simp only [lower, List.getElem_map, List.getElem_take]
    exact heq.symm

/-- Behind the hit there is a slash or nothing. -/
theorem drop_of_boundary {path : List UInt8} (h0 : 0 ∉ path) {len : Nat} (hle : len ≤ path.length)
    (hend : byteAt path len = 0x2f ∨ byteAt path len = 0) :
    path.drop len = [] ∨ ∃ y, path.drop len = 0x2f :: y := by
  rcases Nat.eq_or_lt_of_le hle with rfl | hlt
  · exact .inl (List.drop_length)
  · right
    have hbyte : byteAt path len = path[len] := by
      unfold byteAt
      rw [List.getD_eq_getElem _ _ hlt]
    rcases hend with hslash | hzero
    · exact ⟨path.drop (len + 1), by rw [List.drop_eq_getElem_cons hlt, ← hbyte, hslash]⟩
    · rw [hbyte] at hzero
      exact absurd (hzero ▸ List.getElem_mem hlt) h0

-- ================================================================= lookups

/-- What a caller gets to know: found, folder or not, the size and the
first cluster, 0 being the root. -/
def answerOf (g : Geo) (ok : Bool) (e : Udirent) : Option (Bool × Nat × Nat) :=
  if ok then some (e.isDir, e.size, nextClus g e) else none

def Lookup.answer (r : Lookup) (g : Geo) : Option (Bool × Nat × Nat) := answerOf g r.ok r.e

def Found.answer (o : Found) (g : Geo) : Option (Bool × Nat × Nat) := answerOf g o.found o.e

theorem Found.Twin.answer {o o' : Found} (h : o.Twin o') : o'.answer g = o.answer g := by
  unfold Found.answer answerOf
  rw [h.found]
  cases hfound : o.found with
  | false => rfl
  | true =>
      have hentry := h.entry hfound
      simp only [if_true, hentry.isDir, hentry.size, nextClus_twin hentry]

/-- The root as `ufs_lookup` fills it in. -/
def rootEntry (g : Geo) : Udirent :=
  { name := fun _ => 0, attr := attrDir, first := rootOf g, isDir := true }

/-- Two folder entries that lead to one folder are as good as each other
to walk from. -/
theorem Walks.swap (hclean : Clean disk g) {cs : List (List UInt8)} {c : Nat}
    (hc : Folder disk g c) {e e' : Udirent} (hdir : e.isDir = true) (hdir' : e'.isDir = true)
    (hsize : e'.size = e.size) (hnext : nextClus g e' = nextClus g e) {o : Found}
    (h : Walks disk g cs c e o) : ∃ o', Walks disk g cs c e' o' ∧ o'.answer g = o.answer g := by
  cases cs with
  | nil =>
      cases h
      refine ⟨_, .nil c e', ?_⟩
      simp only [Found.answer, answerOf, if_true, hdir, hdir', hsize, hnext]
  | cons c cs =>
      obtain ⟨o', hwalk, htwin⟩ :=
        h.twin hclean (fun _ => hc) (hdir'.trans hdir.symm) (.inl (List.cons_ne_nil _ _))
      exact ⟨o', hwalk, htwin.answer⟩

theorem nextClus_self {e : Udirent} {c : Nat} (h : nextClus g e = c) (hdir : e.isDir = true)
    {e' : Udirent} (hdir' : e'.isDir = true) (hfirst : e'.first = c) : nextClus g e' = c := by
  unfold nextClus at h ⊢
  simp only [hdir, hdir', true_and, hfirst] at h ⊢
  by_cases hc : c = 0
  · rw [if_pos hc]
    by_cases he : e.first = 0
    · rwa [if_pos he] at h
    · rw [if_neg he] at h
      exact absurd (h.trans hc) he
  · rw [if_neg hc]

/-- Walking on from where the first components lead is walking it all
from the root. -/
theorem Stands.walks_iff (hclean : Clean disk g) {xs : List (List UInt8)} {c : Nat}
    (h : Stands disk g xs c) {e : Udirent} (hdir : e.isDir = true) (hsize : e.size = 0)
    (hfirst : e.first = c) (ys : List (List UInt8)) (a : Option (Bool × Nat × Nat)) :
    (∃ o, Walks disk g ys c e o ∧ o.answer g = a)
      ↔ ∃ o, Walks disk g (xs ++ ys) (rootOf g) (rootEntry g) o ∧ o.answer g = a := by
  have hfolder := h.folder hclean
  rcases h with ⟨rfl, rfl⟩ | ⟨hxs, hleads⟩
  · have hnext : nextClus g (rootEntry g) = nextClus g e := by
      unfold nextClus
      rw [hdir, hfirst]
      rfl
    rw [List.nil_append]
    constructor
    · rintro ⟨o, hwalk, rfl⟩
      exact hwalk.swap hclean hfolder hdir rfl hsize.symm hnext
    · rintro ⟨o, hwalk, rfl⟩
      exact hwalk.swap hclean hfolder rfl hdir hsize hnext.symm
  · obtain ⟨o₁, hwalk₁, hfound, hdir₁, hclus⟩ := hleads (rootEntry g) rfl
    have hsize₁ := (hwalk₁.folder hclean hxs (fun _ => .root) hfound hdir₁).2
    have hnext : nextClus g e = nextClus g o₁.e :=
      (nextClus_self hclus hdir₁ hdir hfirst).trans hclus.symm
    constructor
    · rintro ⟨o, hwalk, rfl⟩
      obtain ⟨o', hwalk', ha⟩ := hwalk.swap hclean hfolder hdir hdir₁
        (hsize₁.trans hsize.symm) hnext.symm
      rw [← hclus] at hwalk'
      exact ⟨o', hwalk₁.append hxs hfound hwalk', ha⟩
    · rintro ⟨o, hwalk, rfl⟩
      have hwalk' := hwalk₁.of_append hxs hfound hwalk
      rw [hclus] at hwalk'
      exact hwalk'.swap hclean hfolder hdir₁ hdir (hsize.trans hsize₁.symm) hnext

/-- The entry that `ufs_lookup` begins with, for folder `c`. -/
def startEntry (e : Udirent) (c : Nat) : Udirent :=
  { name := putName e.name 0 [0], attr := attrDir, first := c, isDir := true }

/-- Where a lookup begins to walk: at the root, or at a cached folder on
the way. -/
theorem lookup_start {s : Fs} (hm : Mounted disk g s) {path : List UInt8} (h0 : 0 ∉ path)
    (e : Udirent) : ∃ pre left c e', skipSlashes path = pre ++ left
      ∧ (left ≠ [] → AtStart pre) ∧ Trimmed left ∧ Stands disk g (comps pre) c
      ∧ e'.isDir = true ∧ e'.size = 0 ∧ e'.first = c
      ∧ ∀ turns, ufsLookup turns path e s = walkLoop turns (skipSlashes path) left c e' s := by
  have h0' : 0 ∉ skipSlashes path := fun h => h0 ((List.dropWhile_sublist _).mem h)
  unfold ufsLookup
  dsimp only
  rw [hm.geo]
  rcases dcacheGet_spec s (skipSlashes path) (rootOf g) with
    hmiss | ⟨kc, hkc, hne, hhit, hend, hname⟩
  · rw [hmiss]
    refine ⟨[], skipSlashes path, rootOf g, startEntry e (rootOf g), rfl, fun _ => .inl rfl, trimmed_skip path,
      .inl ⟨rfl, rfl⟩, rfl, rfl, rfl, fun turns => rfl⟩
  · rw [hhit]
    have hlen : kc.1.length ≠ 0 := fun h => hne (List.eq_nil_of_length_eq_zero h)
    have hle := nameEq_length hname
    obtain ⟨hcomps, hleads⟩ := hm.cache kc hkc hne
    obtain ⟨n, hn⟩ := skipSlashes_eq ((skipSlashes path).drop kc.1.length)
    have hlower : (comps kc.1).map lower
        = (comps ((skipSlashes path).take kc.1.length ++ List.replicate n 0x2f)).map lower := by
      rw [comps_slashes, ← comps_lower, ← comps_lower, lower_take_of_nameEq hname]
    refine ⟨(skipSlashes path).take kc.1.length ++ List.replicate n 0x2f,
      skipSlashes ((skipSlashes path).drop kc.1.length), kc.2, startEntry e kc.2, ?_,
      atStart_of_skip hn (drop_of_boundary h0' hle hend), trimmed_skip _,
      .inr ⟨?_, hleads.congr hlower⟩, rfl, rfl, rfl, fun turns => ?_⟩
    · rw [List.append_assoc, ← hn, List.take_append_drop]
    · intro hnil
      rw [hnil, List.map_nil] at hlower
      exact hcomps (List.map_eq_nil_iff.mp hlower)
    · rw [if_pos hlen]
      rfl

/-- What a lookup that ends comes to. -/
theorem walks_of_lookup (hclean : Clean disk g) {s : Fs} (hm : Mounted disk g s)
    (hthere : s.lost = false) {path : List UInt8} (h0 : 0 ∉ path) {turns : Nat} {e : Udirent}
    {r : Lookup} (hres : onDisk disk (ufsLookup turns path e s) = some r) :
    Mounted disk g r.s
      ∧ ∃ o, Walks disk g (comps path) (rootOf g) (rootEntry g) o ∧ o.answer g = r.answer g := by
  obtain ⟨pre, left, c, e', hsplit, hstart, htrim, hstands, hdir, hsize, hfirst, hlook⟩ :=
    lookup_start hm h0 e
  rw [hlook] at hres
  obtain ⟨hm', hwalk⟩ :=
    walks_of_walkLoop hclean hsplit hstart htrim hm hthere (fun _ => hstands) hres
  refine ⟨hm', ?_⟩
  rw [← comps_skip, hsplit, comps_split hstart]
  exact (hstands.walks_iff hclean hdir hsize hfirst _ _).mp ⟨_, hwalk, rfl⟩

/-- A lookup ends, if it may take enough turns and the walk ends. -/
theorem lookup_of_walks (hclean : Clean disk g) {s : Fs} (hm : Mounted disk g s)
    (hthere : s.lost = false) {path : List UInt8} (h0 : 0 ∉ path) (e : Udirent) {o : Found}
    (h : Walks disk g (comps path) (rootOf g) (rootEntry g) o) :
    ∃ n, ∀ turns ≥ n, ∃ r, onDisk disk (ufsLookup turns path e s) = some r
      ∧ r.answer g = o.answer g := by
  obtain ⟨pre, left, c, e', hsplit, hstart, htrim, hstands, hdir, hsize, hfirst, hlook⟩ :=
    lookup_start hm h0 e
  rw [← comps_skip, hsplit, comps_split hstart] at h
  obtain ⟨o', hwalk, ha⟩ := (hstands.walks_iff hclean hdir hsize hfirst _ _).mpr ⟨o, h, rfl⟩
  obtain ⟨n, hn⟩ := walkLoop_of_walks hclean.sound htrim hwalk
  refine ⟨n, fun turns ht => ?_⟩
  obtain ⟨r, hres, hok, he⟩ := hn turns ht (skipSlashes path) s (hm.sees hthere) hm.geo
  refine ⟨r, by rw [hlook]; exact hres, ?_⟩
  rw [← ha]
  unfold Lookup.answer Found.answer
  rw [hok, he]

-- ============================================================ after a mount

/-- The states since volume `g` was mounted: any lookups, of any paths, one
after another. -/
inductive Reached (disk : Disk) (g : Geo) : Fs → Prop
  | mount {s s' : Fs} (hthere : s.lost = false) (hempty : s.fatCached = noSector)
      (hmount : onDisk disk (ufsMount s) = (true, s')) (hgeo : s'.geo = g) : Reached disk g s'
  | lookup {s : Fs} {turns : Nat} {path : List UInt8} {e : Udirent} {r : Lookup}
      (hs : Reached disk g s) (h0 : 0 ∉ path)
      (hres : onDisk disk (ufsLookup turns path e s) = some r) : Reached disk g r.s

/-- The same state with an empty folder cache, as after the mount. -/
def Fs.forget (s : Fs) : Fs := { s with dcache := .replicate ufsDcache ([], 0) }

theorem mountBoot_mounted {s s' : Fs} (hthere : s.lost = false) (hempty : s.fatCached = noSector)
    {b : List UInt8} {part : Nat} (hres : mountBoot s b part = (true, s')) :
    Mounted disk s'.geo s' := by
  unfold mountBoot at hres
  dsimp only at hres
  split at hres
  · exact nomatch hres
  · split at hres
    · exact nomatch hres
    · simp only [Prod.mk.injEq, true_and] at hres
      subst hres
      exact ⟨rfl, fun _ => ⟨hthere, fun h => absurd hempty h⟩, cacheOk_empty _⟩

/-- A sector that was read leaves the state. -/
theorem sector_read {start : Nat} {b : List UInt8} {s s₁ : Fs}
    (hread : (match disk start 1 with
      | none => (none, { s with lost := true })
      | some data => (some data, s)) = (some b, s₁)) : s₁ = s := by
  split at hread
  · cases hread
  · exact (congrArg Prod.snd hread).symm

/-- A mount that succeeds is that of some boot sector. -/
theorem mount_eq_boot {s s' : Fs} (hsees : s.Sees disk)
    (hres : onDisk disk (ufsMount s) = (true, s')) : ∃ b part, mountBoot s b part = (true, s') := by
  unfold ufsMount at hres
  simp only [onDisk_bind, onDisk_sectors hsees] at hres
  split at hres
  · cases hres
  · next b s₁ hread =>
    obtain rfl := sector_read hread
    split at hres
    · cases hres
    · split at hres
      · exact ⟨b, 0, hres⟩
      · split at hres
        · cases hres
        · next part _ =>
          simp only [onDisk_bind, onDisk_sectors hsees] at hres
          split at hres
          · cases hres
          · next b₂ s₂ hread₂ =>
            obtain rfl := sector_read hread₂
            exact ⟨b₂, part, hres⟩

theorem mount_mounted {s s' : Fs} (hthere : s.lost = false) (hempty : s.fatCached = noSector)
    (hres : onDisk disk (ufsMount s) = (true, s')) : Mounted disk s'.geo s' := by
  obtain ⟨b, part, hboot⟩ := mount_eq_boot ⟨hthere, fun h => absurd hempty h⟩ hres
  exact mountBoot_mounted hthere hempty hboot

theorem Reached.mounted (hclean : Clean disk g) {s : Fs} (h : Reached disk g s)
    (hthere : s.lost = false) : Mounted disk g s := by
  induction h with
  | mount hthere₀ hempty hmount hgeo =>
      rw [← hgeo]
      exact mount_mounted hthere₀ hempty hmount
  | @lookup s _ _ _ _ _ h0 hres ih =>
      cases hlost : s.lost with
      | true =>
          rw [lost_lookup hlost hres] at hthere
          exact nomatch hthere
      | false => exact (walks_of_lookup hclean (ih hlost) hlost h0 hres).1

theorem Mounted.forget {s : Fs} (h : Mounted disk g s) : Mounted disk g s.forget where
  geo := h.geo
  sees := fun hthere => ⟨hthere, (h.sees hthere).cached⟩
  cache := cacheOk_empty _

/-- A lookup ends with the folder cache if and only if it does without,
and the answers are the same; what the callers' name buffers hold does not
matter. -/
structure Transparent (disk : Disk) (g : Geo) (s : Fs) (path : List UInt8) (e e' : Udirent) :
    Prop where
  ends : (∃ turns r, onDisk disk (ufsLookup turns path e s) = some r)
    ↔ ∃ turns r, onDisk disk (ufsLookup turns path e' s.forget) = some r
  answer : ∀ turns turns' r r', onDisk disk (ufsLookup turns path e s) = some r →
    onDisk disk (ufsLookup turns' path e' s.forget) = some r' → r.answer g = r'.answer g

/-- On a clean volume the folder cache does not show, after any lookups. -/
theorem cache_transparent {s : Fs} (hclean : Clean disk g) (hs : Reached disk g s)
    (hthere : s.lost = false) {path : List UInt8} (h0 : 0 ∉ path) (e e' : Udirent) :
    Transparent disk g s path e e' := by
  have hm := hs.mounted hclean hthere
  have hm' := hm.forget
  constructor
  · constructor
    · rintro ⟨turns, r, hres⟩
      obtain ⟨-, o, hwalk, -⟩ := walks_of_lookup hclean hm hthere h0 hres
      obtain ⟨n, hn⟩ := lookup_of_walks hclean hm' hthere h0 e' hwalk
      obtain ⟨r', hres', -⟩ := hn n (le_refl n)
      exact ⟨n, r', hres'⟩
    · rintro ⟨turns, r, hres⟩
      obtain ⟨-, o, hwalk, -⟩ := walks_of_lookup hclean hm' hthere h0 hres
      obtain ⟨n, hn⟩ := lookup_of_walks hclean hm hthere h0 e hwalk
      obtain ⟨r', hres', -⟩ := hn n (le_refl n)
      exact ⟨n, r', hres'⟩
  · intro turns turns' r r' hres hres'
    obtain ⟨-, o, hwalk, ha⟩ := walks_of_lookup hclean hm hthere h0 hres
    obtain ⟨-, o', hwalk', ha'⟩ := walks_of_lookup hclean hm' hthere h0 hres'
    rw [← ha, ← ha', hwalk.unique hwalk']

-- ============================================================ small sticks

/-- A sector of directory entries. -/
def sectorOf (rs : List (List UInt8)) : List UInt8 :=
  rs.flatten ++ .replicate (512 - 32 * rs.length) 0

/-- A FAT16 boot sector: one FAT sector, one root sector, clusters of a
sector from sector 3 on. -/
def smallBoot : List UInt8 :=
  [0xeb] ++ .replicate 11 0 ++ [2, 1, 1, 0, 1, 16, 0, 0, 0x20, 0, 1] ++ .replicate 31 0
    ++ [0x46, 0x41, 0x54] ++ .replicate 453 0 ++ [0x55, 0xaa]

/-- A stick with such a volume, its root and its first cluster. -/
def smallStick (root clus : List (List UInt8)) : Disk := fun start _ =>
  if start = 0 then some smallBoot
  else if start = 2 then some (sectorOf root)
  else if start = 3 then some (sectorOf clus)
  else some (sectorOf [])

def smallGeo : Geo :=
  { spc := 1, fatStart := 1, rootStart := 2, rootSectors := 1, dataStart := 3, clusBytes := 512 }

theorem smallGeo_sound : smallGeo.Sound := by
  intro c
  simp only [fatPlace, smallGeo, Bool.false_eq_true, if_false, ufsSector, u32, noSector]
  omega

theorem small_mountBoot : mountBoot {} smallBoot 0 = (true, { geo := smallGeo }) := by
  have h11 : le16 smallBoot 11 = 512 := by decide
  have h13 : byteAt smallBoot 13 = 1 := by decide
  have h14 : le16 smallBoot 14 = 1 := by decide
  have h16 : byteAt smallBoot 16 = 1 := by decide
  have h17 : le16 smallBoot 17 = 16 := by decide
  have h19 : le16 smallBoot 19 = 0x2000 := by decide
  have h22 : le16 smallBoot 22 = 1 := by decide
  have h44 : le32 smallBoot 44 = 0 := by decide
  simp [mountBoot, bootGeo, h11, h13, h14, h16, h17, h19, h22, h44, u32, sub32, ufsSector, smallGeo]

theorem small_mount {disk : Disk} (hread : disk 0 1 = some smallBoot) :
    onDisk disk (ufsMount {}) = (true, { geo := smallGeo }) := by
  have h510 : byteAt smallBoot 510 = 0x55 := by decide +kernel
  have h511 : byteAt smallBoot 511 = 0xaa := by decide +kernel
  have hfloppy : superfloppy smallBoot = true := by decide +kernel
  unfold ufsMount ufsSectors
  simp [hread, h510, h511, hfloppy, small_mountBoot]

/-- A short entry: its name's one letter, attributes, cluster. -/
def shortEntry (letter attr first : UInt8) : List UInt8 :=
  [letter] ++ .replicate 10 0x20 ++ [attr] ++ .replicate 14 0 ++ [first, 0] ++ .replicate 4 0

/-- A folder "A" in cluster 2. -/
def folderEntry : List UInt8 := shortEntry 0x41 0x10 2

theorem turn_folder (e : Udirent) : dirTurn false folderEntry e false
    = .entry { name := putName e.name 0 [0x41, 0], attr := 0x10, first := 2, isDir := true } := rfl

theorem raw_root (r : List UInt8) (root clus : List (List UInt8)) :
    rawStep (smallStick (r :: root) clus) smallGeo { clus := 0 }
      = .more ((sectorOf (r :: root)).take 32)
          { clus := 0, secIdx := 1, ent := 1, nent := 16, buf := sectorOf (r :: root) } := rfl

/-- A path of one component. -/
theorem walkLoop_single {turns : Nat} {full : List UInt8} {b : UInt8} {bs : List UInt8}
    (hslash : (0x2f : UInt8) ∉ b :: bs) {clus : Nat} {e : Udirent} (hdir : e.isDir = true) {s : Fs}
    {r : Scan} (hfind : onDisk disk (findLoop turns (b :: bs) (b :: bs).length turns { clus } e s)
      = some r) (hfound : r.found = true) :
    onDisk disk (walkLoop turns full (b :: bs) clus e s)
      = some { ok := true, e := r.e, s := afterFound r.s.geo r full (b :: bs) } := by
  have hcomp : (b :: bs).takeWhile (· ≠ 0x2f) = b :: bs := by
    rw [List.takeWhile_eq_self_iff]
    intro x hx
    have : x ≠ 0x2f := fun h => hslash (h ▸ hx)
    simpa using this
  unfold walkLoop
  rw [hcomp]
  simp only [hdir, Bool.not_true, Bool.false_eq_true, if_false, onDisk_bind, hfind, hfound,
    List.drop_length]
  unfold walkLoop afterFound firstComp
  rw [hcomp]
  rfl

theorem dcacheGet_empty (s : Fs) (path : List UInt8) (clus : Nat) :
    ufsDcacheGet s.forget path clus = (0, clus) := by
  rcases dcacheGet_spec s.forget path clus with hmiss | ⟨kc, hkc, hne, -⟩
  · exact hmiss
  · obtain ⟨-, rfl⟩ := List.mem_replicate.mp hkc
    exact absurd rfl hne

/-- The root's folder "A", found from any entry. -/
theorem finds_folder (root : List (List UInt8)) (clus : List (List UInt8)) (e : Udirent) :
    Finds (smallStick (folderEntry :: root) clus) smallGeo [0x41] { clus := 0 } e false
      { found := true, lost := false
        e := { name := putName e.name 0 [0x41, 0], attr := 0x10, first := 2, isDir := true } } := by
  refine .found (raw_root _ root clus) (turn_folder e) ?_
  rw [nameEq_iff]
  refine ⟨fun i hi => ?_, rfl⟩
  obtain rfl : i = 0 := by simpa using hi
  exact ⟨(by decide : (0x41 : UInt8) ≠ 0), rfl⟩

/-- In the state after the folder was looked up, it is in the cache. -/
theorem folder_cached (root clus : List (List UInt8)) :
    ∃ s, Reached (smallStick (folderEntry :: root) clus) smallGeo s ∧ s.lost = false
      ∧ s.geo = smallGeo ∧ s.Sees (smallStick (folderEntry :: root) clus)
      ∧ s.dcache = ([0x41], 2) :: .replicate 7 ([], 0) := by
  have hmount := @small_mount (smallStick (folderEntry :: root) clus) rfl
  have hsees : ({ geo := smallGeo } : Fs).Sees (smallStick (folderEntry :: root) clus) :=
    ⟨rfl, fun h => absurd rfl h⟩
  obtain ⟨n, hn⟩ := @findLoop_of_finds _ [0x41] 1 _ _ _ _
    (finds_folder root clus (startEntry { name := fun _ => 0 } 0)) smallGeo_sound (le_refl 1)
  obtain ⟨d, s, hloop, hafter⟩ := hn n (le_refl n) { geo := smallGeo } hsees rfl
  have hwalk := @walkLoop_single _ n [0x41] 0x41 [] (by decide) 0 _ rfl _ _ hloop rfl
  have hres : onDisk (smallStick (folderEntry :: root) clus)
      (ufsLookup n [0x41] { name := fun _ => 0 } { geo := smallGeo }) = some _ := hwalk
  have hput (name : Nat → UInt8) :
      afterFound s.geo { found := true, d, e := { name, attr := 0x10, first := 2, isDir := true }, s }
          [0x41] [0x41]
        = { s with dcache := ([0x41], 2) :: .replicate 7 ([], 0), dcacheNext := 1 } := by
    unfold afterFound ufsDcachePut nextClus firstComp
    rw [hafter.dcache, hafter.next]
    rfl
  refine ⟨_, .lookup (.mount rfl rfl hmount rfl) (by decide) hres, ?_, ?_, ?_, ?_⟩
  · exact (congrArg Fs.lost (hput _)).trans hafter.lost_eq
  · exact (congrArg Fs.geo (hput _)).trans hafter.geo
  · dsimp only
    rw [hput]
    exact ⟨hafter.lost_eq, (hafter.sees rfl).cached⟩
  · exact congrArg Fs.dcache (hput _)

-- ================================================= where the cache shows

/-- The last part of a long name of two parts, empty itself. -/
def lonePart : List UInt8 := [0x42] ++ .replicate 10 0 ++ [0x0f] ++ .replicate 20 0

/-- A file "B", its name as a short one. -/
def fileEntry : List UInt8 := shortEntry 0x42 0x20 5

def staleStick : Disk := smallStick [folderEntry] [lonePart, fileEntry]

theorem turn_lonePart (e : Udirent) : dirTurn false lonePart e false
    = .skip { e with name := putName (putName e.name 26 [0]) 13 [0] } true := by
  have h0 : byteAt lonePart 0 = 0x42 := rfl
  have h11 : byteAt lonePart 11 = 0x0f := rfl
  have hch : le16 lonePart 1 = 0 := rfl
  have hlast : (0x42 &&& 0x40 : UInt8) ≠ 0 := by decide
  unfold dirTurn
  simp [h0, h11, lfnPos, putLfn, hch, nameMax, hlast]

theorem turn_afterPart (e : Udirent) : dirTurn false fileEntry e true
    = .entry { name := e.name, attr := 0x20, first := 5 } := rfl

/-- The folder of `staleStick`, behind its lone part. -/
def staleRest (n : Nat) : Udir :=
  { clus := 2, secIdx := 1, ent := n, nent := 16
    buf := sectorOf [lonePart, fileEntry] }

theorem staleFirst : rawStep staleStick smallGeo { clus := 2 } = .more lonePart (staleRest 1) := rfl

theorem staleSecond :
    rawStep staleStick smallGeo (staleRest 1) = .more (fileEntry) (staleRest 2) := rfl

theorem staleThird :
    rawStep staleStick smallGeo (staleRest 2) = .more (.replicate 32 0) (staleRest 3) := rfl

/-- Without the cache "A/A" is found: the last part of a long name makes
the reader take the "A" of the folder for the name of what follows. -/
theorem stale_found : ∃ o, o.found = true
    ∧ Walks staleStick smallGeo [[0x41], [0x41]] 0 (startEntry { name := fun _ => 0 } 0) o := by
  have hfind (e : Udirent) (h0 : e.name 0 = 0x41) (h1 : e.name 1 = 0) :
      Finds staleStick smallGeo [0x41] { clus := 2 } e false
        { found := true, lost := false
          e := { name := putName (putName e.name 26 [0]) 13 [0], attr := 0x20, first := 5 } } := by
    refine .skip staleFirst (turn_lonePart e) (.found staleSecond (turn_afterPart _) ?_)
    rw [nameEq_iff]
    refine ⟨fun i hi => ?_, h1⟩
    obtain rfl : i = 0 := by simpa using hi
    have hname : putName (putName e.name 26 [0]) 13 [0] 0 = 0x41 := h0
    dsimp only
    rw [hname]
    exact ⟨by decide, rfl⟩
  have hfolder := finds_folder [] [lonePart, fileEntry]
    (startEntry { name := fun _ => 0 } 0)
  exact ⟨_, rfl, .next rfl hfolder rfl (.next rfl (hfind _ rfl rfl) rfl (.nil _ _))⟩

/-- From the cached folder it is not. -/
theorem stale_missing : ∃ o, o.found = false
    ∧ Walks staleStick smallGeo [[0x41]] 2 (startEntry { name := fun _ => 0 } 2) o := by
  refine ⟨_, rfl, .missing rfl (.skip staleFirst (turn_lonePart _) (.other staleSecond (turn_afterPart _) ?_
    (.stop staleThird (dirTurn_stop.mpr rfl)))) rfl⟩
  rw [Bool.eq_false_iff]
  intro h
  obtain ⟨hall, -⟩ := (nameEq_iff _ _ _).mp h
  exact (hall 0 (by decide)).1 rfl

/-- The name of a file in folder "A" that only the lookup without the
cache finds. -/
theorem cache_shows : ∃ disk g s path e, Reached disk g s ∧ s.lost = false ∧ 0 ∉ path
    ∧ ¬ Transparent disk g s path e e := by
  obtain ⟨s, hs, hthere, hgeo, hsees, hcache⟩ :=
    folder_cached [] [lonePart, fileEntry]
  refine ⟨staleStick, smallGeo, s, [0x41, 0x2f, 0x41], { name := fun _ => 0 }, hs, hthere,
    by decide, fun htrans => ?_⟩
  obtain ⟨o, hfound, hwalk⟩ := stale_found
  obtain ⟨o', hmissing, hwalk'⟩ := stale_missing
  obtain ⟨n, hn⟩ := @walkLoop_of_walks _ _ smallGeo_sound [0x41, 0x2f, 0x41]
    (by unfold Trimmed; decide) _ _ _ hwalk
  obtain ⟨n', hn'⟩ := @walkLoop_of_walks _ _ smallGeo_sound [0x41]
    (by unfold Trimmed; decide) _ _ _ hwalk'
  obtain ⟨r, hres, hok, -⟩ := hn n (le_refl n) [0x41, 0x2f, 0x41] s.forget
    ⟨hthere, hsees.cached⟩ hgeo
  obtain ⟨r', hres', hok', -⟩ := hn' n' (le_refl n') [0x41, 0x2f, 0x41] s hsees hgeo
  have hget : ufsDcacheGet s [0x41, 0x2f, 0x41] 0 = (1, 2) := by
    unfold ufsDcacheGet
    rw [hcache]
    decide
  have hfresh : onDisk staleStick (ufsLookup n [0x41, 0x2f, 0x41] { name := fun _ => 0 } s.forget)
      = some r := by
    unfold ufsLookup
    dsimp only
    rw [show rootOf s.forget.geo = 0 by rw [show s.forget.geo = smallGeo from hgeo]; rfl,
      show skipSlashes [0x41, 0x2f, 0x41] = [0x41, 0x2f, 0x41] from rfl, dcacheGet_empty]
    exact hres
  have hcached : onDisk staleStick (ufsLookup n' [0x41, 0x2f, 0x41] { name := fun _ => 0 } s)
      = some r' := by
    unfold ufsLookup
    dsimp only
    rw [show rootOf s.geo = 0 by rw [hgeo]; rfl,
      show skipSlashes [0x41, 0x2f, 0x41] = [0x41, 0x2f, 0x41] from rfl, hget]
    exact hres'
  have ha := htrans.answer n' n r' r hcached hfresh
  simp only [Lookup.answer, answerOf, hok, hok', hfound, hmissing] at ha
  exact nomatch ha

-- ==================================================== where it does not

/-- A stick with an empty folder "A". -/
def folderStick : Disk := smallStick [folderEntry] []

/-- Its root, behind `n` entries. -/
def folderRoot (n : Nat) : Udir :=
  { clus := 0, secIdx := 1, ent := n, nent := 16, buf := sectorOf [folderEntry] }

theorem folderRoot_first :
    rawStep folderStick smallGeo { clus := 0 } = .more (folderEntry) (folderRoot 1) := rfl

theorem folderRoot_second :
    rawStep folderStick smallGeo (folderRoot 1) = .more (.replicate 32 0) (folderRoot 2) := rfl

theorem folderEmpty : rawStep folderStick smallGeo { clus := 2 }
    = .more (.replicate 32 0) { clus := 2, secIdx := 1, ent := 1, nent := 16, buf := sectorOf [] } :=
  rfl

/-- What there is to read on it. -/
theorem folderStick_entries {c : Nat} {rs : List (List UInt8)} {d d' : Udir} {r : List UInt8}
    (hc : c = 0 ∨ c = 2) (hrun : RawRun folderStick smallGeo { clus := c } rs d)
    (hraw : rawStep folderStick smallGeo d = .more r d') :
    r = folderEntry ∨ r = .replicate 32 0 := by
  have hplace : d = { clus := 0 } ∨ d = folderRoot 1 ∨ d = { clus := 2 } := by
    clear hraw
    induction hrun with
    | nil => rcases hc with rfl | rfl <;> simp
    | snoc hrun hraw hr ih =>
        rcases ih with rfl | rfl | rfl
        · rw [folderRoot_first] at hraw
          cases hraw
          exact .inr (.inl rfl)
        · rw [folderRoot_second] at hraw
          cases hraw
          exact absurd rfl hr
        · rw [folderEmpty] at hraw
          cases hraw
          exact absurd rfl hr
  rcases hplace with rfl | rfl | rfl
  · rw [folderRoot_first] at hraw
    cases hraw
    exact .inl rfl
  · rw [folderRoot_second] at hraw
    cases hraw
    exact .inr rfl
  · rw [folderEmpty] at hraw
    cases hraw
    exact .inr rfl

theorem folderStick_folders {c : Nat} (hc : Folder folderStick smallGeo c) : c = 0 ∨ c = 2 := by
  induction hc with
  | root => exact .inl rfl
  | sub hc hrun hraw hturn hdir ih =>
      right
      rcases folderStick_entries ih hrun hraw with rfl | rfl
      · rw [dirTurn_entry hturn]
        rfl
      · rw [dirTurn_stop.mpr rfl] at hturn
        exact nomatch hturn

theorem folderStick_clean : Clean folderStick smallGeo := by
  apply clean_of_short smallGeo_sound
  intro c rs d r d' hc hrun hraw
  rcases folderStick_entries (folderStick_folders hc) hrun hraw with rfl | rfl
  · exact .inr ⟨by decide, fun _ => rfl⟩
  · exact .inl rfl

theorem cache_transparent_folder : ∃ s, s.dcache = ([0x41], 2) :: .replicate 7 ([], 0)
    ∧ Transparent folderStick smallGeo s [0x61, 0x2f, 0x42] (startEntry { name := fun _ => 0 } 0)
        (startEntry { name := fun _ => 1 } 0) := by
  obtain ⟨s, hs, hthere, -, -, hcache⟩ := folder_cached [] []
  exact ⟨s, hcache, cache_transparent folderStick_clean hs hthere (by decide) _ _⟩

end Ncmips.Usbfat
