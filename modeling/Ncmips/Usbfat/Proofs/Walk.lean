/-
Walking a path, as a relation on its components.

`Walks` is what `ufs_lookup` does from some folder on. It is
deterministic, it splits where the path does, and it compares names
without case, so paths with the same components up to case walk alike.
-/
import Ncmips.Usbfat.Proofs.Scan

namespace Ncmips.Usbfat

open Bits (byteAt)

-- ============================================================= components

/-- The components of a path; slashes before, after and between count once. -/
def comps (path : List UInt8) : List (List UInt8) := (path.splitOn 0x2f).filter (· ≠ [])

@[simp] theorem comps_nil : comps [] = [] := rfl

theorem comps_slash (x y : List UInt8) : comps (x ++ 0x2f :: y) = comps x ++ comps y := by
  unfold comps
  rw [List.splitOn_append_cons_self, List.filter_append]

theorem comps_single {c : List UInt8} (hne : c ≠ []) (hc : (0x2f : UInt8) ∉ c) : comps c = [c] := by
  unfold comps
  rw [List.splitOn_eq_singleton hc]
  simp [hne]

theorem comps_skip (path : List UInt8) : comps (skipSlashes path) = comps path := by
  unfold skipSlashes
  induction path with
  | nil => rfl
  | cons b bs ih =>
      by_cases hb : b = 0x2f
      · subst hb
        rw [List.dropWhile_cons_of_pos (by simp), ih]
        exact (comps_slash [] bs).symm
      · rw [List.dropWhile_cons_of_neg (by simpa using hb)]

/-- No slash at the start. -/
def Trimmed (path : List UInt8) : Prop := path.head? ≠ some 0x2f

theorem trimmed_skip (path : List UInt8) : Trimmed (skipSlashes path) := by
  unfold Trimmed skipSlashes
  intro h
  have hhead := List.head?_dropWhile_not (· = (0x2f : UInt8)) path
  rw [h] at hhead
  simp at hhead

/-- The first component, up to its end. -/
def firstComp (path : List UInt8) : List UInt8 := path.takeWhile (· ≠ 0x2f)

theorem firstComp_eq_take (path : List UInt8) :
    path.take (firstComp path).length = firstComp path := by
  unfold firstComp
  exact (List.prefix_iff_eq_take.mp (List.takeWhile_prefix _)).symm

theorem slash_not_mem_firstComp (path : List UInt8) : (0x2f : UInt8) ∉ firstComp path := by
  intro h
  have := List.mem_takeWhile_imp h
  simp at this

theorem firstComp_ne_nil {b : UInt8} {bs : List UInt8} (h : Trimmed (b :: bs)) :
    firstComp (b :: bs) ≠ [] := by
  have hb : b ≠ 0x2f := fun hb => h (by rw [hb]; rfl)
  unfold firstComp
  rw [List.takeWhile_cons_of_pos (by simpa using hb)]
  exact List.cons_ne_nil _ _

theorem drop_takeWhile (p : UInt8 → Bool) (l : List UInt8) :
    l.drop (l.takeWhile p).length = l.dropWhile p := by
  induction l with
  | nil => rfl
  | cons b bs ih =>
      cases hb : p b with
      | true => simp [hb, ih]
      | false => simp [hb]

theorem firstComp_append (path : List UInt8) :
    firstComp path ++ path.drop (firstComp path).length = path := by
  unfold firstComp
  rw [drop_takeWhile]
  exact List.takeWhile_append_dropWhile

/-- Behind the first component there is a slash or nothing. -/
theorem drop_firstComp (path : List UInt8) :
    path.drop (firstComp path).length = []
      ∨ ∃ y, path.drop (firstComp path).length = 0x2f :: y := by
  unfold firstComp
  rw [drop_takeWhile]
  cases hrest : path.dropWhile (· ≠ 0x2f) with
  | nil => exact .inl rfl
  | cons c y =>
      right
      have hhead := List.head?_dropWhile_not (· ≠ (0x2f : UInt8)) path
      rw [hrest] at hhead
      exact ⟨y, by simpa using hhead⟩

theorem comps_cons {b : UInt8} {bs : List UInt8} (h : Trimmed (b :: bs)) :
    comps (b :: bs)
      = firstComp (b :: bs) :: comps (skipSlashes ((b :: bs).drop (firstComp (b :: bs)).length)) := by
  have hne := firstComp_ne_nil h
  have hsingle := comps_single hne (slash_not_mem_firstComp (b :: bs))
  rw [comps_skip]
  conv_lhs => rw [← firstComp_append (b :: bs)]
  rcases drop_firstComp (b :: bs) with hrest | ⟨y, hrest⟩
  · rw [hrest, List.append_nil, hsingle, comps_nil]
  · rw [hrest, comps_slash, hsingle, List.singleton_append]
    exact congrArg _ (comps_slash [] y).symm

-- ==================================================================== case

/-- A name with its letters made small. -/
def lower (c : List UInt8) : List UInt8 := c.map ufsLower

theorem ufsLower_slash (b : UInt8) : ufsLower b = 0x2f ↔ b = 0x2f := by
  unfold ufsLower
  constructor
  · intro h
    split at h
    · next hupper =>
      obtain ⟨hlow, hhigh⟩ := hupper
      have h' : b = 0x2f - 32 := by rw [← h]; simp
      subst h'
      exact absurd hlow (by decide)
    · exact h
  · rintro rfl
    rfl

theorem ufsLower_zero (b : UInt8) : ufsLower b = 0 ↔ b = 0 := by
  unfold ufsLower
  constructor
  · intro h
    split at h
    · next hupper =>
      obtain ⟨hlow, hhigh⟩ := hupper
      have h' : b = 0 - 32 := by rw [← h]; simp
      subst h'
      exact absurd hhigh (by decide)
    · exact h
  · rintro rfl
    rfl

theorem splitOn_lower (path : List UInt8) :
    (lower path).splitOn 0x2f = (path.splitOn 0x2f).map lower := by
  induction path with
  | nil => rfl
  | cons b bs ih =>
      unfold lower at *
      rw [List.map_cons, List.splitOn_cons_eq_if_modifyHead, List.splitOn_cons_eq_if_modifyHead, ih]
      by_cases hb : b = 0x2f
      · subst hb
        rfl
      · have hb' : ufsLower b ≠ 0x2f := fun h => hb ((ufsLower_slash b).mp h)
        have hneg : (b == 0x2f) = false := by simpa using hb
        have hneg' : (ufsLower b == 0x2f) = false := by simpa using hb'
        rw [hneg, hneg']
        simp only [Bool.false_eq_true, if_false]
        cases bs.splitOn 0x2f with
        | nil => rfl
        | cons => rfl

theorem comps_lower (path : List UInt8) : comps (lower path) = (comps path).map lower := by
  unfold comps
  rw [splitOn_lower, List.filter_map]
  congr 1
  apply List.filter_congr
  intro c _
  simp [lower]

theorem nameEq_iff (a : Nat → UInt8) (b : List UInt8) (blen : Nat) :
    ufsNameEq a b blen = true
      ↔ (∀ i < blen, a i ≠ 0 ∧ ufsLower (a i) = ufsLower (byteAt b i)) ∧ a blen = 0 := by
  unfold ufsNameEq
  rw [decide_eq_true_iff, List.all_eq_true]
  constructor
  · rintro ⟨h, h0⟩
    exact ⟨fun i hi => of_decide_eq_true (h i (List.mem_range.mpr hi)), h0⟩
  · rintro ⟨h, h0⟩
    exact ⟨fun i hi => decide_eq_true (h i (List.mem_range.mp hi)), h0⟩

theorem ufsLower_byteAt (bs : List UInt8) (i : Nat) :
    ufsLower (byteAt bs i) = byteAt (lower bs) i := by
  unfold byteAt lower
  rw [List.getD_eq_getElem?_getD, List.getD_eq_getElem?_getD, List.getElem?_map]
  cases bs[i]? <;> rfl

/-- Only the small letters of a name count. -/
theorem nameEq_congr (a : Nat → UInt8) {c c' : List UInt8} (h : lower c = lower c') :
    ufsNameEq a c c.length = ufsNameEq a c' c'.length := by
  have hlen : c.length = c'.length := by
    have := congrArg List.length h
    simpa [lower] using this
  rw [Bool.eq_iff_iff, nameEq_iff, nameEq_iff, hlen]
  simp only [ufsLower_byteAt, h]

-- =================================================================== walks

/-- The folder that a found entry leads to. -/
def nextClus (g : Geo) (e : Udirent) : Nat := if e.isDir ∧ e.first = 0 then rootOf g else e.first

/-- The walk over components from folder `clus` on, the entry so far
being `e`. -/
inductive Walks (disk : Disk) (g : Geo) : List (List UInt8) → Nat → Udirent → Found → Prop
  | nil (clus : Nat) (e : Udirent) : Walks disk g [] clus e { found := true, e, lost := false }
  | file {c : List UInt8} {cs : List (List UInt8)} {clus : Nat} {e : Udirent}
      (hfile : e.isDir = false) : Walks disk g (c :: cs) clus e { found := false, e, lost := false }
  | missing {c : List UInt8} {cs : List (List UInt8)} {clus : Nat} {e : Udirent} {o : Found}
      (hdir : e.isDir = true) (hfind : Finds disk g c { clus } e false o)
      (hno : o.found = false) : Walks disk g (c :: cs) clus e o
  | next {c : List UInt8} {cs : List (List UInt8)} {clus : Nat} {e : Udirent} {o out : Found}
      (hdir : e.isDir = true) (hfind : Finds disk g c { clus } e false o)
      (hyes : o.found = true) (hrest : Walks disk g cs (nextClus g o.e) o.e out) :
      Walks disk g (c :: cs) clus e out

variable {disk : Disk} {g : Geo}

theorem Finds.there {comp : List UInt8} {d : Udir} {e : Udirent} {lfnOk : Bool} {o : Found}
    (h : Finds disk g comp d e lfnOk o) (hfound : o.found = true) : o.lost = false := by
  induction h with
  | fin => exact nomatch hfound
  | stop => rfl
  | skip _ _ _ ih => exact ih hfound
  | found => rfl
  | other _ _ _ _ ih => exact ih hfound

theorem Finds.unique {comp : List UInt8} {d : Udir} {e : Udirent} {lfnOk : Bool} {o o' : Found}
    (h : Finds disk g comp d e lfnOk o) (h' : Finds disk g comp d e lfnOk o') : o = o' := by
  induction h with
  | fin hraw => cases h' <;> simp_all
  | stop hraw hturn => cases h' <;> simp_all
  | skip hraw hturn _ ih =>
      cases h' with
      | fin hraw' => simp_all
      | stop hraw' hturn' => simp_all
      | skip hraw' hturn' hrest' =>
          rw [hraw] at hraw'
          cases hraw'
          rw [hturn] at hturn'
          cases hturn'
          exact ih hrest'
      | found hraw' hturn' => simp_all
      | other hraw' hturn' => simp_all
  | found hraw hturn hname => cases h' <;> simp_all
  | other hraw hturn hname _ ih =>
      cases h' with
      | fin hraw' => simp_all
      | stop hraw' hturn' => simp_all
      | skip hraw' hturn' => simp_all
      | found hraw' hturn' hname' => simp_all
      | other hraw' hturn' hname' hrest' =>
          rw [hraw] at hraw'
          cases hraw'
          rw [hturn] at hturn'
          cases hturn'
          exact ih hrest'

theorem Finds.congr {c c' : List UInt8} (hc : lower c = lower c') {d : Udir} {e : Udirent}
    {lfnOk : Bool} {o : Found} (h : Finds disk g c d e lfnOk o) : Finds disk g c' d e lfnOk o := by
  induction h with
  | fin hraw => exact .fin hraw
  | stop hraw hturn => exact .stop hraw hturn
  | skip hraw hturn _ ih => exact .skip hraw hturn ih
  | found hraw hturn hname => exact .found hraw hturn (nameEq_congr _ hc ▸ hname)
  | other hraw hturn hname _ ih => exact .other hraw hturn (nameEq_congr _ hc ▸ hname) ih

theorem Walks.unique {cs : List (List UInt8)} {clus : Nat} {e : Udirent} {o o' : Found}
    (h : Walks disk g cs clus e o) (h' : Walks disk g cs clus e o') : o = o' := by
  induction h with
  | nil => cases h'; rfl
  | file hfile =>
      cases h' with
      | file => rfl
      | missing hdir => rw [hfile] at hdir; exact nomatch hdir
      | next hdir => rw [hfile] at hdir; exact nomatch hdir
  | missing hdir hfind hno =>
      cases h' with
      | file hfile => rw [hdir] at hfile; exact nomatch hfile
      | missing _ hfind' _ => exact hfind.unique hfind'
      | next _ hfind' hyes =>
          rw [hfind.unique hfind', hyes] at hno
          exact nomatch hno
  | next hdir hfind hyes _ ih =>
      cases h' with
      | file hfile => rw [hdir] at hfile; exact nomatch hfile
      | missing _ hfind' hno =>
          rw [← hfind.unique hfind', hyes] at hno
          exact nomatch hno
      | next _ hfind' _ hrest' =>
          rw [← hfind.unique hfind'] at hrest'
          exact ih hrest'

/-- Components with the same small letters walk alike. -/
theorem Walks.congr {cs cs' : List (List UInt8)} (hcs : cs.map lower = cs'.map lower) {clus : Nat}
    {e : Udirent} {o : Found} (h : Walks disk g cs clus e o) : Walks disk g cs' clus e o := by
  induction h generalizing cs' with
  | nil clus e =>
      obtain rfl : cs' = [] := by simpa using hcs.symm
      exact .nil clus e
  | file hfile =>
      cases cs' with
      | nil => simp at hcs
      | cons c' cs' => exact .file hfile
  | missing hdir hfind hno =>
      cases cs' with
      | nil => simp at hcs
      | cons c' cs' =>
          rw [List.map_cons, List.map_cons, List.cons.injEq] at hcs
          exact .missing hdir (hfind.congr hcs.1) hno
  | next hdir hfind hyes _ ih =>
      cases cs' with
      | nil => simp at hcs
      | cons c' cs' =>
          rw [List.map_cons, List.map_cons, List.cons.injEq] at hcs
          exact .next hdir (hfind.congr hcs.1) hyes (ih hcs.2)

/-- A walk that got somewhere goes on from there. -/
theorem Walks.append {xs ys : List (List UInt8)} (hxs : xs ≠ []) {clus : Nat} {e : Udirent}
    {o out : Found} (h : Walks disk g xs clus e o) (hfound : o.found = true)
    (hrest : Walks disk g ys (nextClus g o.e) o.e out) : Walks disk g (xs ++ ys) clus e out := by
  induction h with
  | nil => exact absurd rfl hxs
  | file => exact nomatch hfound
  | missing _ _ hno => rw [hfound] at hno; exact nomatch hno
  | @next c cs clus e o o' hdir hfind hyes hwalk ih =>
      cases cs with
      | nil =>
          cases hwalk
          exact .next hdir hfind hyes hrest
      | cons c' cs => exact .next hdir hfind hyes (ih (List.cons_ne_nil _ _) hfound hrest)

/-- A walk over a path whose first part leads somewhere is the walk from
there. -/
theorem Walks.of_append {xs ys : List (List UInt8)} (hxs : xs ≠ []) {clus : Nat} {e : Udirent}
    {o out : Found} (h : Walks disk g xs clus e o) (hfound : o.found = true)
    (hwhole : Walks disk g (xs ++ ys) clus e out) : Walks disk g ys (nextClus g o.e) o.e out := by
  induction h with
  | nil => exact absurd rfl hxs
  | file => exact nomatch hfound
  | missing _ _ hno => rw [hfound] at hno; exact nomatch hno
  | @next c cs clus e o o' hdir hfind hyes hwalk ih =>
      rw [List.cons_append] at hwhole
      cases hwhole with
      | file hfile => rw [hdir] at hfile; exact nomatch hfile
      | missing _ hfind' hno =>
          rw [← hfind.unique hfind', hyes] at hno
          exact nomatch hno
      | next _ hfind' hyes' hrest' =>
          rw [← hfind.unique hfind'] at hrest'
          cases cs with
          | nil =>
              cases hwalk
              exact hrest'
          | cons c' cs => exact ih (List.cons_ne_nil _ _) hfound hrest'

end Ncmips.Usbfat
