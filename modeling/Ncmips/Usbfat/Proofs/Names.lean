/-
What a search finds, whatever the name buffer held before.

`ufs_readdir` collects a long name part by part in the caller's buffer.
It takes the name as whole from its last part on, so parts that are
missing leave what an earlier name left there. `WholeNames` says that no
entry of the volume's folders does that; then two searches of one folder
that differ only in the buffer find the same (`Finds.twin`).
-/
import Ncmips.Usbfat.Proofs.Walk

namespace Ncmips.Usbfat

-- =========================================================== entry by entry

/-- The buffer and the long-name flag after an entry. -/
def turn (fat32 : Bool) (st : Udirent × Bool) (r : List UInt8) : Udirent × Bool :=
  match dirTurn fat32 r st.1 st.2 with
  | .stop => st
  | .skip e lfnOk => (e, lfnOk)
  | .entry e => (e, false)

/-- The entries of a folder from one place to another, none of them the
end marker. -/
inductive RawRun (disk : Disk) (g : Geo) : Udir → List (List UInt8) → Udir → Prop
  | nil (d : Udir) : RawRun disk g d [] d
  | snoc {d d' d'' : Udir} {rs : List (List UInt8)} {r : List UInt8} (hrun : RawRun disk g d rs d')
      (hraw : rawStep disk g d' = .more r d'') (hr : Bits.byteAt r 0 ≠ 0) :
      RawRun disk g d (rs ++ [r]) d''

/-- Fields that do not come from the name buffer. -/
structure Udirent.Twin (e e' : Udirent) : Prop where
  isDir : e'.isDir = e.isDir
  size : e'.size = e.size
  first : e'.first = e.first

/-- What two runs make of one entry. -/
inductive TwinTurn : Turn → Turn → Prop
  | stop : TwinTurn .stop .stop
  | skip (e e' : Udirent) (lfnOk : Bool) : TwinTurn (.skip e lfnOk) (.skip e' lfnOk)
  | entry {e e' : Udirent} (h : e.Twin e') : TwinTurn (.entry e) (.entry e')

theorem dirTurn_twin (fat32 : Bool) (r : List UInt8) (e e' : Udirent) (lfnOk : Bool) :
    TwinTurn (dirTurn fat32 r e lfnOk) (dirTurn fat32 r e' lfnOk) := by
  unfold dirTurn
  dsimp only
  split_ifs <;> first | exact .stop | exact .skip _ _ _ | exact .entry ⟨rfl, rfl, rfl⟩

theorem dirTurn_stop {fat32 : Bool} {r : List UInt8} {e : Udirent} {lfnOk : Bool} :
    dirTurn fat32 r e lfnOk = .stop ↔ Bits.byteAt r 0 = 0 := by
  constructor
  · intro h
    by_contra h0
    unfold dirTurn at h
    rw [if_neg h0] at h
    dsimp only at h
    split_ifs at h
  · intro h
    unfold dirTurn
    rw [if_pos h]

theorem turns_lfnOk (fat32 : Bool) (rs : List (List UInt8)) {st st' : Udirent × Bool}
    (h : st'.2 = st.2) : (rs.foldl (turn fat32) st').2 = (rs.foldl (turn fat32) st).2 := by
  induction rs generalizing st st' with
  | nil => exact h
  | cons r rs ih =>
      apply ih
      have htwin := dirTurn_twin fat32 r st.1 st'.1 st.2
      unfold turn
      rw [h]
      generalize dirTurn fat32 r st.1 st.2 = t at htwin ⊢
      generalize dirTurn fat32 r st'.1 st.2 = t' at htwin ⊢
      cases htwin with
      | stop => exact h
      | skip => rfl
      | entry => rfl

-- ============================================================== the volume

/-- The folders of the volume: the root, and what their entries lead to. -/
inductive Folder (disk : Disk) (g : Geo) : Nat → Prop
  | root : Folder disk g (rootOf g)
  | sub {c : Nat} {rs : List (List UInt8)} {d d' : Udir} {r : List UInt8} {e x : Udirent}
      {lfnOk : Bool} (hc : Folder disk g c) (hrun : RawRun disk g { clus := c } rs d)
      (hraw : rawStep disk g d = .more r d') (hturn : dirTurn g.fat32 r e lfnOk = .entry x)
      (hdir : x.isDir = true) : Folder disk g (nextClus g x)

/-- The strings in two name buffers are the same for `ufs_name_eq`. -/
def SameString (a b : Nat → UInt8) : Prop := ∀ comp blen, ufsNameEq a comp blen = ufsNameEq b comp blen

/-- An entry's name, read after the entries `rs` from an empty long name
on, is the same whatever the buffer held before. -/
def OwnName (fat32 : Bool) (rs : List (List UInt8)) (r : List UInt8) : Prop :=
  ∀ e₀ e₀' x x',
    dirTurn fat32 r (rs.foldl (turn fat32) (e₀, false)).1 (rs.foldl (turn fat32) (e₀, false)).2
        = .entry x →
      dirTurn fat32 r (rs.foldl (turn fat32) (e₀', false)).1 (rs.foldl (turn fat32) (e₀', false)).2
        = .entry x' → SameString x.name x'.name

/-- A volume on which the folder cache is safe: no FAT sector has the
number that marks the FAT cache as empty, every long name is its folder's
own, and folders have size 0. -/
structure Clean (disk : Disk) (g : Geo) : Prop where
  sound : g.Sound
  names : ∀ c rs d r d', Folder disk g c → RawRun disk g { clus := c } rs d →
    rawStep disk g d = .more r d' → OwnName g.fat32 rs r
  sizes : ∀ c rs d r d' e lfnOk x, Folder disk g c → RawRun disk g { clus := c } rs d →
    rawStep disk g d = .more r d' → dirTurn g.fat32 r e lfnOk = .entry x → x.isDir = true →
      x.size = 0

variable {disk : Disk} {g : Geo}

-- ============================================================ short names

theorem putName_zero (name : Nat → UInt8) (bs : List UInt8) {i : Nat} (hi : i < bs.length) :
    putName name 0 bs i = Bits.byteAt bs i := by
  unfold putName
  rw [if_pos ⟨Nat.zero_le i, by omega⟩, Nat.sub_zero]

/-- What follows a string in the buffer does not count. -/
theorem sameString_putName (a b : Nat → UInt8) (bs : List UInt8) :
    SameString (putName a 0 (bs ++ [0])) (putName b 0 (bs ++ [0])) := by
  have hin (name : Nat → UInt8) {i : Nat} (hi : i ≤ bs.length) :
      putName name 0 (bs ++ [0]) i = Bits.byteAt (bs ++ [0]) i :=
    putName_zero name _ (by rw [List.length_append, List.length_singleton]; omega)
  have hend (name : Nat → UInt8) : putName name 0 (bs ++ [0]) bs.length = 0 := by
    rw [hin name (le_refl _)]
    simp [Bits.byteAt]
  intro comp blen
  rw [Bool.eq_iff_iff, nameEq_iff, nameEq_iff]
  by_cases hlen : blen ≤ bs.length
  · have hall (name : Nat → UInt8) : (∀ i < blen, putName name 0 (bs ++ [0]) i ≠ 0
          ∧ ufsLower (putName name 0 (bs ++ [0]) i) = ufsLower (Bits.byteAt comp i))
        ↔ ∀ i < blen, Bits.byteAt (bs ++ [0]) i ≠ 0
          ∧ ufsLower (Bits.byteAt (bs ++ [0]) i) = ufsLower (Bits.byteAt comp i) := by
      constructor
      · intro h i hi
        rw [← hin name (by omega)]
        exact h i hi
      · intro h i hi
        rw [hin name (by omega)]
        exact h i hi
    rw [hall, hall, hin a hlen, hin b hlen]
  · have hno (name : Nat → UInt8) : ¬∀ i < blen, putName name 0 (bs ++ [0]) i ≠ 0
          ∧ ufsLower (putName name 0 (bs ++ [0]) i) = ufsLower (Bits.byteAt comp i) :=
      fun h => (h bs.length (by omega)).1 (hend name)
    constructor
    · rintro ⟨h, -⟩
      exact absurd h (hno a)
    · rintro ⟨h, -⟩
      exact absurd h (hno b)

/-- What an entry says of a file or folder. -/
theorem dirTurn_entry {fat32 : Bool} {r : List UInt8} {e x : Udirent} {lfnOk : Bool}
    (h : dirTurn fat32 r e lfnOk = .entry x) :
    x = { name := if lfnOk then e.name else putName e.name 0 (shortName r ++ [0])
          attr := Bits.byteAt r 11
          isDir := Bits.byteAt r 11 &&& attrDir ≠ 0
          size := le32 r 28
          first := (if fat32 then le16 r 20 * 2 ^ 16 else 0) + le16 r 26 } := by
  unfold dirTurn at h
  dsimp only at h
  split_ifs at h <;> cases h <;> simp only [*, if_true, if_false, Bool.false_eq_true]

/-- No entry but a part of a long name makes the name a long one. -/
theorem turn_short {fat32 : Bool} {r : List UInt8} (h : Bits.byteAt r 11 ≠ 0x0f) (e : Udirent) :
    (turn fat32 (e, false) r).2 = false := by
  unfold turn dirTurn
  dsimp only
  rw [if_neg h]
  split_ifs <;> rfl

/-- A volume without long names, whose folders have size 0, is clean. -/
theorem clean_of_short (hg : g.Sound)
    (hentry : ∀ c rs d r d', Folder disk g c → RawRun disk g { clus := c } rs d →
      rawStep disk g d = .more r d' →
      Bits.byteAt r 0 = 0 ∨ Bits.byteAt r 11 ≠ 0x0f ∧ (Bits.byteAt r 11 &&& attrDir ≠ 0 → le32 r 28 = 0)) :
    Clean disk g where
  sound := hg
  names := by
    intro c rs d r d' hc hrun hraw e₀ e₀' x x' hx hx'
    have hok : ∀ e : Udirent, (rs.foldl (turn g.fat32) (e, false)).2 = false := by
      intro e
      clear hx hx' hraw
      induction hrun with
      | nil => rfl
      | snoc hrun hraw hr ih =>
          rw [List.foldl_append, List.foldl_cons, List.foldl_nil]
          rw [← Prod.eta (List.foldl _ _ _), ih]
          exact turn_short ((hentry c _ _ _ _ hc hrun hraw).resolve_left hr).1 _
    rw [hok] at hx hx'
    rw [dirTurn_entry hx, dirTurn_entry hx']
    exact sameString_putName _ _ _
  sizes := by
    intro c rs d r d' e lfnOk x hc hrun hraw hturn hdir
    have h0 : Bits.byteAt r 0 ≠ 0 := by
      intro h0
      rw [dirTurn_stop.mpr h0] at hturn
      exact nomatch hturn
    obtain rfl := dirTurn_entry hturn
    exact ((hentry c rs d r d' hc hrun hraw).resolve_left h0).2 (by simpa using hdir)

-- ================================================================ searches

/-- What two searches that differ in the buffer come to. -/
structure Found.Twin (o o' : Found) : Prop where
  found : o'.found = o.found
  lost : o'.lost = o.lost
  entry : o.found = true → o.e.Twin o'.e

theorem Finds.twin (hclean : Clean disk g) {c : Nat} (hc : Folder disk g c) {comp : List UInt8}
    {d : Udir} {e : Udirent} {lfnOk : Bool} {o : Found} (h : Finds disk g comp d e lfnOk o)
    {rs : List (List UInt8)} (hrun : RawRun disk g { clus := c } rs d) {e₀ e₀' : Udirent}
    (he : rs.foldl (turn g.fat32) (e₀, false) = (e, lfnOk)) {e' : Udirent}
    (he' : rs.foldl (turn g.fat32) (e₀', false) = (e', lfnOk)) :
    ∃ o', Finds disk g comp d e' lfnOk o' ∧ o.Twin o' := by
  induction h generalizing rs e' with
  | fin hraw => exact ⟨_, .fin hraw, rfl, rfl, fun h => nomatch h⟩
  | @stop d d' e lfnOk r hraw hturn =>
      have hstop : dirTurn g.fat32 r e' lfnOk = .stop := dirTurn_stop.mpr (dirTurn_stop.mp hturn)
      exact ⟨_, .stop hraw hstop, rfl, rfl, fun h => nomatch h⟩
  | @skip d d' e e₁ lfnOk lfnOk' r o hraw hturn _ ih =>
      have htwin := dirTurn_twin g.fat32 r e e' lfnOk
      have hr : Bits.byteAt r 0 ≠ 0 := by
        intro h0
        rw [dirTurn_stop.mpr h0] at hturn
        exact nomatch hturn
      rw [hturn] at htwin
      cases hturn' : dirTurn g.fat32 r e' lfnOk with
      | stop => rw [hturn'] at htwin; exact nomatch htwin
      | entry x => rw [hturn'] at htwin; exact nomatch htwin
      | skip e₁' ok =>
          rw [hturn'] at htwin
          cases htwin
          have hnext : (rs ++ [r]).foldl (turn g.fat32) (e₀, false) = (e₁, lfnOk') := by
            rw [List.foldl_append, he, List.foldl_cons, List.foldl_nil, turn, hturn]
          have hnext' : (rs ++ [r]).foldl (turn g.fat32) (e₀', false) = (e₁', lfnOk') := by
            rw [List.foldl_append, he', List.foldl_cons, List.foldl_nil, turn, hturn']
          obtain ⟨o', hfinds, ho⟩ := ih (.snoc hrun hraw hr) hnext hnext'
          exact ⟨o', .skip hraw hturn' hfinds, ho⟩
  | @found d d' e x lfnOk r hraw hturn hname =>
      have htwin := dirTurn_twin g.fat32 r e e' lfnOk
      have hown := hclean.names c rs d r d' hc hrun hraw e₀ e₀' x
      rw [he, he'] at hown
      rw [hturn] at htwin
      cases hturn' : dirTurn g.fat32 r e' lfnOk with
      | stop => rw [hturn'] at htwin; exact nomatch htwin
      | skip e₁' ok => rw [hturn'] at htwin; exact nomatch htwin
      | entry x' =>
          rw [hturn'] at htwin
          cases htwin with
          | entry hx =>
              have hstring := hown x' hturn hturn'
              rw [hstring] at hname
              exact ⟨_, .found hraw hturn' hname, rfl, rfl, fun _ => hx⟩
  | @other d d' e x lfnOk r o hraw hturn hname _ ih =>
      have htwin := dirTurn_twin g.fat32 r e e' lfnOk
      have hr : Bits.byteAt r 0 ≠ 0 := by
        intro h0
        rw [dirTurn_stop.mpr h0] at hturn
        exact nomatch hturn
      have hown := hclean.names c rs d r d' hc hrun hraw e₀ e₀' x
      rw [he, he'] at hown
      rw [hturn] at htwin
      cases hturn' : dirTurn g.fat32 r e' lfnOk with
      | stop => rw [hturn'] at htwin; exact nomatch htwin
      | skip e₁' ok => rw [hturn'] at htwin; exact nomatch htwin
      | entry x' =>
          rw [hturn'] at htwin
          have hstring := hown x' hturn hturn'
          rw [hstring] at hname
          have hnext : (rs ++ [r]).foldl (turn g.fat32) (e₀, false) = (x, false) := by
            rw [List.foldl_append, he, List.foldl_cons, List.foldl_nil, turn, hturn]
          have hnext' : (rs ++ [r]).foldl (turn g.fat32) (e₀', false) = (x', false) := by
            rw [List.foldl_append, he', List.foldl_cons, List.foldl_nil, turn, hturn']
          obtain ⟨o', hfinds, ho⟩ := ih (.snoc hrun hraw hr) hnext hnext'
          exact ⟨o', .other hraw hturn' hname hfinds, ho⟩

/-- From the folder's start. -/
theorem Finds.twin_start (hclean : Clean disk g) {c : Nat} (hc : Folder disk g c)
    {comp : List UInt8} {e : Udirent} {o : Found} (h : Finds disk g comp { clus := c } e false o)
    (e' : Udirent) : ∃ o', Finds disk g comp { clus := c } e' false o' ∧ o.Twin o' :=
  h.twin hclean hc (.nil _) rfl rfl

/-- What a search finds is an entry of the folder. -/
theorem Finds.entry_of {c : Nat} {comp : List UInt8} {d : Udir} {e : Udirent} {lfnOk : Bool}
    {o : Found} (h : Finds disk g comp d e lfnOk o) {rs : List (List UInt8)}
    (hrun : RawRun disk g { clus := c } rs d) (hfound : o.found = true) :
    ∃ rs d r d' e lfnOk, RawRun disk g { clus := c } rs d ∧ rawStep disk g d = .more r d'
      ∧ dirTurn g.fat32 r e lfnOk = .entry o.e := by
  induction h generalizing rs with
  | fin => exact nomatch hfound
  | stop => exact nomatch hfound
  | skip hraw hturn _ ih =>
      refine ih (.snoc hrun hraw fun h0 => ?_) hfound
      rw [dirTurn_stop.mpr h0] at hturn
      exact nomatch hturn
  | found hraw hturn _ => exact ⟨_, _, _, _, _, _, hrun, hraw, hturn⟩
  | other hraw hturn _ _ ih =>
      refine ih (.snoc hrun hraw fun h0 => ?_) hfound
      rw [dirTurn_stop.mpr h0] at hturn
      exact nomatch hturn

theorem Finds.folder {c : Nat} (hc : Folder disk g c) {comp : List UInt8} {e : Udirent} {o : Found}
    (h : Finds disk g comp { clus := c } e false o) (hfound : o.found = true)
    (hdir : o.e.isDir = true) : Folder disk g (nextClus g o.e) := by
  obtain ⟨rs, d, r, d', e', lfnOk, hrun, hraw, hturn⟩ := h.entry_of (.nil _) hfound
  exact .sub hc hrun hraw hturn hdir

theorem Finds.size (hclean : Clean disk g) {c : Nat} (hc : Folder disk g c) {comp : List UInt8}
    {e : Udirent} {o : Found} (h : Finds disk g comp { clus := c } e false o)
    (hfound : o.found = true) (hdir : o.e.isDir = true) : o.e.size = 0 := by
  obtain ⟨rs, d, r, d', e', lfnOk, hrun, hraw, hturn⟩ := h.entry_of (.nil _) hfound
  exact hclean.sizes c rs d r d' e' lfnOk _ hc hrun hraw hturn hdir

-- =================================================================== walks

theorem nextClus_twin {e e' : Udirent} (h : e.Twin e') : nextClus g e' = nextClus g e := by
  unfold nextClus
  rw [h.isDir, h.first]

/-- Two walks that differ in the buffer, and at the end of the path
nowhere else. -/
theorem Walks.twin (hclean : Clean disk g) {cs : List (List UInt8)} {clus : Nat} {e : Udirent}
    {o : Found} (h : Walks disk g cs clus e o) (hc : e.isDir = true → Folder disk g clus)
    {e' : Udirent} (hdir : e'.isDir = e.isDir) (hsame : cs ≠ [] ∨ e.Twin e') :
    ∃ o', Walks disk g cs clus e' o' ∧ o.Twin o' := by
  induction h generalizing e' with
  | nil clus e =>
      have htwin := hsame.resolve_left fun h => h rfl
      exact ⟨_, .nil clus e', rfl, rfl, fun _ => htwin⟩
  | file hfile => exact ⟨_, .file (hdir.trans hfile), rfl, rfl, fun h => nomatch h⟩
  | missing hd hfind hno =>
      obtain ⟨o', hfind', ho⟩ := hfind.twin_start hclean (hc hd) e'
      exact ⟨o', .missing (hdir.trans hd) hfind' (ho.found.trans hno), ho⟩
  | next hd hfind hyes _ ih =>
      obtain ⟨o₁', hfind', ho⟩ := hfind.twin_start hclean (hc hd) e'
      have htwin := ho.entry hyes
      obtain ⟨o', hwalk, ho'⟩ := ih (fun h => hfind.folder (hc hd) hyes h) htwin.isDir (.inr htwin)
      refine ⟨o', .next (hdir.trans hd) hfind' (ho.found.trans hyes) ?_, ho'⟩
      rw [nextClus_twin htwin]
      exact hwalk

/-- A folder that a walk leads to is one, of size 0. -/
theorem Walks.folder (hclean : Clean disk g) {cs : List (List UInt8)} (hcs : cs ≠ []) {clus : Nat}
    {e : Udirent} {o : Found} (h : Walks disk g cs clus e o) (hc : e.isDir = true → Folder disk g clus)
    (hfound : o.found = true) (hdir : o.e.isDir = true) :
    Folder disk g (nextClus g o.e) ∧ o.e.size = 0 := by
  induction h with
  | nil => exact absurd rfl hcs
  | file => exact nomatch hfound
  | missing _ _ hno => rw [hfound] at hno; exact nomatch hno
  | @next c cs clus e o out hd hfind hyes hrest ih =>
      cases cs with
      | nil =>
          cases hrest
          exact ⟨hfind.folder (hc hd) hyes hdir, hfind.size hclean (hc hd) hyes hdir⟩
      | cons c' cs => exact ih (List.cons_ne_nil _ _) (hfind.folder (hc hd) hyes) hfound hdir

theorem Walks.there {cs : List (List UInt8)} {clus : Nat} {e : Udirent} {o : Found}
    (h : Walks disk g cs clus e o) (hfound : o.found = true) : o.lost = false := by
  induction h with
  | nil => rfl
  | file => rfl
  | missing _ _ hno => rw [hfound] at hno; exact nomatch hno
  | next _ _ _ _ ih => exact ih hfound

end Ncmips.Usbfat
