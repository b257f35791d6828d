/-
What the FAT reader sees of a stick that does not change.

The one-sector cache of the FAT makes no difference: as long as no FAT
sector has the number that marks it as empty, an entry's value is what
the stick holds (`fatRead`).
-/
import Ncmips.Usbfat.File

namespace Ncmips.Usbfat

/-- The stick's answer to a read, the same at all times. -/
abbrev Disk := Nat → Nat → Option (List UInt8)

def Disk.answer (disk : Disk) : Req → Option (List UInt8)
  | .read start count => disk start count
  | .write _ _ => none

/-- The result of a program that only reads. -/
def onDisk {α : Type} (disk : Disk) (p : Io α) : α := p.eval disk.answer

section

variable {α β : Type} (disk : Disk)

@[simp] theorem onDisk_pure (a : α) : onDisk disk (pure a) = a := rfl

@[simp] theorem onDisk_ret (a : α) : onDisk disk (.ret a) = a := rfl

@[simp] theorem onDisk_bind (p : Io α) (f : α → Io β) :
    onDisk disk (p >>= f) = onDisk disk (f (onDisk disk p)) := Prog.eval_bind _ _ _

@[simp] theorem onDisk_read (start count : Nat) :
    onDisk disk (.ask (.read start count)) = disk start count := rfl

end

-- ================================================================= numbers

theorem le16_lt (p : List UInt8) (i : Nat) : le16 p i < 2 ^ 16 := by
  unfold le16
  have hlow := (Bits.byteAt p i).toNat_lt
  have hhigh := (Bits.byteAt p (i + 1)).toNat_lt
  omega

theorem le32_lt (p : List UInt8) (i : Nat) : le32 p i < 2 ^ 32 := by
  unfold le32
  have hlow := le16_lt p i
  have hhigh := le16_lt p (i + 2)
  omega

-- ================================================================ the FAT

/-- The mark of an empty FAT cache. -/
def noSector : Nat := 0xffffffff

/-- No FAT sector has the mark's number. -/
def Geo.Sound (g : Geo) : Prop := ∀ c, (fatPlace g c).1 ≠ noSector

/-- The stick is there and the FAT cache, if not empty, is a sector of it. -/
structure Fs.Sees (s : Fs) (disk : Disk) : Prop where
  there : s.lost = false
  cached : s.fatCached ≠ noSector → disk s.fatCached 1 = some s.fatsec

/-- Another state of the same mount, with the same folder cache. -/
structure Fs.Like (s s' : Fs) : Prop where
  geo : s'.geo = s.geo
  dcache : s'.dcache = s.dcache
  next : s'.dcacheNext = s.dcacheNext

theorem Fs.Like.refl (s : Fs) : s.Like s := ⟨rfl, rfl, rfl⟩

theorem Fs.Like.trans {s s' s'' : Fs} (h : s.Like s') (h' : s'.Like s'') : s.Like s'' :=
  ⟨h'.geo.trans h.geo, h'.dcache.trans h.dcache, h'.next.trans h.next⟩

/-- The FAT entry of a cluster on the stick, or `none` if its sector
cannot be read. -/
def fatRead (disk : Disk) (g : Geo) (c : Nat) : Option Nat :=
  (disk (fatPlace g c).1 1).map fun data => fatValue g.fat32 data (fatPlace g c).2

variable {disk : Disk}

theorem onDisk_sectors {s : Fs} (h : s.Sees disk) (start count : Nat) :
    onDisk disk (ufsSectors s start count)
      = match disk start count with
        | none => (none, { s with lost := true })
        | some data => (some data, s) := by
  unfold ufsSectors
  rw [h.there]
  simp only [Bool.false_eq_true, if_false, onDisk_bind, onDisk_read]
  cases disk start count <;> rfl

/-- A FAT entry: its value, with the stick still there, or the stick lost. -/
theorem onDisk_fatNext {s : Fs} (h : s.Sees disk) {c : Nat} (hc : (fatPlace s.geo c).1 ≠ noSector) :
    (∃ v s', fatRead disk s.geo c = some v ∧ onDisk disk (ufsFatNext s c) = (v, s')
        ∧ s.Like s' ∧ s'.Sees disk)
      ∨ (fatRead disk s.geo c = none
        ∧ onDisk disk (ufsFatNext s c) = (fatEnd, { s with lost := true })) := by
  unfold ufsFatNext fatRead
  dsimp only
  by_cases hsame : (fatPlace s.geo c).1 = s.fatCached
  · left
    have hdisk := h.cached (hsame ▸ hc)
    rw [hsame, hdisk]
    simp only [ne_eq, not_true_eq_false, if_false, onDisk_pure]
    exact ⟨_, s, rfl, rfl, .refl s, h⟩
  · simp only [ne_eq, hsame, not_false_eq_true, if_true, onDisk_bind, onDisk_sectors h]
    cases hdisk : disk (fatPlace s.geo c).1 1 with
    | none => exact .inr ⟨rfl, rfl⟩
    | some data =>
        left
        refine ⟨_, _, rfl, rfl, ⟨rfl, rfl, rfl⟩, ⟨h.there, fun _ => hdisk⟩⟩

-- ============================================================== the stick gone

section

variable (disk : Disk) {s : Fs}

theorem lost_sectors (h : s.lost = true) (start count : Nat) :
    onDisk disk (ufsSectors s start count) = (none, s) := by
  unfold ufsSectors
  rw [if_pos h, onDisk_pure]

theorem lost_fatNext (h : s.lost = true) (c : Nat) : (onDisk disk (ufsFatNext s c)).2 = s := by
  unfold ufsFatNext
  dsimp only
  split
  · rw [onDisk_bind, lost_sectors disk h]
    rfl
  · rfl

end

-- =============================================================== what stays

variable {s s' s'' : Fs}

/-- The state tells the truth about the stick, if it is not lost. -/
def Fs.Steady (s : Fs) (disk : Disk) : Prop := s.lost = false → s.Sees disk

/-- A later state of the same mount. -/
structure Fs.Stays (s s' : Fs) (disk : Disk) : Prop extends s.Like s' where
  steady : s'.Steady disk
  back : s'.lost = false → s.lost = false
  kept : (∀ start count, disk start count ≠ none) → s.lost = false → s'.lost = false

theorem Fs.Steady.stays (h : s.Steady disk) : s.Stays s disk :=
  { Fs.Like.refl s with steady := h, back := id, kept := fun _ => id }

theorem Fs.Stays.trans (h : s.Stays s' disk) (h' : s'.Stays s'' disk) : s.Stays s'' disk :=
  { h.toLike.trans h'.toLike with
    steady := h'.steady, back := fun hb => h.back (h'.back hb)
    kept := fun htotal hthere => h'.kept htotal (h.kept htotal hthere) }

theorem Fs.Steady.lost (hlost : s.lost = true) : s.Steady disk :=
  fun h => by rw [hlost] at h; exact nomatch h

/-- A transfer that fails. -/
theorem stays_lose (s : Fs) {start count : Nat} (hread : disk start count = none) :
    s.Stays { s with lost := true } disk :=
  { geo := rfl, dcache := rfl, next := rfl, steady := .lost rfl, back := fun h => nomatch h
    kept := fun htotal => absurd hread (htotal start count) }

theorem sectors_stays (h : s.Steady disk) (start count : Nat) :
    s.Stays (onDisk disk (ufsSectors s start count)).2 disk := by
  cases hlost : s.lost with
  | true =>
      rw [lost_sectors disk hlost]
      exact h.stays
  | false =>
      rw [onDisk_sectors (h hlost)]
      cases hread : disk start count with
      | none => exact stays_lose s hread
      | some data => exact h.stays

/-- A transfer that succeeds leaves the stick there. -/
theorem sectors_there {start count : Nat} {data : List UInt8}
    (h : onDisk disk (ufsSectors s start count) = (some data, s')) : s'.lost = false := by
  cases hlost : s.lost with
  | true =>
      rw [lost_sectors disk hlost] at h
      exact nomatch congrArg Prod.fst h
  | false =>
      unfold ufsSectors at h
      simp only [hlost, Bool.false_eq_true, if_false, onDisk_bind, onDisk_read] at h
      cases hread : disk start count with
      | none =>
          rw [hread] at h
          exact nomatch congrArg Prod.fst h
      | some data =>
          rw [hread] at h
          have hsame : s = s' := congrArg Prod.snd h
          rw [← hsame]
          exact hlost

theorem fatNext_stays (h : s.Steady disk) (c : Nat) :
    s.Stays (onDisk disk (ufsFatNext s c)).2 disk := by
  cases hlost : s.lost with
  | true =>
      rw [lost_fatNext disk hlost]
      exact h.stays
  | false =>
      unfold ufsFatNext
      dsimp only
      by_cases hsame : (fatPlace s.geo c).1 = s.fatCached
      · rw [if_neg (not_not.mpr hsame), onDisk_pure]
        exact h.stays
      · rw [if_pos hsame, onDisk_bind, onDisk_sectors (h hlost)]
        cases hread : disk (fatPlace s.geo c).1 1 with
        | none => exact stays_lose s hread
        | some data =>
            exact { geo := rfl, dcache := rfl, next := rfl, back := fun _ => hlost
                    steady := fun _ => ⟨hlost, fun _ => hread⟩, kept := fun _ _ => hlost }

end Ncmips.Usbfat
