/-
The FAT reader's only write, `ufs_overwrite` of `usbfat.h`, and a drive
whose transfers may fail.
-/
import Ncmips.Lib.Faces
import Ncmips.Usbfat.Volume

namespace Ncmips.Usbfat

/-- `memcmp (a, b, len) == 0` with the length of `b`. -/
def beginsWith (a b : List UInt8) : Bool := a.take b.length = b

/-- `ufs_overwrite`; `writer` says that there is `ufs_ext_write`, or that
U-Boot has a USB write. -/
def ufsOverwrite (writer : Bool) (turns : Nat) (path data magic : List UInt8) (e : Udirent) (fs : Fs) :
    Io (Option (Bool × Fs)) := do
  match ← ufsLookup turns path e fs with
  | none => pure none
  | some r =>
      if !r.ok ∨ r.e.isDir then pure (some (false, r.s))
      else if r.e.size ≠ ufsSector ∨ ufsEoc r.e.first then pure (some (false, r.s))
      else if !beginsWith data magic then pure (some (false, r.s))
      else if !writer then pure (some (false, r.s))
      else do
        let sec := ufsClusSector r.s.geo r.e.first
        match ← ufsSectors r.s sec 1 with
        | (none, fs) => pure (some (false, fs))
        | (some old, fs) =>
            -- the sector on the stick must hold the expected data
            if !beginsWith old magic then pure (some (false, fs))
            else do
              let wrote ← ufsWriteSector sec data
              if !wrote then pure (some (false, fs))
              else do
                match ← ufsSectors fs sec 1 with
                | (none, fs) => pure (some (false, fs))
                | (some now, fs) => pure (some (beginsWith now data, fs))

-- =================================================================== a drive

/-- A transfer that was tried. -/
inductive Event
  | read (start count : Nat) (data : Option (List UInt8))
  | write (sec : Nat) (data : List UInt8) (ok : Bool)

def Event.isWrite : Event → Bool
  | .read .. => false
  | .write .. => true

/-- A stick, and what was tried on it so far. -/
structure Drive where
  stick : Stick
  past : List Event := []

/-- Another sector `sec`. -/
def Stick.put (st : Stick) (sec : Nat) (data : List UInt8) (h : data.length = ufsSector) : Stick where
  sector := fun i => if i = sec then data else st.sector i
  length := by
    intro i
    split
    · exact h
    · exact st.length i

/-- How a transfer may go. A write that fails may have written anything to
its sector. -/
inductive Drive.Answers (d : Drive) : Req → Option (List UInt8) → Drive → Prop
  | read (start count : Nat) : d.Answers (.read start count) (some (d.stick.read start count))
      { d with past := d.past ++ [.read start count (some (d.stick.read start count))] }
  | readFailed (start count : Nat) : d.Answers (.read start count) none
      { d with past := d.past ++ [.read start count none] }
  | write (sec : Nat) (data : List UInt8) (h : data.length = ufsSector) :
      d.Answers (.write sec data) (some [])
        { stick := d.stick.put sec data h, past := d.past ++ [.write sec data true] }
  | writeFailed (sec : Nat) (data left : List UInt8) (h : left.length = ufsSector) :
      d.Answers (.write sec data) none
        { stick := d.stick.put sec left h, past := d.past ++ [.write sec data false] }

/-- A run of a program on a drive. -/
abbrev Runs {α : Type} (d : Drive) (p : Io α) (d' : Drive) (a : α) : Prop :=
  Prog.Ends Drive.Answers d p d' a

end Ncmips.Usbfat
