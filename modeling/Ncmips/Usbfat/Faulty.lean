/-
The FAT reader's files once more, with what a transfer that fails leaves
in the buffer it was to fill.

The other model lets a failed transfer leave its buffer as it was. Here
it may have written anything there; the functions are those of
`usbfat.h` again, over such transfers.
-/
import Ncmips.Usbfat.Volume

namespace Ncmips.Usbfat.Faulty

/-- The buffer a transfer fills: `ufs_fatsec`, or a handle's `cbuf`. -/
inductive Dst
  | fatsec
  | cbuf

structure Transfer where
  start : Nat
  count : Nat
  dst : Dst

inductive Reply
  | done (data : List UInt8)
  /-- What is in the buffer then. -/
  | failed (left : List UInt8)

abbrev Io := Prog Transfer Reply

/-- 0 or -1, and the buffer. A stick that is lost is not asked. -/
def ufsSectors (s : Fs) (start count : Nat) (dst : Dst) (buf : List UInt8) :
    Io (Bool × List UInt8 × Fs) :=
  if s.lost then pure (false, buf, s)
  else do
    match ← .ask { start, count, dst } with
    | .failed left => pure (false, left, { s with lost := true })
    | .done data => pure (true, data, s)

def ufsFatNext (s : Fs) (c : Nat) : Io (Nat × Fs) :=
  let (sec, off) := fatPlace s.geo c
  if sec ≠ s.fatCached then do
    match ← ufsSectors s sec 1 .fatsec s.fatsec with
    | (false, fatsec, s) => pure (fatEnd, { s with fatsec })
    | (true, fatsec, s) =>
        pure (fatValue s.geo.fat32 fatsec off, { s with fatsec, fatCached := sec })
  else pure (fatValue s.geo.fat32 s.fatsec off, s)

/-- `while (f->clus_idx < idx)` -/
def skipClusters : (n : Nat) → Ufile → Fs → Io (Bool × Ufile × Fs)
  | 0, f, s => pure (true, f, s)
  | n + 1, f, s => do
      let (clus, s) ← ufsFatNext s f.clus
      let f := { f with clus, clusIdx := f.clusIdx + 1 }
      if ufsEoc clus then pure (false, f, s) else skipClusters n f s

def mergeClusters : (turns : Nat) → (c count : Nat) → Fs → Io (Nat × Fs)
  | 0, _, count, s => pure (count, s)
  | turns + 1, c, count, s =>
      if count < chunkSectors then do
        let (next, s) ← ufsFatNext s c
        if next ≠ u32 (c + 1) then pure (count, s)
        else mergeClusters turns (u32 (c + 1)) (count + s.geo.spc) s
      else pure (count, s)

def loadCluster (f : Ufile) (s : Fs) : Io (Bool × Ufile × Fs) := do
  let idx := f.pos / s.geo.clusBytes
  let f := if idx < f.clusIdx then { f with clus := f.first, clusIdx := 0 } else f
  match ← skipClusters (idx - f.clusIdx) f s with
  | (false, f, s) => pure (false, f, s)
  | (true, f, s) => pure (!ufsEoc f.clus, f, s)

/-- `ufs_load` from the handle's cluster on. -/
def loadChunk (f : Ufile) (secIn : Nat) (s : Fs) : Io (Bool × Ufile × Fs) := do
  let (count, s) ← mergeClusters chunkSectors f.clus (s.geo.spc - secIn) s
  let count := if count > chunkSectors then chunkSectors else count
  let count := if count > f.need then f.need else count
  match ← ufsSectors s (u32 (ufsClusSector s.geo f.clus + secIn)) count .cbuf f.cbuf with
  | (false, cbuf, s) => pure (false, { f with cbuf }, s)
  | (true, cbuf, s) =>
      pure (true, { f with cbuf, cstart := f.sectorPos, clen := count * ufsSector }, s)

def ufsLoad (f : Ufile) (s : Fs) : Io (Bool × Ufile × Fs) := do
  let secIn := f.pos % s.geo.clusBytes / ufsSector
  match ← loadCluster f s with
  | (false, f, s) => pure (false, f, s)
  | (true, f, s) => loadChunk f secIn s

/-- The load of a turn of `ufs_read`, if it needs one. -/
def fetch (f : Ufile) (s : Fs) : Io (Bool × Ufile × Fs) :=
  if f.outside then ufsLoad f s else pure (true, f, s)

def readLoop (len : Nat) : (turns : Nat) → List UInt8 → Ufile → Fs →
    Io (Option (List UInt8 × Ufile × Fs))
  | 0, _, _, _ => pure none
  | turns + 1, dst, f, s =>
      if dst.length < len then do
        let (ok, f, s) ← fetch f s
        if !ok then pure (some (dst, f, s))
        else
          let (got, f) := f.takeBuf (len - dst.length)
          readLoop len turns (dst ++ got) f s
      else pure (some (dst, f, s))

/-- The bytes that a read asks for. -/
def wanted (f : Ufile) (len : Nat) : Nat :=
  if len > sub32 f.size f.pos then sub32 f.size f.pos else len

def ufsRead (turns : Nat) (f : Ufile) (len : Nat) (s : Fs) :
    Io (Option (List UInt8 × Ufile × Fs)) :=
  readLoop (wanted f len) turns [] f s

-- =================================================================== a stick

/-- Which transfers fail, by number, and what they leave in their buffer. -/
abbrev Faults := Nat → Dst → Option (List UInt8)

/-- The stick's reply. -/
def reply (st : Stick) (faults : Faults) (t : Nat) (e : Transfer) : Reply :=
  match faults t e.dst with
  | none => .done (st.read e.start e.count)
  | some left => .failed left

/-- The result of a program from transfer `t` on, and the number of the
next. -/
def faced {α : Type} (st : Stick) (faults : Faults) (p : Io α) (t : Nat) : α × Nat :=
  p.evalAt (reply st faults) t

end Ncmips.Usbfat.Faulty
