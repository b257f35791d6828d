/-
The FAT reader, `usbfat.h`: open files.
-/
import Ncmips.Usbfat.Dir

namespace Ncmips.Usbfat

open Bits (byteAt)

structure Ufile where
  size : Nat
  pos : Nat := 0
  first : Nat
  clus : Nat
  clusIdx : Nat := 0
  /-- The file bytes from `cstart` on, `clen` of them, are in `cbuf`. -/
  cstart : Nat := 0
  clen : Nat := 0
  cbuf : List UInt8 := []

/-- A file by path: `none` if not found or a folder. -/
def ufsOpen (turns : Nat) (path : List UInt8) (e : Udirent) (s : Fs) :
    Io (Option (Option Ufile × Fs)) := do
  match ← ufsLookup turns path e s with
  | none => pure none
  | some r =>
      if !r.ok ∨ r.e.isDir then pure (some (none, r.s))
      else pure (some (some { size := r.e.size, first := r.e.first, clus := r.e.first }, r.s))

/-- `while (f->clus_idx < idx)`: `n` clusters on, `false` at the end of
the chain. -/
def skipClusters : (n : Nat) → Ufile → Fs → Io (Bool × Ufile × Fs)
  | 0, f, s => pure (true, f, s)
  | n + 1, f, s => do
      let (clus, s) ← ufsFatNext s f.clus
      let f := { f with clus, clusIdx := f.clusIdx + 1 }
      if ufsEoc clus then pure (false, f, s) else skipClusters n f s

/-- Following clusters while contiguous, up to a full buffer; each adds
a sector at least. -/
def mergeClusters : (turns : Nat) → (c count : Nat) → Fs → Io (Nat × Fs)
  | 0, _, count, s => pure (count, s)
  | turns + 1, c, count, s =>
      if count < chunkSectors then do
        let (next, s) ← ufsFatNext s c
        if next ≠ u32 (c + 1) then pure (count, s)
        else mergeClusters turns (u32 (c + 1)) (count + s.geo.spc) s
      else pure (count, s)

/-- The cluster part of `ufs_load`: `false` at the end of the chain. -/
def loadCluster (f : Ufile) (s : Fs) : Io (Bool × Ufile × Fs) := do
  let idx := f.pos / s.geo.clusBytes
  let f := if idx < f.clusIdx then { f with clus := f.first, clusIdx := 0 } else f
  match ← skipClusters (idx - f.clusIdx) f s with
  | (false, f, s) => pure (false, f, s)
  | (true, f, s) => pure (!ufsEoc f.clus, f, s)

/-- `f->pos & ~(UFS_SECTOR - 1)` -/
def Ufile.sectorPos (f : Ufile) : Nat := f.pos / ufsSector * ufsSector

/-- Sectors up to the end of the file, in 32 bits. -/
def Ufile.need (f : Ufile) : Nat := u32 (sub32 f.size f.sectorPos + ufsSector - 1) / ufsSector

/-- Loads the chunk holding `pos`. `false` is -1. -/
def ufsLoad (f : Ufile) (s : Fs) : Io (Bool × Ufile × Fs) := do
  let secIn := f.pos % s.geo.clusBytes / ufsSector
  match ← loadCluster f s with
  | (false, f, s) => pure (false, f, s)
  | (true, f, s) => do
      let (count, s) ← mergeClusters chunkSectors f.clus (s.geo.spc - secIn) s
      let count := if count > chunkSectors then chunkSectors else count
      let count := if count > f.need then f.need else count
      match ← ufsSectors s (u32 (ufsClusSector s.geo f.clus + secIn)) count with
      | (none, s) => pure (false, f, s)
      | (some cbuf, s) =>
          pure (true, { f with cbuf, cstart := f.sectorPos, clen := count * ufsSector }, s)

def ufsSeek (f : Ufile) (pos : Nat) : Ufile := { f with pos := if pos < f.size then pos else f.size }

/-- `pos` is not in the buffer. -/
def Ufile.outside (f : Ufile) : Bool := f.pos < f.cstart ∨ f.pos ≥ u32 (f.cstart + f.clen)

/-- Takes up to `want` bytes out of the buffer. -/
def Ufile.takeBuf (f : Ufile) (want : Nat) : List UInt8 × Ufile :=
  let n := sub32 (u32 (f.cstart + f.clen)) f.pos
  let n := if n > want then want else n
  ((List.range n).map fun i => byteAt f.cbuf (sub32 f.pos f.cstart + i),
    { f with pos := u32 (f.pos + n) })

/-- `while (done < len)`; `none` when `turns` are not enough. -/
def readLoop (len : Nat) : (turns : Nat) → List UInt8 → Ufile → Fs →
    Io (Option (List UInt8 × Ufile × Fs))
  | 0, _, _, _ => pure none
  | turns + 1, dst, f, s =>
      if dst.length < len then do
        let (ok, f, s) ← if f.outside then ufsLoad f s else pure (true, f, s)
        if !ok then pure (some (dst, f, s))
        else
          let (got, f) := f.takeBuf (len - dst.length)
          readLoop len turns (dst ++ got) f s
      else pure (some (dst, f, s))

/-- What `ufs_read` puts into `dst`; the count it returns is the length. -/
def ufsRead (turns : Nat) (f : Ufile) (len : Nat) (s : Fs) :
    Io (Option (List UInt8 × Ufile × Fs)) :=
  readLoop (if len > sub32 f.size f.pos then sub32 f.size f.pos else len) turns [] f s

end Ncmips.Usbfat
