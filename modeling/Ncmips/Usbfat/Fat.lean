/-
The FAT reader, `usbfat.h`: sectors, the FAT and mounting.

The functions are programs over sector transfers; whatever does them
(U-Boot's driver, the own READ(10) or `raw_read` of the system) answers
with the sectors or fails. The static variables are `Fs`. Unsigned
arithmetic is mod 2^32 (`u32`).
-/
import Ncmips.Lib.Bits
import Ncmips.Lib.Program

namespace Ncmips.Usbfat

open Bits (byteAt)

def u32 (n : Nat) : Nat := n % 2 ^ 32

/-- `a - b` in 32 bits. -/
def sub32 (a b : Nat) : Nat := u32 (a + (2 ^ 32 - b))

def ufsSector : Nat := 512
def chunkSectors : Nat := 128
def ufsDcache : Nat := 8

/-- A sector transfer. -/
inductive Req
  | read (start count : Nat)
  | write (sec : Nat) (data : List UInt8)

/-- Answers are the bytes, or `none` for an error. -/
abbrev Io := Prog Req (Option (List UInt8))

/-- The mounted volume. -/
structure Geo where
  fat32 : Bool := false
  spc : Nat := 0
  fatStart : Nat := 0
  rootStart : Nat := 0
  rootSectors : Nat := 0
  dataStart : Nat := 0
  rootClus : Nat := 0
  clusBytes : Nat := 0

structure Fs where
  geo : Geo := {}
  fatCached : Nat := 0xffffffff
  fatsec : List UInt8 := []
  lost : Bool := false
  /-- Recently used folders: path and first cluster. -/
  dcache : List (List UInt8 × Nat) := .replicate ufsDcache ([], 0)
  dcacheNext : Nat := 0

def le16 (p : List UInt8) (i : Nat) : Nat := (byteAt p i).toNat + (byteAt p (i + 1)).toNat * 2 ^ 8

def le32 (p : List UInt8) (i : Nat) : Nat := le16 p i + le16 p (i + 2) * 2 ^ 16

-- ================================================================ sectors

/-- A failed transfer marks the stick as lost. -/
def ufsSectors (s : Fs) (start count : Nat) : Io (Option (List UInt8) × Fs) :=
  if s.lost then pure (none, s)
  else do
    match ← .ask (.read start count) with
    | none => pure (none, { s with lost := true })
    | some data => pure (some data, s)

/-- 0, or -1. -/
def ufsWriteSector (sec : Nat) (data : List UInt8) : Io Bool := do
  let r ← .ask (.write sec data)
  pure r.isSome

-- ==================================================================== FAT

/-- End of chain, as `ufs_fat_next` tells it. -/
def fatEnd : Nat := 0x0fffffff

/-- The FAT sector with the entry of cluster `c`, and the place in it. -/
def fatPlace (g : Geo) (c : Nat) : Nat × Nat :=
  let off := if g.fat32 then u32 (c * 4) else u32 (c * 2)
  (u32 (g.fatStart + off / ufsSector), off % ufsSector)

/-- The value of an entry, all that mean the end made one. -/
def fatValue (fat32 : Bool) (fatsec : List UInt8) (off : Nat) : Nat :=
  if fat32 then
    let v := le32 fatsec off % 2 ^ 28
    if v ≥ 0x0ffffff8 then fatEnd else v
  else
    let v := le16 fatsec off
    if v ≥ 0xfff8 then fatEnd else v

def ufsFatNext (s : Fs) (c : Nat) : Io (Nat × Fs) :=
  let (sec, off) := fatPlace s.geo c
  if sec ≠ s.fatCached then do
    match ← ufsSectors s sec 1 with
    | (none, s) => pure (fatEnd, s)
    | (some data, s) =>
        pure (fatValue s.geo.fat32 data off, { s with fatsec := data, fatCached := sec })
  else pure (fatValue s.geo.fat32 s.fatsec off, s)

def ufsEoc (c : Nat) : Bool := c < 2 ∨ c ≥ 0x0ffffff0

def ufsClusSector (g : Geo) (c : Nat) : Nat := u32 (g.dataStart + u32 (sub32 c 2 * g.spc))

-- ================================================================== mount

/-- Sector 0 is a FAT boot sector already, without a partition table. -/
def superfloppy (b : List UInt8) : Bool :=
  (byteAt b 0 = 0xeb ∨ byteAt b 0 = 0xe9) ∧ le16 b 11 = ufsSector
    ∧ ((b.drop 0x36).take 3 = [0x46, 0x41, 0x54] ∨ (b.drop 0x52).take 3 = [0x46, 0x41, 0x54])

/-- Start of the first FAT partition of a partition table. -/
def fatPartition (b : List UInt8) : Option Nat :=
  (List.range 4).findSome? fun i =>
    let e := 0x1be + 16 * i
    if (byteAt b (e + 4)).toNat ∈ [0x01, 0x04, 0x06, 0x0b, 0x0c, 0x0e] then some (le32 b (e + 8))
    else none

/-- The volume that boot sector `b` at sector `part` describes, but for
the FAT's kind, and its number of clusters. -/
def bootGeo (b : List UInt8) (part : Nat) : Geo × Nat :=
  let spc := (byteAt b 13).toNat
  let rsvd := le16 b 14
  let nfats := (byteAt b 16).toNat
  let rootents := le16 b 17
  let totsec := if le16 b 19 ≠ 0 then le16 b 19 else le32 b 32
  let fatsz := if le16 b 22 ≠ 0 then le16 b 22 else le32 b 36
  let fatStart := u32 (part + rsvd)
  let rootStart := u32 (fatStart + u32 (nfats * fatsz))
  let rootSectors := (rootents * 32 + ufsSector - 1) / ufsSector
  let dataStart := u32 (rootStart + rootSectors)
  ({ spc, fatStart, rootStart, rootSectors, dataStart, rootClus := le32 b 44
     clusBytes := spc * ufsSector },
    sub32 totsec (sub32 dataStart part) / spc)

/-- From the boot sector on: `false` is -1. -/
def mountBoot (s : Fs) (b : List UInt8) (part : Nat) : Bool × Fs :=
  if le16 b 11 ≠ ufsSector ∨ byteAt b 13 = 0 then (false, s)
  else
    let (geo, clusters) := bootGeo b part
    if clusters < 4085 then (false, { s with geo := { geo with fat32 := s.geo.fat32 } })
    else
      (true,
        { s with
          geo := { geo with fat32 := decide (clusters ≥ 65525) }
          dcache := .replicate ufsDcache ([], 0) })

/-- `ufs_mount`, once a device is there. -/
def ufsMount (s : Fs) : Io (Bool × Fs) := do
  match ← ufsSectors s 0 1 with
  | (none, s) => pure (false, s)
  | (some b, s) =>
      if byteAt b 510 ≠ 0x55 ∨ byteAt b 511 ≠ 0xaa then pure (false, s)
      else if superfloppy b then pure (mountBoot s b 0)
      else
        match fatPartition b with
        | none => pure (false, s)
        | some part => do
            match ← ufsSectors s part 1 with
            | (none, s) => pure (false, s)
            | (some b, s) => pure (mountBoot s b part)

end Ncmips.Usbfat
