/-
What a FAT16 or FAT32 volume says, without the reader: where its regions
are, what follows a cluster, what a file's bytes are. No arithmetic here
wraps and nothing is cached.
-/
import Ncmips.Usbfat.File

namespace Ncmips.Usbfat

open Bits (byteAt)

/-- The sectors of a stick. -/
structure Stick where
  sector : Nat → List UInt8
  length : ∀ i, (sector i).length = ufsSector

/-- `count` sectors from `start` on. -/
def Stick.read (st : Stick) (start count : Nat) : List UInt8 :=
  ((List.range count).map fun i => st.sector (start + i)).flatten

/-- The numbers in a boot sector, and where it is. -/
structure Volume where
  part : Nat
  spc : Nat
  rsvd : Nat
  nfats : Nat
  rootents : Nat
  totsec : Nat
  fatsz : Nat
  rootClus : Nat

namespace Volume

variable (v : Volume)

def rootSectors : Nat := (v.rootents * 32 + ufsSector - 1) / ufsSector

/-- Sectors before the clusters. -/
def overhead : Nat := v.rsvd + v.nfats * v.fatsz + v.rootSectors

def fatStart : Nat := v.part + v.rsvd

def dataStart : Nat := v.part + v.overhead

def clusters : Nat := (v.totsec - v.overhead) / v.spc

def fat32 : Bool := v.clusters ≥ 65525

def clusBytes : Nat := v.spc * ufsSector

/-- Bytes of a FAT entry. -/
def width : Nat := if v.fat32 then 4 else 2

/-- What a boot sector says. -/
structure Boot (b : List UInt8) : Prop where
  sectorSize : le16 b 11 = ufsSector
  spc : (byteAt b 13).toNat = v.spc
  rsvd : le16 b 14 = v.rsvd
  nfats : (byteAt b 16).toNat = v.nfats
  rootents : le16 b 17 = v.rootents
  totsec : (if le16 b 19 ≠ 0 then le16 b 19 else le32 b 32) = v.totsec
  fatsz : (if le16 b 22 ≠ 0 then le16 b 22 else le32 b 36) = v.fatsz
  rootClus : le32 b 44 = v.rootClus

/-- The regions fit in each other: the volume in 32-bit sector numbers, the
FATs and the root before the clusters, an entry for each cluster in a FAT.
Fewer clusters are FAT12. -/
structure WellFormed : Prop where
  spc : 0 < v.spc
  fits : v.part + v.totsec ≤ 2 ^ 32
  regions : v.overhead ≤ v.totsec
  clusters : 4085 ≤ v.clusters
  fats : 0 < v.nfats
  fat : (v.clusters + 2) * v.width ≤ v.fatsz * ufsSector

/-- The partition types of FAT volumes. -/
def fatTypes : List Nat := [0x01, 0x04, 0x06, 0x0b, 0x0c, 0x0e]

/-- The stick holds the volume, with or without a partition table. -/
inductive On (st : Stick) : Prop
  | floppy (hpart : v.part = 0) (hsign : superfloppy (st.sector 0) = true)
      (h55 : byteAt (st.sector 0) 510 = 0x55) (haa : byteAt (st.sector 0) 511 = 0xaa)
      (hboot : v.Boot (st.sector 0))
  | partition (hsign : superfloppy (st.sector 0) = false)
      (h55 : byteAt (st.sector 0) 510 = 0x55) (haa : byteAt (st.sector 0) 511 = 0xaa)
      (i : Nat) (hi : i < 4) (htype : (byteAt (st.sector 0) (0x1be + 16 * i + 4)).toNat ∈ fatTypes)
      (hpart : le32 (st.sector 0) (0x1be + 16 * i + 8) = v.part)
      (hfirst : ∀ j < i, (byteAt (st.sector 0) (0x1be + 16 * j + 4)).toNat ∉ fatTypes)
      (hboot : v.Boot (st.sector v.part))

-- =================================================================== files

variable (st : Stick)

/-- The FAT entry of a cluster. -/
def entry (c : Nat) : Nat :=
  let sec := st.sector (v.fatStart + c * v.width / ufsSector)
  if v.fat32 then le32 sec (c * v.width % ufsSector) % 2 ^ 28 else le16 sec (c * v.width % ufsSector)

/-- The clusters of a file, from its first on. -/
def chain (first : Nat) : Nat → Nat
  | 0 => first
  | k + 1 => v.entry st (chain first k)

/-- A file's byte `i`. -/
def fileByte (first i : Nat) : UInt8 :=
  byteAt
    (st.sector (v.dataStart + (v.chain st first (i / v.clusBytes) - 2) * v.spc
      + i % v.clusBytes / ufsSector))
    (i % ufsSector)

/-- `n` of a file's bytes, from `pos` on. -/
def fileBytes (first pos n : Nat) : List UInt8 :=
  (List.range n).map fun i => v.fileByte st first (pos + i)

/-- A file: its chain goes on as long as the file does, over clusters that
there are (the FAT keeps numbers from 0x0ffffff0 on for other uses). -/
structure HasFile (first size : Nat) : Prop where
  small : size ≤ 2 ^ 32 - ufsSector
  chain : ∀ k, k * v.clusBytes < size → 2 ≤ v.chain st first k
    ∧ v.chain st first k < v.clusters + 2 ∧ v.chain st first k < 0x0ffffff0

end Volume

end Ncmips.Usbfat
