/-
What a VFAT directory says, without the reader: its 32-byte slots, in the
order of its sectors, and the files and folders that they hold.
-/
import Ncmips.Usbfat.Volume

namespace Ncmips.Usbfat

open Bits (byteAt)

-- ================================================================== names

/-- An 8.3 name, without the padding. -/
structure ShortName where
  base : List UInt8
  ext : List UInt8
  base_ne : base ≠ []
  base_le : base.length ≤ 8
  ext_le : ext.length ≤ 3
  /-- No spaces and no NUL. -/
  plain : ∀ b ∈ base ++ ext, b ≠ 0x20 ∧ b ≠ 0
  /-- 0xe5 is kept as 0x05, which does not begin a name itself. -/
  kept : base.head? ≠ some 0x05
  nodot : base.head? ≠ some 0x2e

namespace ShortName

/-- The name as it is shown. -/
def text (n : ShortName) : List UInt8 := n.base ++ if n.ext = [] then [] else 0x2e :: n.ext

/-- 0xe5 would mark a deleted entry. -/
def stored (n : ShortName) : List UInt8 :=
  if n.base.head? = some 0xe5 then 0x05 :: n.base.tail else n.base

def pad (len : Nat) (bs : List UInt8) : List UInt8 := bs ++ .replicate (len - bs.length) 0x20

/-- The name field of an entry. -/
def field (n : ShortName) : List UInt8 := pad 8 n.stored ++ pad 3 n.ext

end ShortName

/-- A long name: its 16-bit characters, up to 20 parts of 13. -/
structure LongName where
  chars : List UInt16
  chars_ne : chars ≠ []
  chars_le : chars.length ≤ 260
  nonzero : 0 ∉ chars

namespace LongName

/-- The name as it is shown: '?' for what is not ASCII, at most 255
characters. -/
def text (n : LongName) : List UInt8 :=
  (n.chars.take 255).map fun ch => if ch < 128 then ch.toUInt8 else 0x3f

def parts (n : LongName) : Nat := (n.chars.length + 12) / 13

/-- What follows the name in its last part: a 0, then 0xffff. -/
def char (n : LongName) (i : Nat) : Nat :=
  if i < n.chars.length then (n.chars.getD i 0).toNat else if i = n.chars.length then 0 else 0xffff

/-- Slot `r` holds the thirteen characters from `13 * i` on. -/
structure Part (n : LongName) (i : Nat) (r : List UInt8) : Prop where
  number : byteAt r 0 = UInt8.ofNat (i + 1 + if i + 1 = n.parts then 0x40 else 0)
  attr : byteAt r 11 = 0x0f
  chars : lfnPos.map (le16 r) = (List.range 13).map fun k => n.char (13 * i + k)

/-- The slots hold the first `i` parts, backwards. -/
def Parts (n : LongName) : Nat → List (List UInt8) → Prop
  | 0, rs => rs = []
  | i + 1, rs => ∃ r rest, rs = r :: rest ∧ n.Part i r ∧ n.Parts i rest

end LongName

-- ================================================================= entries

/-- A file or folder as a directory has it. -/
structure Live where
  short : ShortName
  long : Option LongName
  attr : UInt8
  size : Nat
  first : Nat
  /-- Not a volume label, nor a part of a long name. -/
  unlabelled : attr &&& 0x08 = 0

def Live.text (l : Live) : List UInt8 :=
  match l.long with
  | some n => n.text
  | none => l.short.text

/-- The slot of a file or folder itself. -/
structure Live.In (l : Live) (fat32 : Bool) (r : List UInt8) : Prop where
  name : r.take 11 = l.short.field
  attr : byteAt r 11 = l.attr
  size : le32 r 28 = l.size
  first : (if fat32 then le16 r 20 * 2 ^ 16 else 0) + le16 r 26 = l.first

/-- A part of a long name, whole or not. -/
structure LongPart (r : List UInt8) : Prop where
  used : byteAt r 0 ≠ 0 ∧ byteAt r 0 ≠ 0xe5
  attr : byteAt r 11 = 0x0f

/-- What is no file or folder: deleted, a volume label, "." or "..". -/
inductive Unlisted (r : List UInt8) : Prop
  | deleted (h : byteAt r 0 = 0xe5)
  | label (h0 : byteAt r 0 ≠ 0) (hlong : byteAt r 11 ≠ 0x0f) (h : byteAt r 11 &&& 0x08 ≠ 0)
  | dot (hlong : byteAt r 11 ≠ 0x0f) (h : r.take 11 = ShortName.pad 11 [0x2e])
  | dotdot (hlong : byteAt r 11 ≠ 0x0f) (h : r.take 11 = ShortName.pad 11 [0x2e, 0x2e])

/-- The slots of a directory and what they hold. Parts of long names that
lost their entry may stand anywhere, but the last part (0x40) of one not
before an entry without a long name. -/
inductive Layout (fat32 : Bool) : List (List UInt8) → List Live → Prop
  /-- Full up to the last slot. -/
  | full {pre : List (List UInt8)} (hpre : ∀ r ∈ pre, LongPart r) : Layout fat32 pre []
  /-- The end marker; what follows does not count. -/
  | marker {pre : List (List UInt8)} {r : List UInt8} (rest : List (List UInt8))
      (hpre : ∀ r ∈ pre, LongPart r) (hr : byteAt r 0 = 0) : Layout fat32 (pre ++ r :: rest) []
  | unlisted {pre rest : List (List UInt8)} {r : List UInt8} {ls : List Live}
      (hpre : ∀ r ∈ pre, LongPart r) (hr : Unlisted r) (hrest : Layout fat32 rest ls) :
      Layout fat32 (pre ++ r :: rest) ls
  | short {pre rest : List (List UInt8)} {r : List UInt8} {l : Live} {ls : List Live}
      (hpre : ∀ r ∈ pre, LongPart r ∧ byteAt r 0 &&& 0x40 = 0) (hlong : l.long = none)
      (hr : l.In fat32 r) (hrest : Layout fat32 rest ls) :
      Layout fat32 (pre ++ r :: rest) (l :: ls)
  | long {pre parts rest : List (List UInt8)} {r : List UInt8} {l : Live} {n : LongName}
      {ls : List Live} (hpre : ∀ r ∈ pre, LongPart r) (hlong : l.long = some n)
      (hparts : n.Parts n.parts parts) (hr : l.In fat32 r) (hrest : Layout fat32 rest ls) :
      Layout fat32 (pre ++ parts ++ r :: rest) (l :: ls)

-- ================================================================== sectors

namespace Volume

variable (v : Volume) (st : Stick)

/-- Sector `i` of a directory; `c` 0 is the FAT16 root region. -/
def dirSector (c i : Nat) : List UInt8 :=
  if c = 0 then st.sector (v.part + v.rsvd + v.nfats * v.fatsz + i)
  else st.sector (v.dataStart + (v.chain st c (i / v.spc) - 2) * v.spc + i % v.spc)

def dirSlot (c m : Nat) : List UInt8 := ((v.dirSector st c (m / 16)).drop (32 * (m % 16))).take 32

/-- The slots of the first `n` sectors. -/
def dirSlots (c n : Nat) : List (List UInt8) := (List.range (16 * n)).map (v.dirSlot st c)

end Volume

-- ================================================================= listings

/-- `while (ufs_readdir (&d, &e))`: the entries that the calls return. -/
def readdirAll (turns : Nat) : (calls : Nat) → Udir → Udirent → Fs → Io (Option (List Udirent × Fs))
  | 0, _, _, _ => pure none
  | calls + 1, d, e, s => do
      match ← ufsReaddir turns d e s with
      | none => pure none
      | some r =>
          if r.found then
            match ← readdirAll turns calls r.d r.e r.s with
            | none => pure none
            | some (es, s) => pure (some (r.e :: es, s))
          else pure (some ([], r.s))

/-- The C string at the start of a buffer. -/
def Holds (name : Nat → UInt8) (text : List UInt8) : Prop :=
  (∀ i < text.length, name i = byteAt text i ∧ byteAt text i ≠ 0) ∧ name text.length = 0

end Ncmips.Usbfat
