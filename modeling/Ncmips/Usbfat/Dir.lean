/-
The FAT reader, `usbfat.h`: names, folders and the folder cache.

A path is its bytes, up to the terminating 0. Loops over folders run as
long as the stick says; they take a number of turns, and `none` says that
it did not suffice.
-/
import Ncmips.Usbfat.Fat

namespace Ncmips.Usbfat

open Bits (byteAt)

-- ================================================================== names

def ufsLower (c : UInt8) : UInt8 := if 0x41 ≤ c ∧ c ≤ 0x5a then c + 32 else c

/-- `a` is a C string: its bytes from a place on. -/
def ufsNameEq (a : Nat → UInt8) (b : List UInt8) (blen : Nat) : Bool :=
  (List.range blen).all (fun i => a i ≠ 0 ∧ ufsLower (a i) = ufsLower (byteAt b i)) ∧ a blen = 0

-- ================================================================ folders

def attrDir : UInt8 := 0x10
def nameMax : Nat := 256
def dirSectors : Nat := 16

/-- A folder being read; `clus` 0 is the FAT16 root region. -/
structure Udir where
  clus : Nat
  secIdx : Nat := 0
  ent : Nat := 0
  nent : Nat := 0
  done : Bool := false
  buf : List UInt8 := []

structure Udirent where
  name : Nat → UInt8
  attr : UInt8 := 0
  size : Nat := 0
  first : Nat := 0
  isDir : Bool := false

/-- The next raw entry from the buffer. -/
def Udir.take (d : Udir) : List UInt8 × Udir :=
  ((d.buf.drop (32 * d.ent)).take 32, { d with ent := d.ent + 1 })

/-- Reads the next sectors, `n` from `sec` on, and takes the first entry. -/
def dirLoad (d : Udir) (s : Fs) (sec n : Nat) : Io (Option (List UInt8) × Udir × Fs) := do
  let n := if n > dirSectors then dirSectors else n
  let d := { d with secIdx := d.secIdx + n }
  match ← ufsSectors s sec n with
  | (none, s) => pure (none, { d with done := true }, s)
  | (some buf, s) =>
      let (r, d) := { d with buf, ent := 0, nent := n * (ufsSector / 32) }.take
      pure (some r, d, s)

/-- Next raw 32-byte entry, or `none` at the end of the directory. -/
def ufsDirRaw (d : Udir) (s : Fs) : Io (Option (List UInt8) × Udir × Fs) :=
  if d.done then pure (none, d, s)
  else if d.ent = d.nent then
    if d.clus = 0 then
      if d.secIdx = s.geo.rootSectors then pure (none, { d with done := true }, s)
      else dirLoad d s (u32 (s.geo.rootStart + d.secIdx)) (s.geo.rootSectors - d.secIdx)
    else do
      let (d, s) ←
        if d.secIdx = s.geo.spc then do
          let (clus, s) ← ufsFatNext s d.clus
          pure ({ d with clus, secIdx := 0 }, s)
        else pure (d, s)
      if ufsEoc d.clus then pure (none, { d with done := true }, s)
      else dirLoad d s (u32 (ufsClusSector s.geo d.clus + d.secIdx)) (s.geo.spc - d.secIdx)
  else
    let (r, d) := d.take
    pure (some r, d, s)

def lfnPos : List Nat := [1, 3, 5, 7, 9, 14, 16, 18, 20, 22, 24, 28, 30]

/-- Writes bytes into the name from place `i` on. -/
def putName (name : Nat → UInt8) (i : Nat) (bs : List UInt8) : Nat → UInt8 :=
  fun j => if i ≤ j ∧ j < i + bs.length then byteAt bs (j - i) else name j

/-- Characters of a long name part, from place `i` of the name on. -/
def putLfn (r : List UInt8) : List Nat → Nat → (Nat → UInt8) → Nat → UInt8
  | [], _, name => name
  | p :: ps, i, name =>
      if i < nameMax - 1 then
        let ch := le16 r p
        if ch = 0 then putName name i [0]
        else putLfn r ps (i + 1) (putName name i [if ch < 128 then UInt8.ofNat ch else 0x3f])
      else name

/-- The 8.3 name of an entry. -/
def shortName (r : List UInt8) : List UInt8 :=
  let base := (r.take 8).takeWhile (· ≠ 0x20)
  let base := if byteAt base 0 = 0x05 then 0xe5 :: base.tail else base
  let ext := ((r.drop 8).take 3).takeWhile (· ≠ 0x20)
  base ++ if byteAt r 8 ≠ 0x20 then 0x2e :: ext else []

/-- What one raw entry does to the scan. -/
inductive Turn
  /-- The end marker. -/
  | stop
  | skip (e : Udirent) (lfnOk : Bool)
  /-- A file or folder. -/
  | entry (e : Udirent)

def dirTurn (fat32 : Bool) (r : List UInt8) (e : Udirent) (lfnOk : Bool) : Turn :=
  if byteAt r 0 = 0 then .stop
  else if byteAt r 0 = 0xe5 then .skip e false
  else if byteAt r 11 = 0x0f then
    -- a part of a long name
    let seq : Int := (byteAt r 0 &&& 0x1f).toNat - 1
    if seq < 0 ∨ seq ≥ 20 then .skip e false
    else
      let seq := seq.toNat
      let last : Bool := byteAt r 0 &&& 0x40 ≠ 0
      let fin := (seq + 1) * 13
      let name :=
        if last then putName e.name (if fin < nameMax - 1 then fin else nameMax - 1) [0] else e.name
      .skip { e with name := putLfn r lfnPos (seq * 13) name } (lfnOk || last)
  else if byteAt r 11 &&& 0x08 ≠ 0 then .skip e false
  else if byteAt r 0 = 0x2e ∧ (byteAt r 1 = 0x20 ∨ (byteAt r 1 = 0x2e ∧ byteAt r 2 = 0x20)) then
    .skip e false
  else
    .entry
      { name := if lfnOk then e.name else putName e.name 0 (shortName r ++ [0])
        attr := byteAt r 11
        isDir := byteAt r 11 &&& attrDir ≠ 0
        size := le32 r 28
        first := (if fat32 then le16 r 20 * 2 ^ 16 else 0) + le16 r 26 }

/-- What a loop over a folder comes to. -/
structure Scan where
  /-- `readdir` returned 1, or the name was found. -/
  found : Bool
  d : Udir
  e : Udirent
  s : Fs

/-- Next file or folder: a turn for each raw entry. -/
def readdirLoop : (turns : Nat) → Udir → Udirent → Bool → Fs → Io (Option Scan)
  | 0, _, _, _, _ => pure none
  | turns + 1, d, e, lfnOk, s => do
      match ← ufsDirRaw d s with
      | (none, d, s) => pure (some { found := false, d, e, s })
      | (some r, d, s) =>
          match dirTurn s.geo.fat32 r e lfnOk with
          | .stop => pure (some { found := false, d := { d with done := true }, e, s })
          | .skip e lfnOk => readdirLoop turns d e lfnOk s
          | .entry e => pure (some { found := true, d, e, s })

def ufsReaddir (turns : Nat) (d : Udir) (e : Udirent) (s : Fs) : Io (Option Scan) :=
  readdirLoop turns d e false s

-- ================================================================= lookup

/-- Remembers a folder: the first `len` bytes of `path`. -/
def ufsDcachePut (s : Fs) (path : List UInt8) (len clus : Nat) : Fs :=
  if len = 0 ∨ len ≥ 128 then s
  else if s.dcache.any fun c => ufsNameEq (byteAt c.1) path len then s
  else
    { s with
      dcache := s.dcache.set s.dcacheNext (path.take len, clus)
      dcacheNext := (s.dcacheNext + 1) % ufsDcache }

/-- Longest cached folder that is a whole-component prefix of the path:
its length and cluster, or 0 and `clus`. -/
def ufsDcacheGet (s : Fs) (path : List UInt8) (clus : Nat) : Nat × Nat :=
  s.dcache.foldl
    (fun best c =>
      let len := c.1.length
      if len > best.1 ∧ (byteAt path len = 0x2f ∨ byteAt path len = 0)
          ∧ ufsNameEq (byteAt c.1) path len then (len, c.2)
      else best)
    (0, clus)

def skipSlashes (path : List UInt8) : List UInt8 := path.dropWhile (· = 0x2f)

/-- `while (ufs_readdir (&d, e))`: looks for a name, the first `len`
bytes of `path`. -/
def findLoop (turns : Nat) (path : List UInt8) (len : Nat) :
    (calls : Nat) → Udir → Udirent → Fs → Io (Option Scan)
  | 0, _, _, _ => pure none
  | calls + 1, d, e, s => do
      match ← ufsReaddir turns d e s with
      | none => pure none
      | some r =>
          if r.found then
            if ufsNameEq r.e.name path len then pure (some r)
            else findLoop turns path len calls r.d r.e r.s
          else pure (some r)

/-- What `ufs_lookup` returns: 0 or -1, and the entry. -/
structure Lookup where
  ok : Bool
  e : Udirent
  s : Fs

def rootOf (g : Geo) : Nat := if g.fat32 then g.rootClus else 0

theorem skipSlashes_length (path : List UInt8) : (skipSlashes path).length ≤ path.length :=
  List.length_dropWhile_le _ _

/-- A component, or the slashes before it, takes at least a byte. -/
theorem next_component_lt (b : UInt8) (bs : List UInt8) :
    (skipSlashes ((b :: bs).drop ((b :: bs).takeWhile (· ≠ 0x2f)).length)).length
      < (b :: bs).length := by
  by_cases hb : b = 0x2f
  · subst hb
    have hle := skipSlashes_length bs
    simp only [skipSlashes] at hle
    simp [skipSlashes]
    omega
  · have hle := skipSlashes_length (bs.drop (bs.takeWhile (· ≠ 0x2f)).length)
    rw [List.takeWhile_cons_of_pos (by simpa using hb)]
    simp only [List.length_cons, List.drop_succ_cons, List.length_drop] at hle ⊢
    omega

/-- The loop over the components of `path`, what is left of `full`. -/
def walkLoop (turns : Nat) (full : List UInt8) (path : List UInt8) (clus : Nat) (e : Udirent)
    (s : Fs) : Io (Option Lookup) :=
  match path with
  | [] => pure (some { ok := true, e, s })
  | b :: bs =>
      let len := ((b :: bs).takeWhile (· ≠ 0x2f)).length
      -- a file used as a folder
      if !e.isDir then pure (some { ok := false, e, s })
      else do
        match ← findLoop turns (b :: bs) len turns { clus } e s with
        | none => pure none
        | some r =>
            if !r.found then pure (some { ok := false, e := r.e, s := r.s })
            else
              -- ".." style link to root
              let clus := if r.e.isDir ∧ r.e.first = 0 then rootOf r.s.geo else r.e.first
              let s :=
                if r.e.isDir then ufsDcachePut r.s full (full.length - (b :: bs).length + len) clus
                else r.s
              walkLoop turns full (skipSlashes ((b :: bs).drop len)) clus r.e s
termination_by path.length
decreasing_by exact next_component_lt b bs

/-- Walks a path; `e` is the caller's, whose name buffer holds anything. -/
def ufsLookup (turns : Nat) (path : List UInt8) (e : Udirent) (s : Fs) : Io (Option Lookup) :=
  let clus := rootOf s.geo
  let path := skipSlashes path
  let e : Udirent :=
    { name := putName e.name 0 [0], attr := attrDir, size := 0, first := clus, isDir := true }
  let (skip, clus) := ufsDcacheGet s path clus
  if skip ≠ 0 then
    walkLoop turns path (skipSlashes (path.drop skip)) clus { e with first := clus } s
  else walkLoop turns path path clus e s

/-- A folder opened for `ufs_readdir`, or `none`. -/
def ufsOpendir (turns : Nat) (path : List UInt8) (e : Udirent) (s : Fs) :
    Io (Option (Option Udir × Fs)) := do
  match ← ufsLookup turns path e s with
  | none => pure none
  | some r =>
      if !r.ok ∨ !r.e.isDir then pure (some (none, r.s))
      else
        let first := if r.e.first = 0 ∧ r.s.geo.fat32 then r.s.geo.rootClus else r.e.first
        pure (some (some { clus := first }, r.s))

end Ncmips.Usbfat
