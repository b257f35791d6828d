/-
The tags of MP3 files, `id3v2_parse` of the music player and what it
hands its frames to.

A tag is its bytes by their offset, each a read. `malloc` either has the
room for a picture or not.
-/
import Ncmips.Midi.Smf

namespace Ncmips.Music

open Words Midi

def tagLen : Nat := 80

structure Song where
  title : List Nat := []
  artist : List Nat := []
  album : List Nat := []
  year : List Nat := []
  pic : Option (List Nat) := none
  /-- The ranges handed to `id3_text` and `id3_picture`, offset and length. -/
  passed : List (Nat × Nat) := []
  /-- The ranges that `id3_picture` copied, each with the one it was handed. -/
  copied : List ((Nat × Nat) × (Nat × Nat)) := []

abbrev Tagged := Prog.Turns Nat UInt8 Song

/-- Chunk and frame names compare as lists. -/
scoped instance lawful_cells : LawfulBEq (List Nat) := inferInstance

-- ==================================================================== text

/-- As it is shown. -/
def asciiOf (c : Nat) : Nat := if 32 ≤ c ∧ c < 127 then c else 0x3f

/-- Without the blanks at its end. -/
def trimEnd (dst : List Nat) : List Nat := (dst.reverse.dropWhile (· = 0x20)).reverse

/-- UTF-16, from the `i`-th byte on. -/
def textWide (be : Bool) (size p len : Nat) (i : Nat) (dst : List Nat) : Rd (List Nat) :=
  if i + 1 < len ∧ dst.length < size - 1 then do
    let b0 ← byteOf (u32 (p + i))
    let b1 ← byteOf (u32 (p + (i + 1)))
    let c := if be then b0 * 2 ^ 8 + b1 else b0 + b1 * 2 ^ 8
    if c = 0 then pure dst
    else if 0xdc00 ≤ c ∧ c < 0xe000 then textWide be size p len (i + 2) dst
    else textWide be size p len (i + 2) (dst ++ [asciiOf c])
  else pure dst
termination_by len - i

/-- Latin-1 or UTF-8. -/
def textBytes (enc size p len : Nat) (i : Nat) (dst : List Nat) : Rd (List Nat) :=
  if i < len ∧ dst.length < size - 1 then do
    let c ← byteOf (u32 (p + i))
    if c = 0 then pure dst
    else if enc = 3 ∧ c / 2 ^ 6 = 2 then textBytes enc size p len (i + 1) dst
    else textBytes enc size p len (i + 1) (dst ++ [asciiOf c])
  else pure dst
termination_by len - i

/-- The byte order of UTF-16 text, and where it starts. -/
def byteOrder (enc p len : Nat) : Rd (Bool × Nat) :=
  if enc = 1 ∧ len ≥ 2 then do
    let b0 ← byteOf p
    let b1 ← byteOf (u32 (p + 1))
    pure (!(b0 = 0xff && b1 = 0xfe : Bool), if (b0 = 0xff ∧ b1 = 0xfe) ∨ (b0 = 0xfe ∧ b1 = 0xff) then 2 else 0)
  else pure (true, 0)

/-- What is in `dst` afterwards, of `size` characters. -/
def id3Text (size p len : Nat) (dst : List Nat) : Rd (List Nat) :=
  if len < 1 then pure dst
  else do
    let enc ← byteOf p
    let p := u32 (p + 1)
    let len := len - 1
    if enc = 1 ∨ enc = 2 then do
      let (be, i) ← byteOrder enc p len
      trimEnd <$> textWide be size p len i []
    else trimEnd <$> textBytes enc size p len 0 []

-- ================================================================= pictures

/-- `while (i < len && p[i]) i++` -/
def skipBytes (p len i : Nat) : Rd Nat :=
  if i < len then do
    let b ← byteOf (u32 (p + i))
    if b ≠ 0 then skipBytes p len (i + 1) else pure i
  else pure i
termination_by len - i

/-- Two bytes at a time. -/
def skipWide (p len i : Nat) : Rd Nat :=
  if i + 1 < len then do
    let b0 ← byteOf (u32 (p + i))
    let b1 ← byteOf (u32 (p + (i + 1)))
    if b0 ≠ 0 ∨ b1 ≠ 0 then skipWide p len (i + 2) else pure i
  else pure i
termination_by len - i

variable (alloc : Nat → Bool)

/-- Where a picture's data starts, after its format, type and description. -/
def pictureStart (p len : Nat) (v22 : Bool) : Rd Nat := do
  let enc ← byteOf p
  let i ← if v22 then pure 4 else (fun i => u32 (i + 1)) <$> skipBytes p len 1
  let i := u32 (i + 1)
  if enc = 1 ∨ enc = 2 then (fun i => u32 (i + 2)) <$> skipWide p len i
  else (fun i => u32 (i + 1)) <$> skipBytes p len i

def id3Picture (p len : Nat) (v22 : Bool) (s : Song) : Rd Song :=
  if s.pic.isSome ∨ len < 4 then pure s
  else do
    let i ← pictureStart p len v22
    if i ≥ len then pure s
    else if alloc (len - i) then do
      let data ← bytesOf (u32 (p + i)) (len - i)
      pure { s with pic := some data, copied := s.copied ++ [((p, len), (u32 (p + i), len - i))] }
    else pure s

-- =================================================================== frames

def syncsafe (p : Nat) : Rd Nat := do
  let b0 ← byteOf p
  let b1 ← byteOf (u32 (p + 1))
  let b2 ← byteOf (u32 (p + 2))
  let b3 ← byteOf (u32 (p + 3))
  pure (b0 % 128 * 2 ^ 21 + b1 % 128 * 2 ^ 14 + b2 % 128 * 2 ^ 7 + b3 % 128)

/-- Three bytes, the length of a frame of version 2. -/
def be24 (p : Nat) : Rd Nat := do
  let b0 ← byteOf p
  let b1 ← byteOf (u32 (p + 1))
  let b2 ← byteOf (u32 (p + 2))
  pure (b0 * 2 ^ 16 + b1 * 2 ^ 8 + b2)

/-- The text and picture frames' identifiers: title, artist, album, years,
picture. -/
structure FrameIds where
  title : List Nat
  artist : List Nat
  album : List Nat
  years : List (List Nat)
  picture : List Nat

/-- `"TT2"`, `"TP1"`, `"TAL"`, `"TYE"`, `"PIC"` -/
def ids22 : FrameIds where
  title := [0x54, 0x54, 0x32]
  artist := [0x54, 0x50, 0x31]
  album := [0x54, 0x41, 0x4c]
  years := [[0x54, 0x59, 0x45]]
  picture := [0x50, 0x49, 0x43]

/-- `"TIT2"`, `"TPE1"`, `"TALB"`, `"TYER"` or `"TDRC"`, `"APIC"` -/
def ids23 : FrameIds where
  title := [0x54, 0x49, 0x54, 0x32]
  artist := [0x54, 0x50, 0x45, 0x31]
  album := [0x54, 0x41, 0x4c, 0x42]
  years := [[0x54, 0x59, 0x45, 0x52], [0x54, 0x44, 0x52, 0x43]]
  picture := [0x41, 0x50, 0x49, 0x43]

def Song.hand (s : Song) (p len : Nat) : Song := { s with passed := s.passed ++ [(p, len)] }

/-- What a frame with an identifier does, its `fs` bytes at `f`. -/
def frame (ids : FrameIds) (v22 : Bool) (id : List Nat) (f fs : Nat) (s : Song) : Rd Song :=
  if id = ids.title ∧ s.title = [] then do
    let t ← id3Text tagLen f fs s.title
    pure { s.hand f fs with title := t }
  else if id = ids.artist ∧ s.artist = [] then do
    let t ← id3Text tagLen f fs s.artist
    pure { s.hand f fs with artist := t }
  else if id = ids.album ∧ s.album = [] then do
    let t ← id3Text tagLen f fs s.album
    pure { s.hand f fs with album := t }
  else if id ∈ ids.years ∧ s.year = [] then do
    let t ← id3Text 5 f fs s.year
    pure { s.hand f fs with year := t }
  else if id = ids.picture then id3Picture alloc f fs v22 (s.hand f fs)
  else pure s

/-- A frame's length. -/
def frameSize (ver pos : Nat) : Rd Nat :=
  if ver = 2 then be24 (u32 (pos + 3))
  else if ver = 4 then syncsafe (u32 (pos + 4))
  else be32 (u32 (pos + 4))

def frameHdr (ver : Nat) : Nat := if ver = 2 then 6 else 10

/-- `while (pos + 10 <= end)` -/
def frameLoop (ver fin : Nat) : (turns : Nat) → (pos : Nat) → Song → Tagged Song
  | 0, _, s => throw s
  | turns + 1, pos, s =>
      if u32 (pos + 10) ≤ fin then do
        let b ← byteOf pos
        if b = 0 then pure s
        else
          let fs ← frameSize ver pos
          if fs > sub32 (sub32 fin pos) (frameHdr ver) then pure s
          else do
            let f := u32 (pos + frameHdr ver)
            let s ←
              if ver = 2 then do
                let id ← bytesOf pos 3
                frame alloc ids22 true id f fs s
              else do
                let id ← bytesOf pos 4
                frame alloc ids23 false id f fs s
            frameLoop ver fin turns (u32 (pos + u32 (frameHdr ver + fs))) s
      else pure s

/-- Where the frames start, after an extended header. -/
def framesStart (ver flags : Nat) : Rd Nat :=
  if ver ≥ 3 ∧ flags / 2 ^ 6 % 2 = 1 then
    if ver = 4 then (fun n => u32 (10 + n)) <$> syncsafe 10
    else (fun n => u32 (10 + u32 (n + 4))) <$> be32 10
  else pure 10

/-- `id3v2_parse`, for a tag of `size` bytes. -/
def id3v2Parse (turns size : Nat) (s : Song) : Tagged Song := do
  let ver ← byteOf 3
  let flags ← byteOf 5
  -- unsynchronised: skip
  if flags / 2 ^ 7 % 2 = 1 then pure s
  else
    let pos ← framesStart ver flags
    frameLoop alloc ver size turns pos s

end Ncmips.Music
