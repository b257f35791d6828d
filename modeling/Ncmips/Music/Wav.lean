/-
WAV files in the music player: the header, `open_wav` in
`apps/music/music.c`.

A file is its bytes by their offset, and its size; a read from the stream
gives all of the file that it asked for. The buffer of a LIST chunk is
read a byte at a time: which byte, of how many.
-/
import Mathlib
import Ncmips.Music.Tags

namespace Ncmips.Music

open Words

/-- A byte of the buffer that holds the file's `len` bytes from `base` on. -/
structure Cell where
  base : Nat
  len : Nat
  i : Nat

abbrev Buf := Prog Cell UInt8

/-- `struct song`, as far as WAV files go, with what playing them needs. -/
structure Wav where
  song : Song := {}
  fmt : Nat := 0
  dataStart : Nat := 0
  dataEnd : Nat := 0
  rate : Nat := 0
  chans : Nat := 0
  bits : Nat := 0
  bitrate : Nat := 0
  durationS : Nat := 0
  wavStep : Nat := 0

/-- A function of the header's parser, which may be cut short. -/
abbrev Header := Prog.Turns Cell UInt8 Wav

def cellOf (base len i : Nat) : Buf Nat := UInt8.toNat <$> (Prog.ask ⟨base, len, i⟩ : Buf UInt8)

/-- `n` bytes of the buffer from `i` on. -/
def cellsOf (base len i : Nat) : Nat → Buf (List Nat)
  | 0 => pure []
  | n + 1 => do
      let b ← cellOf base len i
      let bs ← cellsOf base len (u32 (i + 1)) n
      pure (b :: bs)

/-- A little-endian word. -/
def ofBytes : List Nat → Nat
  | [] => 0
  | b :: bs => b + 2 ^ 8 * ofBytes bs

def cellLe32 (base len i : Nat) : Buf Nat := ofBytes <$> cellsOf base len i 4

/-- `(n + 1) & ~1u` -/
def pad32 (n : Nat) : Nat := u32 (n + 1) / 2 * 2

/-- `"INAM"`, `"IART"`, `"IPRD"`, `"ICRD"`: the text for an item, of `n` bytes
after an encoding of 0. -/
def setItem (id bytes : List Nat) (s : Song) : Song :=
  let text (size : Nat) (dst : List Nat) : List Nat :=
    (id3Text size 0 (bytes.length + 1) dst).eval fun a => .ofNat ((0 :: bytes).getD a 0)
  if id = [0x49, 0x4e, 0x41, 0x4d] then { s with title := text tagLen s.title }
  else if id = [0x49, 0x41, 0x52, 0x54] then { s with artist := text tagLen s.artist }
  else if id = [0x49, 0x50, 0x52, 0x44] then { s with album := text tagLen s.album }
  else if id = [0x49, 0x43, 0x52, 0x44] then { s with year := text 5 s.year }
  else s

def itemIds : List (List Nat) :=
  [[0x49, 0x4e, 0x41, 0x4d], [0x49, 0x41, 0x52, 0x54], [0x49, 0x50, 0x52, 0x44],
    [0x49, 0x43, 0x52, 0x44]]

/-- `for (i = 4; i + 8 <= len;)` -/
def itemLoop (base len : Nat) : (turns : Nat) → (i : Nat) → Wav → Header Wav
  | 0, _, w => throw w
  | turns + 1, i, w =>
      if u32 (i + 8) ≤ len then do
        let sl ← cellLe32 base len (u32 (i + 4))
        let id ← cellsOf base len i 4
        if u32 (u32 (i + 8) + sl) > len then pure w
        else do
          let w ←
            if id ∈ itemIds then do
              let bytes ← cellsOf base len (u32 (i + 8)) (min sl tagLen)
              pure { w with song := setItem id bytes w.song }
            else pure w
          itemLoop base len turns (u32 (i + u32 (8 + pad32 sl))) w
      else pure w

-- ================================================================= the file

variable (file : Nat → UInt8) (size : Nat)

/-- What `sdk_read` at `pos` gives of `n` bytes: how many. -/
def readCount (pos n : Nat) : Nat := min n (size - pos)

/-- `n` bytes of the file at `pos`. -/
def fileBytes (pos n : Nat) : List Nat := (List.range n).map fun k => (file (pos + k)).toNat

/-- A buffer on the stack that `sdk_read` at `pos` filled as far as the file
goes. -/
def stackBytes (stack : Nat → UInt8) (pos n : Nat) : List Nat :=
  (List.range n).map fun k => (if k < readCount size pos n then file (pos + k) else stack k).toNat

def wave : List Nat := [0x57, 0x41, 0x56, 0x45]
def fmtId : List Nat := [0x66, 0x6d, 0x74, 0x20]
def dataId : List Nat := [0x64, 0x61, 0x74, 0x61]
def listId : List Nat := [0x4c, 0x49, 0x53, 0x54]
def infoId : List Nat := [0x49, 0x4e, 0x46, 0x4f]

/-- The format chunk's fields. -/
def setFormat (f : List Nat) (w : Wav) : Wav :=
  { w with
    fmt := ofBytes (f.take 2)
    chans := ofBytes ((f.drop 2).take 2)
    rate := ofBytes ((f.drop 4).take 4)
    bits := ofBytes ((f.drop 14).take 2) }

def setData (pos len : Nat) (w : Wav) : Wav :=
  { w with
    dataStart := u32 (pos + 8)
    dataEnd := if u32 (u32 (pos + 8) + len) < size then u32 (u32 (pos + 8) + len) else size }

variable (alloc : Nat → Bool)

/-- A LIST chunk's `len` bytes at `base`. -/
def listChunk (turns base len : Nat) (w : Wav) : Header Wav :=
  if alloc len ∧ readCount size base len = len then do
    let id ← cellsOf base len 0 4
    if id = infoId then itemLoop base len turns 4 w else pure w
  else pure w

variable (stack : Nat → UInt8)

/-- `while (pos + 8 <= size)` -/
def chunkLoop (items : Nat) : (turns : Nat) → (pos : Nat) → Wav → Header Wav
  | 0, _, w => throw w
  | turns + 1, pos, w =>
      if u32 (pos + 8) ≤ size then
        if readCount size pos 8 ≠ 8 then pure w
        else do
          let id := fileBytes file pos 4
          let len := ofBytes (fileBytes file (pos + 4) 4)
          let w ←
            if id = fmtId then pure (setFormat (stackBytes file size stack (pos + 8) 16) w)
            else if id = dataId then pure (setData size pos len w)
            else if id = listId ∧ len < 65536 then listChunk size alloc items (pos + 8) len w
            else pure w
          chunkLoop items turns (u32 (pos + u32 (8 + pad32 len))) w
      else pure w

end Ncmips.Music
