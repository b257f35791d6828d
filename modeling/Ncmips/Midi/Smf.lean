/-
The MIDI file sequencer, `smf.c`, on the 32-bit target: `long` and
pointers are 32 bits.

A pointer is an address; the file stays where the caller put it, and each
byte of it is one read of memory. Loops have a number of turns: a call
that needs more is cut short where it is.
-/
import Ncmips.Lib.Meets
import Ncmips.Lib.Words

namespace Ncmips.Midi

open Words

-- ================================================================== memory

/-- A program that reads memory. -/
abbrev Rd := Prog Nat UInt8

/-- The byte at an address. -/
def byteOf (a : Nat) : Rd Nat := UInt8.toNat <$> (Prog.ask a : Rd UInt8)

/-- `p[0 .. n)` -/
def bytesOf (p : Nat) : Nat → Rd (List Nat)
  | 0 => pure []
  | n + 1 => do
      let b ← byteOf p
      let bs ← bytesOf (u32 (p + 1)) n
      pure (b :: bs)

/-- `!memcmp (p, s, n)`; it may look at all of the bytes. -/
def sameBytes (p : Nat) (s : List Nat) : Rd Bool := do
  let bs ← bytesOf p s.length
  pure (bs = s)

def be32 (p : Nat) : Rd Nat := do
  let b0 ← byteOf p
  let b1 ← byteOf (u32 (p + 1))
  let b2 ← byteOf (u32 (p + 2))
  let b3 ← byteOf (u32 (p + 3))
  pure (b0 * 2 ^ 24 + b1 * 2 ^ 16 + b2 * 2 ^ 8 + b3)

-- =================================================================== state

def maxTracks : Nat := 64
def synthRate : Nat := 48000

structure Track where
  p : Nat
  fin : Nat
  nextTick : Nat := 0
  status : Nat := 0
  done : Bool := false

/-- A call to the synthesiser. -/
inductive Call
  | reset
  | noteOn (ch a b : Nat)
  | noteOff (ch a : Nat)
  | control (ch a b : Nat)
  | program (ch a : Nat)
  | bend (ch v : Nat)
  /-- `n` samples, at an offset into the caller's buffers. -/
  | render (offset n : Int)

/-- The sequencer's variables, and the calls made to its synthesiser. -/
structure Smf where
  file : Nat
  fileLen : Int
  tracks : List Track := []
  division : Nat := 0
  /-- There is a synthesiser. -/
  syn : Bool := false
  tempo : Nat := 0
  spt : Nat := 0
  curTick : Nat := 0
  tickTime : Nat := 0
  now : Nat := 0
  finished : Bool := false
  lengthMs : Nat := 0
  title : List Nat := []
  chanLevel : Nat → Nat := fun _ => 0
  chanProgram : Nat → Nat := fun _ => 0
  chanUsed : Nat → Bool := fun _ => false
  chanCc : Nat → Nat → Nat := fun _ _ => 0
  chanBend : Nat → Nat := fun _ => 0
  calls : List Call := []

/-- A function of the sequencer that may be cut short. -/
abbrev Run := Prog.Turns Nat UInt8 Smf

def Smf.call (s : Smf) (c : Call) : Smf := { s with calls := s.calls ++ [c] }

-- ================================================================== events

/-- The loop of `vlq`: `i` bytes at most. -/
def vlqLoop : (i v : Nat) → Track → Rd (Nat × Track)
  | 0, v, t => pure (v, t)
  | i + 1, v, t =>
      if t.p < t.fin then do
        let b ← byteOf t.p
        let t := { t with p := u32 (t.p + 1) }
        let v := u32 (v * 2 ^ 7) + b % 2 ^ 7
        if b < 0x80 then pure (v, t) else vlqLoop i v t
      else pure (v, t)

def vlq (t : Track) : Rd (Nat × Track) := vlqLoop 4 0 t

def setTempo (s : Smf) (us : Nat) : Smf :=
  let tempo := if us ≠ 0 then us else 500000
  { s with
    tempo
    spt := u64 (tempo * (synthRate / 1000) * 2 ^ 32) / (1000 * s.division) }

def readDelta (t : Track) : Rd Track :=
  if t.p ≥ t.fin then pure { t with done := true }
  else do
    let (v, t) ← vlq t
    pure { t with nextTick := u32 (t.nextTick + v) }

/-- `send`: 0 = nothing (length scan), 1 = everything, 2 = all but notes
(seek). -/
def channelEvent (s : Smf) (status a b send : Nat) : Smf :=
  let ch := status % 16
  match status / 16 with
  | 0x8 => if send = 1 then s.call (.noteOff ch a) else s
  | 0x9 =>
      if b = 0 then if send = 1 then s.call (.noteOff ch a) else s
      else
        let s := { s with chanUsed := Function.update s.chanUsed ch true }
        if send = 1 then
          let s := s.call (.noteOn ch a b)
          if b > s.chanLevel ch then { s with chanLevel := Function.update s.chanLevel ch b } else s
        else s
  | 0xb =>
      let s := { s with
        chanCc := Function.update s.chanCc ch (Function.update (s.chanCc ch) (a % 128) b) }
      if send ≠ 0 then s.call (.control ch a b) else s
  | 0xc =>
      let s := { s with chanProgram := Function.update s.chanProgram ch a }
      if send ≠ 0 then s.call (.program ch a) else s
  | 0xe =>
      let s := { s with chanBend := Function.update s.chanBend ch (a + b * 2 ^ 7) }
      if send ≠ 0 then s.call (.bend ch (s.chanBend ch)) else s
  | _ => s

/-- A track's name or text, as far as it fits and without the blanks at its
end. -/
def titleOf (cs : List Nat) : List Nat :=
  ((cs.map fun c => if 32 ≤ c ∧ c < 127 then c else 0x20).reverse.dropWhile (· = 0x20)).reverse

def titleSize : Nat := 64

/-- What a meta event of a type does; its `len` bytes are in the track. -/
def metaEvent (s : Smf) (t : Track) (type len : Nat) : Rd (Smf × Track) :=
  if type = 0x51 ∧ len = 3 then do
    let b0 ← byteOf t.p
    let b1 ← byteOf (u32 (t.p + 1))
    let b2 ← byteOf (u32 (t.p + 2))
    pure (setTempo s (b0 * 2 ^ 16 + b1 * 2 ^ 8 + b2), t)
  else if type = 0x2f then pure (s, { t with done := true })
  else if (type = 0x03 ∨ type = 0x01) ∧ s.title = [] ∧ len > 0 then do
    let cs ← bytesOf t.p (min len (titleSize - 1))
    pure ({ s with title := titleOf cs }, t)
  else pure (s, t)

/-- The next byte of a track, or 0. -/
def nextByte (t : Track) : Rd (Nat × Track) :=
  if t.p < t.fin then do
    let b ← byteOf t.p
    pure (b, { t with p := u32 (t.p + 1) })
  else pure (0, t)

/-- The event with status `st`; `false` is a `break`. -/
def event (send : Nat) (s : Smf) (t : Track) (st : Nat) : Rd (Bool × Smf × Track) :=
  if st = 0xff then do
    let (type, t) ← nextByte t
    let (len, t) ← vlq t
    if u32 (t.p + len) > t.fin then pure (false, s, { t with done := true })
    else do
      let (s, t) ← metaEvent s t type len
      pure (true, s, { t with p := u32 (t.p + len) })
  else if st = 0xf0 ∨ st = 0xf7 then do
    let (len, t) ← vlq t
    let t := { t with p := u32 (t.p + len) }
    pure (true, s, if t.p > t.fin then { t with done := true } else t)
  else if st ≥ 0x80 ∧ st < 0xf0 then do
    let kind := st / 16
    let (a, t) ← nextByte { t with status := st }
    if kind ≠ 0xc ∧ kind ≠ 0xd then do
      let (b, t) ← nextByte t
      pure (true, channelEvent s st (a % 128) (b % 128) send, t)
    else pure (true, channelEvent s st (a % 128) 0 send, t)
  else pure (false, s, { t with done := true })

/-- One turn of the loop over a track's events. -/
def eventTurn (send : Nat) (s : Smf) (t : Track) : Rd (Smf × Track) :=
  if t.p ≥ t.fin then pure (s, { t with done := true })
  else do
    let b ← byteOf t.p
    -- running status
    let (st, t) := if b ≥ 0x80 then (b, { t with p := u32 (t.p + 1) }) else (t.status, t)
    let (go, s, t) ← event send s t st
    if go ∧ !t.done then do
      let t ← readDelta t
      pure (s, t)
    else pure (s, t)

-- ==================================================================== time

/-- The earliest pending tick, and whether there is one. -/
def pending (ts : List Track) : Nat × Bool :=
  ts.foldl (fun m t => if !t.done ∧ t.nextTick < m.1 then (t.nextTick, true) else m)
    (0xffffffff, false)

def Smf.tMin (s : Smf) : Nat := (pending s.tracks).1

/-- The sample time of the earliest pending tick. -/
def Smf.next (s : Smf) : Nat := u64 (s.tickTime + sub32 s.tMin s.curTick * s.spt)

/-- `while (!t->done && t->next_tick == cur_tick)`, for track `i`. -/
def trackLoop (send i : Nat) : (turns : Nat) → Smf → Run Smf
  | 0, s => throw s
  | turns + 1, s =>
      match s.tracks[i]? with
      | none => pure s
      | some t =>
          if !t.done ∧ t.nextTick = s.curTick then do
            let (s, t) ← eventTurn send s t
            trackLoop send i turns { s with tracks := s.tracks.set i t }
          else pure s

/-- `for (i = 0; i < ntracks; i++)` -/
def tracksLoop (send turns : Nat) : List Nat → Smf → Run Smf
  | [], s => pure s
  | i :: is, s => do
      let s ← trackLoop send i turns s
      tracksLoop send turns is s

/-- Runs all events at the earliest pending tick. `false` when every track
ended. -/
def step (turns send : Nat) (s : Smf) : Run (Bool × Smf) :=
  if !(pending s.tracks).2 then pure (false, s)
  else do
    let s ← tracksLoop send turns (List.range s.tracks.length)
      { s with tickTime := s.next, curTick := s.tMin }
    pure (true, s)

-- ================================================================= loading

/-- An address in the file: `file + pos`. -/
def Smf.at (s : Smf) (pos : Int) : Nat := ofInt32 (s.file + pos)

/-- `"MTrk"` -/
def mtrk : List Nat := [0x4d, 0x54, 0x72, 0x6b]

/-- The loop over the chunks. -/
def chunkLoop : (turns : Nat) → (pos : Int) → Smf → Run Smf
  | 0, _, s => throw s
  | turns + 1, pos, s =>
      if s32 (pos + 8) ≤ s.fileLen ∧ s.tracks.length < maxTracks then do
        let len ← be32 (s.at (s32 (pos + 4)))
        let len :=
          if s32 (s32 (pos + 8) + s32 len) > s.fileLen then ofInt32 (s.fileLen - pos - 8) else len
        let isTrack ← sameBytes (s.at pos) mtrk
        let s ←
          if isTrack then do
            let p := s.at (s32 (pos + 8))
            let t ← readDelta { p, fin := u32 (p + len) }
            pure { s with tracks := s.tracks ++ [t] }
          else pure s
        chunkLoop turns (s32 (pos + 8 + len)) s
      else pure s

def initTracks (turns : Nat) (s : Smf) : Run Smf := do
  let s ← chunkLoop turns 14 { s with tracks := [] }
  let cc : Nat → Nat := Function.update (Function.update (Function.update (fun _ => 0) 7 100) 10 64) 11 127
  let s := setTempo
    { s with
      chanLevel := fun _ => 0, chanProgram := fun _ => 0, chanCc := fun _ => cc
      chanBend := fun _ => 8192 } 500000
  pure { s with curTick := 0, tickTime := 0, now := 0, finished := false }

def rewind (turns : Nat) (s : Smf) : Run Smf := do
  let s ← initTracks turns s
  pure (if s.syn then s.call .reset else s)

/-- `while (step (0))` -/
def lengthLoop (fuel : Nat) : (turns : Nat) → Smf → Run Smf
  | 0, s => throw s
  | turns + 1, s => do
      let (more, s) ← step fuel 0 s
      if more then lengthLoop fuel turns s else pure s

/-- `"MThd"` -/
def mthd : List Nat := [0x4d, 0x54, 0x68, 0x64]

/-- Loads the file at `data`; `false` is -1. -/
def load (turns : Nat) (data : Nat) (len : Int) (s : Smf) : Run (Bool × Smf) := do
  let s := { s with file := data, fileLen := len, title := [] }
  if len < 14 then pure (false, s)
  else
    let header ← sameBytes data mthd
    if !header then pure (false, s)
    else
      let size ← be32 (u32 (data + 4))
      if size < 6 then pure (false, s)
      else
        let b12 ← byteOf (u32 (data + 12))
        let b13 ← byteOf (u32 (data + 13))
        let s := { s with division := b12 * 2 ^ 8 + b13 }
        if s.division ≥ 0x8000 then pure (false, s)
        else do
          let s := if s.division = 0 then { s with division := 96 } else s
          -- a run without a synthesiser for the length (and the title)
          let s ← initTracks turns { s with syn := false }
          let s ← lengthLoop turns turns { s with chanUsed := fun _ => false }
          let s := { s with lengthMs := u32 (u64 (s.tickTime / 2 ^ 32 * 1000) / synthRate) }
          let s ← rewind turns { s with syn := true }
          pure (true, s)

-- ================================================================= playing

/-- Samples to the earliest pending tick, rounded up: a signed word. -/
def Smf.ahead (s : Smf) : Int := s32 (u64 (sub64 s.next s.now + 0xffffffff) / 2 ^ 32 : Nat)

/-- A turn's `seg` samples. -/
def Smf.play (s : Smf) (offset seg : Int) : Smf :=
  let s := s.call (.render offset seg)
  { s with now := u64 (s.now + (seg * 2 ^ 32 % 2 ^ 64).toNat) }

/-- One turn of `smf_render`'s loop: the samples left and the offset of
`left` and `right`. -/
def renderTurn (fuel : Nat) (n offset : Int) (s : Smf) : Run (Int × Int × Smf) :=
  if s.tMin = 0xffffffff then
    pure (s32 (n - n), offset + n, { s with finished := true }.play offset n)
  else if s.next ≤ s.now then do
    let (_, s) ← step fuel 1 s
    pure (n, offset, s)
  else
    let seg := if s.ahead > n then n else s.ahead
    pure (s32 (n - seg), offset + seg, s.play offset seg)

/-- `while (n > 0)` -/
def renderLoop (fuel : Nat) : (turns : Nat) → (n offset : Int) → Smf → Run Smf
  | 0, _, _, s => throw s
  | turns + 1, n, offset, s =>
      if n > 0 then do
        let (n, offset, s) ← renderTurn fuel n offset s
        renderLoop fuel turns n offset s
      else pure s

def render (turns : Nat) (n : Int) (s : Smf) : Run Smf := renderLoop turns turns n 0 s

/-- The loop of `smf_seek`. -/
def seekLoop (fuel target : Nat) : (turns : Nat) → Smf → Run Smf
  | 0, s => throw s
  | turns + 1, s =>
      if s.tMin = 0xffffffff then pure { s with finished := true }
      else if s.next > target then pure s
      else do
        -- programs, controllers, tempo
        let (_, s) ← step fuel 2 s
        seekLoop fuel target turns s

def seek (turns ms : Nat) (s : Smf) : Run Smf := do
  let target := u64 (ms * synthRate / 1000 * 2 ^ 32)
  let s ← rewind turns s
  let s ← seekLoop turns target turns s
  pure { s with now := target }

end Ncmips.Midi
