/-
The player, `apps/tjcplay/tjcplay.c`: reading frame records ahead into
slots, and the play loop.

The file is a `Source`; `rd` reads it through a buffer. Memory is always
there, and what is drawn on the screen is left out: `convert_pending`
only takes the marks away. `queue` is the slots from `q_head` on.
-/
import Ncmips.Lib.Source
import Ncmips.Tjcplay.Sound

namespace Ncmips.Tjcplay

open Bits (byteAt)

variable {σ : Type}

def qn : Nat := 32
def rbufSize : Nat := 256 * 1024
def frameHdr : Nat := 5

-- ========================================================= buffered reader

structure Reader (σ : Type) where
  file : σ
  /-- `rbuf[rpos .. rlen)`. -/
  rbuf : List UInt8 := []
  reof : Bool := false

/-- Refills an empty buffer, unless the end was seen. -/
def Reader.fill (fn : Source σ) (r : Reader σ) : Reader σ :=
  if r.rbuf = [] ∧ r.reof = false then
    match fn.read r.file rbufSize with
    | ([], file) => { r with file, reof := true }
    | (b :: bs, file) => { r with file, rbuf := b :: bs }
  else r

def rd (fn : Source σ) (r : Reader σ) (n : Nat) : List UInt8 × Reader σ :=
  if n = 0 then ([], r)
  else
    let r := r.fill fn
    match r.rbuf with
    | [] => ([], r)
    | b :: bs =>
        let got := (b :: bs).take n
        let (more, r) := rd fn { r with rbuf := (b :: bs).drop n } (n - got.length)
        (got ++ more, r)
termination_by n
decreasing_by simp only [List.length_take, List.length_cons]; omega

-- ================================================================== state

structure Slot where
  /-- `buf[0 .. len)`. -/
  buf : List UInt8 := []
  /-- Index in the file. -/
  frame : Nat := 0
  /-- Every tile follows, no bitmap. -/
  force : Bool := false

/-- The picture: decoder, and what is decoded but not shown. -/
structure Video where
  dec : Dec
  pending : Nat → Bool := fun _ => false
  pendingCount : Nat := 0
  /-- Tile to the `gen` of the step that decoded it. -/
  taken : Nat → Nat := fun _ => 0
  gen : Nat := 0

structure Player (σ : Type) where
  reader : Reader σ
  video : Video
  sound : Sound
  queue : List Slot := []
  framesRead : Nat := 0
  readDone : Bool := false
  readError : Option String := none
  quit : Bool := false
  /-- The clock of a stream without audio: CP0 Count, and the ticks of it
  to a sample. -/
  count : Nat := 0
  cntPerSample : Nat := 1
  cntLast : Nat := 0
  cntFrac : Nat := 0
  noaudioClock : Nat := 0

def Player.h (p : Player σ) : Header := p.video.dec.h

/-- The player at the first frame record of a file with header `h`. -/
def Player.start (reader : Reader σ) (h : Header) : Player σ :=
  { reader
    video := { dec := tjcDecInit h }
    sound := { rs := { step := if h.audioCodec ≠ 0 then u32 (h.audioRate * 2 ^ 16 / 48000) else 0 } } }

/-- Opening a file: its header, of 18 bytes or, if that was too few, 34. -/
def openFile (fn : Source σ) (file : σ) : Option (Player σ) :=
  let (hb, r) := rd fn { file } hdrSizeV1
  if hb.length ≠ hdrSizeV1 then none
  else
    match tjcParseHeader hb hdrSizeV1 with
    | .ok _ h => some (.start r h)
    | .bad => none
    | .more =>
        let (more, r) := rd fn r (hdrSize - hdrSizeV1)
        if more.length ≠ hdrSize - hdrSizeV1 then none
        else
          match tjcParseHeader (hb ++ more) hdrSize with
          | .ok _ h => some (.start r h)
          | _ => none

def bitmapLen (d : Dec) : Nat := (d.tiles + 7) / 8

-- ============================================================= read_frame

/-- How a call ends: 0, 1 = end, -1 = error. -/
inductive Read
  | ok
  | eof
  | error
  deriving DecidableEq, Repr

def popcount (b : UInt8) : Nat := ((List.range 8).filter fun i => b.toNat.testBit i).length

/-- The tiles of a record, `dirty` of them, onto `buf`; an error has its
text. -/
def readTiles (fn : Source σ) :
    (dirty : Nat) → Reader σ → List UInt8 → Except String (List UInt8) × Reader σ
  | 0, r, buf => (.ok buf, r)
  | dirty + 1, r, buf =>
      let (lb, r) := rd fn r 2
      if lb.length < 2 then (.error "truncated tile", r)
      else
        let len := tjcU16 lb 0
        if len = 0 then (.error "corrupt tile length / out of memory", r)
        else
          let (data, r) := rd fn r len
          if data.length < len then (.error "truncated tile", r)
          else readTiles fn dirty r (buf ++ lb ++ data)

/-- The bitmap and how many tiles follow. -/
def readBitmap (fn : Source σ) (d : Dec) (force : Bool) (r : Reader σ) :
    Except String (List UInt8 × Nat) × Reader σ :=
  if force then (.ok ([], d.tiles), r)
  else
    let (bm, r) := rd fn r (bitmapLen d)
    if bm.length < bitmapLen d then (.error "truncated bitmap / out of memory", r)
    else (.ok (bm, (bm.map popcount).sum), r)

/-- `alen` bytes into `abuf`. -/
def readAlen (fn : Source σ) (r : Reader σ) (alen : Nat) : Except String (List UInt8) × Reader σ :=
  if alen > 4 * 1024 * 1024 then (.error "truncated / too big audio", r)
  else
    let (abuf, r) := rd fn r alen
    if abuf.length < alen then (.error "truncated / too big audio", r) else (.ok abuf, r)

/-- The audio bytes of a record. -/
def readAbuf (fn : Source σ) (h : Header) (r : Reader σ) : Except String (List UInt8) × Reader σ :=
  if h.audioCodec = 0 then (.ok [], r)
  else
    let (lb, r) := rd fn r 4
    if lb.length < 4 then (.error "truncated audio", r) else readAlen fn r (tjcU32 lb 0)

/-- What `read_frame` reads: `none` at the end of the file, else the slot's
bytes, its force flag and the audio bytes. -/
def readRecord (fn : Source σ) (d : Dec) (r : Reader σ) :
    Except String (Option (List UInt8 × Bool × List UInt8)) × Reader σ :=
  let (fhdr, r) := rd fn r frameHdr
  if fhdr.length = 0 then (.ok none, r)
  else if fhdr.length < frameHdr ∨ 1 < (byteAt fhdr 4).toNat then
    (.error "truncated or corrupt frame header", r)
  else
    let force : Bool := byteAt fhdr 4 ≠ 0
    match readBitmap fn d force r with
    | (.error e, r) => (.error e, r)
    | (.ok (bm, dirty), r) =>
        match readTiles fn dirty r bm with
        | (.error e, r) => (.error e, r)
        | (.ok buf, r) =>
            match readAbuf fn d.h r with
            | (.error e, r) => (.error e, r)
            | (.ok abuf, r) => (.ok (some (buf, force, abuf)), r)

/-- The QOA frames of a record's audio, each into the FIFO as it is
decoded: `while (pos < alen)`. `false` is a corrupt one. -/
def pushAudio (h : Header) (abuf : List UInt8) :
    (fuel : Nat) → (pos : Nat) → Sound → Bool × Sound
  | 0, _, s => (true, s)
  | fuel + 1, pos, s =>
      if pos < abuf.length then
        match tjcQoaDecode (abuf.drop pos) (abuf.length - pos) h.audioChannels h.audioRate 0
            (fun _ => 0) with
        | none => (false, s)
        | some (n, used, q) =>
            pushAudio h abuf fuel (pos + used) (s.audioPush h.audioChannels h.audioRate q.out n)
      else (true, s)

/-- Reads one frame record into the next slot. -/
def readFrame (fn : Source σ) (p : Player σ) : Read × Player σ :=
  match readRecord fn p.video.dec p.reader with
  | (.error e, reader) => (.error, { p with reader, readError := some e })
  | (.ok none, reader) => (.eof, { p with reader })
  | (.ok (some (buf, force, abuf)), reader) =>
      match pushAudio p.h abuf abuf.length 0 p.sound with
      | (false, sound) =>
          (.error, { p with reader, sound, readError := some "corrupt QOA audio" })
      | (true, sound) =>
          (.ok,
            { p with
              reader, sound
              queue := p.queue ++ [{ buf, force, frame := p.framesRead }]
              framesRead := u32 (p.framesRead + 1) })

-- ================================================================== clock

/-- 48 kHz sample at which frame `k` starts. -/
def frameDue (h : Header) (k : Nat) : Nat :=
  u32 ((k * 48000 * h.fpsDen) % 2 ^ 64 / h.fpsNum)

def mediaClock (p : Player σ) : Nat × Player σ :=
  if p.h.audioCodec ≠ 0 then (p.sound.mediaClock, p)
  else if p.sound.paused then (p.noaudioClock, p)
  else
    let frac := u32 (p.cntFrac + sub32 p.count p.cntLast)
    let clock := u32 (p.noaudioClock + frac / p.cntPerSample)
    (clock, { p with cntLast := p.count, noaudioClock := clock, cntFrac := frac % p.cntPerSample })

def pumpAudio (p : Player σ) : Player σ :=
  if p.h.audioCodec = 0 then p else { p with sound := p.sound.pumpAudio }

def setPause (p : Player σ) (on : Bool) : Player σ :=
  if on = p.sound.paused then p
  else if p.h.audioCodec ≠ 0 then { p with sound := p.sound.setPause on }
  else
    let p := (mediaClock p).2
    { p with sound := { p.sound with paused := on }, cntLast := p.count }

-- ================================================================== video

/-- Decodes the tiles of one frame that a newer due frame did not already
decode in this step, from tile list `ts` and position `pos` on; `false`
is -1. -/
def decodeSlotFrom (sl : Slot) : (ts : List Nat) → (pos : Nat) → Video → Bool × Video
  | [], _, v => (true, v)
  | t :: ts, pos, v =>
      if !sl.force && (byteAt sl.buf (t / 8)).toNat.testBit (t % 8) = false then
        decodeSlotFrom sl ts pos v
      else
        let len := tjcU16 sl.buf pos
        if pos + 2 + len > sl.buf.length then (false, v)
        else if v.taken t ≠ v.gen then
          match tjcDecodeTile v.dec (sl.buf.drop (pos + 2)) len t with
          | (false, dec) => (false, { v with dec })
          | (true, dec) =>
              let v := { v with dec, taken := Function.update v.taken t v.gen }
              let v :=
                if v.pending t then v
                else
                  { v with
                    pending := Function.update v.pending t true
                    pendingCount := v.pendingCount + 1 }
              decodeSlotFrom sl ts (pos + 2 + len) v
        else decodeSlotFrom sl ts (pos + 2 + len) v

def decodeSlot (sl : Slot) (v : Video) : Bool × Video :=
  decodeSlotFrom sl (List.range v.dec.tiles) (if sl.force then 0 else bitmapLen v.dec) v

/-- A new generation; on a wrap all marks go. -/
def nextGen (v : Video) : Video :=
  let gen := u32 (v.gen + 1)
  if gen = 0 then { v with taken := fun _ => 0, gen := 1 } else { v with gen }

/-- The due frames, newest first, up to the first corrupt one. -/
def decodeSlots : List Slot → Video → Bool × Video
  | [], v => (true, v)
  | sl :: sls, v =>
      match decodeSlot sl v with
      | (false, v) => (false, v)
      | (true, v) => decodeSlots sls v

/-- The merged step: all due frames in one. -/
def decodeDue (due : List Slot) (v : Video) : Bool × Video :=
  decodeSlots due.reverse (nextGen v)

def convertPending (v : Video) : Video :=
  { v with pending := fun _ => false, pendingCount := 0 }

/-- How many frames from the head of the queue are due. -/
def dueCount (h : Header) (now : Nat) (queue : List Slot) : Nat :=
  (queue.takeWhile fun sl => frameDue h sl.frame ≤ now).length

-- ============================================================== play loop

/-- The samples the loop wants room for before it reads the next frame. -/
def reserve (p : Player σ) : Nat :=
  let per := sub32 (frameDue p.h (u32 (p.framesRead + 1))) (frameDue p.h p.framesRead)
  3 * per + 1024

def hasRoom (p : Player σ) : Bool :=
  !(u32 (sub32 p.sound.fifoW p.sound.fifoR + reserve p) > fifoN - fifoKeep)

def readOrEnd (fn : Source σ) (p : Player σ) : Player σ :=
  match readFrame fn p with
  | (.ok, p) => p
  | (_, p) => { p with readDone := true }

/-- One turn of reading ahead; `none` when there is nothing to read or no
room. -/
def readAhead (fn : Source σ) (p : Player σ) : Option (Player σ) :=
  if p.readDone = false ∧ p.queue.length < qn ∧ hasRoom p then some (readOrEnd fn p) else none

/-- Every frame that is due now, in one step, and onto the screen. -/
def videoStep (p : Player σ) : Player σ :=
  let (now, p) := mediaClock p
  let n := dueCount p.h now p.queue
  if p.sound.paused ∨ n = 0 then p
  else
    let (ok, video) := decodeDue (p.queue.take n) p.video
    { p with
      video := convertPending video
      queue := p.queue.drop n
      readError := if ok then p.readError else some "corrupt tile data"
      quit := p.quit || !ok }

/-- `play` reads half the queue before it starts the clock. -/
inductive Phase
  | preRead
  | loop
  deriving DecidableEq, Repr

/-- What happens while a file plays: the turns of its two loops and their
parts, a key, the hardware playing `n` frames, time passing. -/
inductive Act
  | preRead
  | begin
  | pump
  | readAhead
  | video
  | pause (on : Bool)
  | volume (v : Nat)
  | drain (n : Nat)
  | tick (count : Nat)

def playStep (fn : Source σ) : Phase × Player σ → Act → Option (Phase × Player σ)
  | (.preRead, p), .preRead =>
      if p.readDone = false ∧ p.queue.length < qn / 2 then some (.preRead, readOrEnd fn p) else none
  | (.preRead, p), .begin =>
      if p.readError = none then
        some (.loop,
          { p with
            sound := (Sound.audioStart { p.sound with clockBase := 0, hwWritten := 0 })
            noaudioClock := 0, cntLast := p.count, cntFrac := 0 })
      else none
  | (.loop, p), .pump => some (.loop, pumpAudio p)
  | (.loop, p), .readAhead => (readAhead fn p).map (Phase.loop, ·)
  | (.loop, p), .video => some (.loop, videoStep p)
  | (.loop, p), .pause on => some (.loop, setPause p on)
  | (.loop, p), .volume volume => some (.loop, { p with sound := { p.sound with volume } })
  | (.loop, p), .drain n => some (.loop, { p with sound := p.sound.drain n })
  | (.loop, p), .tick count => some (.loop, { p with count })
  | _, _ => none

end Ncmips.Tjcplay
