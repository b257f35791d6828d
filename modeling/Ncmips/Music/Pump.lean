/-
The music player's output loops: WAV files in `apps/music/music.c`, MP3
in `mp3stream.h`.

Both keep stereo frames of the source in a buffer and a place among
them, and make one 48 kHz frame a turn; they differ in how the volume is
applied. Filling the buffer is not modelled.
-/
import Ncmips.Lib.Lerp

namespace Ncmips.Music

open Words

/-- Frames that were read or decoded, and how far the output has come. -/
structure Stream where
  /-- Interleaved. -/
  buf : Nat → Int16
  have_ : Nat
  cursor : Cursor
  step : Nat
  peakL : Int := 0
  peakR : Int := 0

/-- The next frame is there, and the one behind it. -/
def Stream.ready (s : Stream) : Bool := u32 (s.cursor.pos + 1) < s.have_

/-- The frame at the cursor, `(l, r)`. -/
def Stream.frame (s : Stream) : Int × Int :=
  let a := 2 * s.cursor.pos
  let b := a + 2
  (lerp (s.buf a).toInt (s.buf b).toInt s.cursor.frac,
    lerp (s.buf (a + 1)).toInt (s.buf (b + 1)).toInt s.cursor.frac)

def Stream.trackPeak (s : Stream) (l r : Int) : Stream :=
  { s with
    peakL := max s.peakL |l|
    peakR := max s.peakR |r| }

/-- One turn; what goes out is `R` and then `L`, 16 bits each. -/
def Stream.turn (volume : Int → Int) (s : Stream) : (Int16 × Int16) × Stream :=
  let (l, r) := s.frame
  let l := volume l
  let r := volume r
  ((.ofInt r, .ofInt l),
    { s.trackPeak l r with cursor := s.cursor.advance s.step })

/-- A turn of `pump`, the volume in percent. -/
def wavTurn (vol : Int) : Stream → (Int16 × Int16) × Stream :=
  Stream.turn fun v => (s32 (v * vol)).tdiv 100

/-- A turn of `mp3s_pump`, the volume in 256ths. -/
def mp3sTurn (volq : Nat) : Stream → (Int16 × Int16) × Stream :=
  Stream.turn fun v => s32 (v * s32 volq) >>> (8 : Nat)

end Ncmips.Music
