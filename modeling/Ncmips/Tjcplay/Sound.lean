/-
The player's sound, `apps/tjcplay/tjcplay.c`: the PCM FIFO, the
resampler, the hardware ring and the clock.

Counters are 32-bit and run on (`u32`). The hardware ring is a queue of
frames that the hardware empties at its own pace; `audio_start` throws
away what is in it. Three fields are not the source's: `tape` is every
word put into the FIFO so far, `heard` every frame that has left the
ring, and a frame's `src` the FIFO word it was made of, if any.
-/
import Ncmips.Tjcplay.Tjcdec

namespace Ncmips.Tjcplay

open Tjc.Qoa (int16)

def fifoN : Nat := 262144
def fifoKeep : Nat := 20000
def ringTarget : Nat := 12000

/-- `a - b` in 32 bits. -/
def sub32 (a b : Nat) : Nat := u32 (a + (2 ^ 32 - b))

/-- Two halves of a stereo word: `R << 16 | L`. -/
def fifoWord (l r : Int) : Nat :=
  (r % 2 ^ 16).toNat * 2 ^ 16 + (l % 2 ^ 16).toNat

def int32 (v : Int) : Int := v.bmod (2 ^ 32)

structure RingFrame where
  hi : Int
  lo : Int
  src : Option Nat

/-- The resampler, when the source rate is not 48 kHz. -/
structure Resampler where
  step : Nat := 0
  pos : Nat := 2 ^ 16
  prevL : Int := 0
  prevR : Int := 0

structure Sound where
  fifo : Nat → Nat := fun _ => 0
  fifoW : Nat := 0
  fifoR : Nat := 0
  rs : Resampler := {}
  /-- Percent. -/
  volume : Nat := 100
  /-- Frames into the ring since `audio_start`. -/
  hwWritten : Nat := 0
  /-- Media position (48 kHz) at `audio_start`. -/
  clockBase : Nat := 0
  paused : Bool := false
  ring : List RingFrame := []
  tape : List Nat := []
  heard : List RingFrame := []

namespace Sound

def fifoPut (s : Sound) (w : Nat) : Sound :=
  { s with
    fifo := Function.update s.fifo (s.fifoW % fifoN) w
    fifoW := u32 (s.fifoW + 1)
    tape := s.tape ++ [w] }

-- ============================================================= audio_push

/-- One output of the resampler; `x` is the chunk, interleaved. -/
def interpolate (rs : Resampler) (x : Nat → Int) (ch : Nat) : Nat :=
  let i1 := rs.pos / 2 ^ 16
  let f : Int := (rs.pos % 2 ^ 16 : Nat)
  let al := if i1 ≠ 0 then x ((i1 - 1) * ch) else rs.prevL
  let ar := if i1 ≠ 0 then (if 1 < ch then x ((i1 - 1) * ch + 1) else x ((i1 - 1) * ch))
    else rs.prevR
  let bl := x (i1 * ch)
  let br := if 1 < ch then x (i1 * ch + 1) else x (i1 * ch)
  fifoWord (al + (int32 ((bl - al) * f) >>> (16 : Nat))) (ar + (int32 ((br - ar) * f) >>> (16 : Nat)))

/-- Linear interpolation, x[-1] = the previous chunk's last sample. Every
turn moves the position on, so `n << 16` turns are enough. -/
def resample (x : Nat → Int) (ch n : Nat) : (fuel : Nat) → Sound → Sound
  | 0, s => s
  | fuel + 1, s =>
      if s.rs.pos / 2 ^ 16 < n then
        let s := s.fifoPut (interpolate s.rs x ch)
        resample x ch n fuel { s with rs := { s.rs with pos := u32 (s.rs.pos + s.rs.step) } }
      else s

/-- One decoded QOA frame, `n` samples per channel, into the FIFO. -/
def audioPush (s : Sound) (ch rate : Nat) (x : Nat → Int) (n : Nat) : Sound :=
  if rate = 48000 then
    (List.range n).foldl
      (fun s i => s.fifoPut (fifoWord (x (i * ch)) (if 1 < ch then x (i * ch + 1) else x (i * ch)))) s
  else
    let s := resample x ch n (n * 2 ^ 16) s
    let prevL := x ((n - 1) * ch)
    { s with
      rs := { s.rs with
        pos := sub32 s.rs.pos (u32 (n * 2 ^ 16))
        prevL
        prevR := if 1 < ch then x ((n - 1) * ch + 1) else prevL } }

-- ===================================================== output and clock

def ringQueued (s : Sound) : Nat := s.ring.length

/-- `media_clock` of a stream with audio. -/
def mediaClock (s : Sound) : Nat :=
  let q := s.ringQueued
  u32 (s.clockBase + (if s.hwWritten > q then s.hwWritten - q else 0))

/-- A frame of the ring, from the FIFO word `w`. -/
def mixed (vol w : Nat) : RingFrame :=
  { hi := int16 ((int16 (w / 2 ^ 16 : Nat) * vol) >>> (8 : Nat))
    lo := int16 ((int16 (w % 2 ^ 16 : Nat) * vol) >>> (8 : Nat))
    src := some w }

def silence : RingFrame := { hi := 0, lo := 0, src := none }

/-- `while (want)`; a turn takes at least one, so `want` turns are enough. -/
def pumpLoop (vol : Nat) : (fuel : Nat) → (want : Nat) → Sound → Sound
  | 0, _, s => s
  | fuel + 1, want, s =>
      if want = 0 then s
      else
        let n := if want > 1024 then 1024 else want
        if !s.paused then
          let avail := sub32 s.fifoW s.fifoR
          let n := if n > avail then avail else n
          if n = 0 then s
          else
            let mix := (List.range n).map fun i => mixed vol (s.fifo (u32 (s.fifoR + i) % fifoN))
            pumpLoop vol fuel (want - n)
              { s with
                fifoR := u32 (s.fifoR + n)
                hwWritten := u32 (s.hwWritten + n)
                ring := s.ring ++ mix }
        else
          pumpLoop vol fuel (want - n) { s with ring := s.ring ++ List.replicate n silence }

/-- Fill the hardware ring from the FIFO, with zeros while paused. -/
def pumpAudio (s : Sound) : Sound :=
  let vol := s.volume * 256 / 100
  let q := s.ringQueued
  if q ≥ ringTarget then s
  else pumpLoop vol (ringTarget - q) (ringTarget - q) s

/-- `audio_start`: clears the ring. -/
def audioStart (s : Sound) : Sound := { s with ring := [] }

/-- `set_pause` of a stream with audio. -/
def setPause (s : Sound) (on : Bool) : Sound :=
  if on = s.paused then s
  else
    let q := s.ringQueued
    let pos := s.mediaClock
    -- media still in the ring goes back into the FIFO (kept there)
    let s :=
      if on then
        let back := if s.hwWritten > q then q else s.hwWritten
        { s with fifoR := sub32 s.fifoR back, clockBase := pos }
      else s
    { audioStart { s with paused := on } with hwWritten := 0 }

/-- The hardware plays `n` frames of the ring, or what there is. -/
def drain (s : Sound) (n : Nat) : Sound :=
  { s with ring := s.ring.drop n, heard := s.heard ++ s.ring.take n }

end Sound

end Ncmips.Tjcplay
