/-
The Bad Apple film's video stream: the encoder of mkbadapple.py, and the
player of badapple.c.

A frame's pixels are in raster order, `true` for white. The stream is what
is left of the buffer, and what each further refill brings.
-/
import Ncmips.Lib.Words

namespace Ncmips.Badapple

open Words

def maxW : Nat := 640
def maxH : Nat := 360

-- ================================================================== encoder

/-- `varint` of mkbadapple.py. -/
def putVarint (v : Nat) : List UInt8 :=
  if v ≥ 0x80 then .ofNat ((v &&& 0x7f) ||| 0x80) :: putVarint (v / 2 ^ 7) else [.ofNat v]
termination_by v
decreasing_by omega

/-- `np.flatnonzero(np.diff(diff)) + 1` -/
def edges (diff : List Bool) : List Nat :=
  ((List.range (diff.length - 1)).filter fun i =>
    diff.getD i false ≠ diff.getD (i + 1) false).map (· + 1)

/-- `np.diff(bounds)` -/
def lengths (diff : List Bool) : List Nat :=
  let bounds := 0 :: (edges diff ++ [diff.length])
  bounds.tail.zipWith (fun b a => b - a) bounds

/-- Alternating unchanged and toggled runs; a trailing unchanged one is
implied. -/
def runs (diff : List Bool) : List Nat :=
  if true ∈ diff then
    let runs := (if diff.getD 0 false then [0] else []) ++ lengths diff
    if runs.length % 2 = 1 then runs.dropLast else runs
  else []

def encodeFrame (diff : List Bool) : List UInt8 :=
  putVarint (runs diff).length ++ (runs diff).flatMap putVarint

/-- `cur ^ prev` -/
def frameXor (cur prev : List Bool) : List Bool := cur.zipWith xor prev

def encodeFilm : (prev : List Bool) → List (List Bool) → List UInt8
  | _, [] => []
  | prev, cur :: film => encodeFrame (frameXor cur prev) ++ encodeFilm cur film

-- =================================================================== player

structure Stream where
  /-- From `vptr` to `vend`. -/
  buf : List UInt8
  refills : List (List UInt8)

def videoRefill (s : Stream) : Bool × Stream :=
  match s.refills with
  | [] => (false, s)
  | c :: cs => (c ≠ [], { buf := c, refills := cs })

def vbyte (s : Stream) : Nat × Stream :=
  match s.buf with
  | b :: bs => (b.toNat, { s with buf := bs })
  | [] =>
      let (more, s) := videoRefill s
      if !more then (0, s)
      else (((s.buf.head?).getD 0).toNat, { s with buf := s.buf.tail })

/-- A shift is by the low five bits of its count. -/
def varintLoop (v shift : Nat) (s : Stream) : Nat × Stream :=
  let (b, s) := vbyte s
  let v := v ||| u32 ((b &&& 0x7f) * 2 ^ (shift % 32))
  if b &&& 0x80 = 0 ∨ shift > 28 then (v, s) else varintLoop v (shift + 7) s
termination_by 36 - shift
decreasing_by omega

def varint (s : Stream) : Nat × Stream := varintLoop 0 0 s

/-- The entries of the bitmap that the loops over rows and columns come to:
at the end of a row `x` starts again. -/
def toggleLoop (w : Nat) : (n x y : Nat) → List Nat
  | 0, _, _ => []
  | n + 1, x, y =>
      if x < w then (y * w + x) :: toggleLoop w n (x + 1) y
      else ((y + 1) * w) :: toggleLoop w n 1 (y + 1)

/-- The entries that `toggle_run` flips. -/
def toggled (w h pos len : Nat) : List Nat :=
  let stop := if u32 (pos + len) > w * h then w * h else u32 (pos + len)
  toggleLoop w (stop - pos) (pos - pos / w * w) (pos / w)

def toggleRun (w h pos len : Nat) (bitmap : List Bool) : List Bool :=
  (toggled w h pos len).foldl (fun bm i => bm.modify i not) bitmap

/-- `for (i = 0; i < runs; i++)` -/
def runLoop (w h : Nat) : (n i pos : Nat) → Stream → List Bool → Stream × List Bool
  | 0, _, _, s, bm => (s, bm)
  | n + 1, i, pos, s, bm =>
      let (len, s) := varint s
      let bm := if i % 2 = 1 then toggleRun w h pos len bm else bm
      runLoop w h n (i + 1) (u32 (pos + len)) s bm

/-- `next_video_frame`: 0 at the end of the stream. -/
def nextVideoFrame (w h : Nat) (s : Stream) (bitmap : List Bool) : Bool × Stream × List Bool :=
  let (more, s) := if s.buf = [] then videoRefill s else (true, s)
  if !more then (false, s, bitmap)
  else
    let (runs, s) := varint s
    (true, runLoop w h runs 0 0 s bitmap)

end Ncmips.Badapple
