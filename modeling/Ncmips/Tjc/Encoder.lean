/-
`tjc::Encoder`: config, change detection, refresh policy, tile coding
and frame records, with the audio queue.

The encoder keeps a shadow copy of the decoder's planes (`recon`) that
every coded block is decoded into. Worker threads are modelled by the
chunks they get: chunk `i` is worker `i`'s, workers run one after the
other, and their outputs are joined in worker order as in the source.
Input planes are memory (`Nat → UInt8`) with a stride each.
-/
import Ncmips.Tjc.Huff
import Ncmips.Tjc.Qoa

namespace Ncmips.Tjc

-- ================================================================ config

inductive DiffReference
  | lastCoded
  | reconstructed
  deriving DecidableEq, Repr

/-- Enumerations come in as bytes, so that one out of range can be
refused. -/
structure Config where
  width : UInt16 := 0
  height : UInt16 := 0
  tileW : UInt8 := 16
  tileH : UInt8 := 16
  motionThresholdK : UInt32 := 3
  refreshMode : UInt8 := 2
  refreshParam : UInt32 := 30
  quality : UInt8 := 75
  diffReference : UInt8 := 0
  threads : Int := 0
  fpsNum : UInt32 := 30
  fpsDen : UInt32 := 1
  audioChannels : UInt8 := 0
  audioRate : UInt32 := 0
  deriving DecidableEq, Repr

def Config.mode (cfg : Config) : RefreshMode := (RefreshMode.ofByte? cfg.refreshMode).getD .none

def Config.reference (cfg : Config) : DiffReference :=
  if cfg.diffReference = 1 then .reconstructed else .lastCoded

/-- Why a config is refused, in the order of the checks. -/
def Config.error (cfg : Config) : Option String :=
  match validateGeometry cfg.width.toNat cfg.height.toNat cfg.tileW.toNat cfg.tileH.toNat with
  | some e => some e
  | none =>
      if cfg.quality < 1 ∨ 100 < cfg.quality then some "quality must be 1..100"
      else if 65535 < cfg.refreshParam then some "refresh_param must be 0..65535"
      else if 2 < cfg.refreshMode ∨ 1 < cfg.diffReference then
        some "invalid refresh mode or diff reference"
      else if cfg.fpsNum = 0 ∨ cfg.fpsDen = 0 then
        some "frame rate numerator and denominator must be non-zero"
      else if Qoa.kMaxChannels < cfg.audioChannels.toNat
          ∨ (cfg.audioChannels ≠ 0 ∧ (cfg.audioRate < 1 ∨ 0xffffff < cfg.audioRate)) then
        some "audio needs 1..8 channels and a sample rate of 1..16777215 Hz"
      else none

-- ======================================================== refresh policy

structure RefreshPolicy where
  mode : RefreshMode
  param : UInt32
  tiles : Nat
  cursor : Nat

/-- Whether frame `frameIndex` is a full refresh. -/
def RefreshPolicy.forced (p : RefreshPolicy) (frameIndex : UInt32) : Bool :=
  frameIndex = 0
    ∨ (p.mode = .fullPeriodic ∧ p.param ≠ 0 ∧ frameIndex % p.param = 0)

/-- Mark the tile at the cursor and move on. -/
def RefreshPolicy.mark (s : RefreshPolicy × (Nat → Bool)) : RefreshPolicy × (Nat → Bool) :=
  let (p, dirty) := s
  ({ p with cursor := if p.cursor + 1 = p.tiles then 0 else p.cursor + 1 },
    Function.update dirty p.cursor true)

/-- Rolling mode: mark the next `param` tiles, round-robin. -/
def RefreshPolicy.apply (p : RefreshPolicy) (dirty : Nat → Bool) :
    RefreshPolicy × (Nat → Bool) :=
  if p.mode ≠ .rolling ∨ p.param = 0 ∨ p.tiles = 0 then (p, dirty)
  else RefreshPolicy.mark^[min p.param.toNat p.tiles] (p, dirty)

-- ============================================================== encoder

structure Encoder where
  cfg : Config
  layout : Layout
  cur : Planes
  lastCoded : Planes
  recon : Planes
  /-- Natural order. -/
  q : Bool → Nat → Nat
  policy : RefreshPolicy
  threads : Nat
  frameNum : UInt32
  frameIndex : UInt32
  keyframeRequest : Bool
  audioQueue : List Int
  audioLms : Nat → Qoa.Lms
  /-- Remainder of the samples-per-frame division. -/
  audioRem : Nat

/-- `init`; `hardware` is `std::thread::hardware_concurrency ()`. -/
def Encoder.init (hardware : Nat) (cfg : Config) : Except String Encoder :=
  match cfg.error with
  | some e => .error e
  | none =>
      let layout := makeLayout cfg.width.toNat cfg.height.toNat cfg.tileW.toNat cfg.tileH.toNat
      let threads := if 0 < cfg.threads then cfg.threads.toNat else hardware
      .ok
        { cfg, layout
          cur := Planes.alloc layout
          lastCoded := Planes.alloc layout
          recon := Planes.alloc layout
          q := buildQuantTables cfg.quality.toNat
          policy := { mode := cfg.mode, param := cfg.refreshParam, tiles := layout.tiles, cursor := 0 }
          threads := max 1 (min threads 256)
          frameNum := 0
          frameIndex := 0
          keyframeRequest := false
          audioQueue := []
          audioLms := fun _ => Qoa.initLms
          audioRem := 0 }

def Encoder.streamHeader (e : Encoder) : StreamHeader :=
  { width := e.cfg.width
    height := e.cfg.height
    tileW := e.cfg.tileW
    tileH := e.cfg.tileH
    chromaFormat := 0
    refreshMode := e.cfg.mode
    refreshParam := e.cfg.refreshParam.toUInt16
    quality := e.cfg.quality
    version := 2
    fpsNum := e.cfg.fpsNum
    fpsDen := e.cfg.fpsDen
    audioCodec := if e.cfg.audioChannels ≠ 0 then 1 else 0
    audioChannels := e.cfg.audioChannels
    audioRate := e.cfg.audioRate }

/-- The next frame becomes a full refresh. -/
def Encoder.forceKeyframe (e : Encoder) : Encoder := { e with keyframeRequest := true }

/-- The chunks of `parallel_for`, worker by worker. -/
def chunks (threads n minPerThread : Nat) : List (Nat × Nat) :=
  let workers := min threads (n / max 1 minPerThread)
  if workers ≤ 1 then (if 0 < n then [(0, n)] else [])
  else (List.range workers).map fun w => (n * w / workers, n * (w + 1) / workers)

-- ============================================================ input frame

/-- One plane of the input: where row `r`, column `x` is read from. -/
structure Picture where
  src : Fin 3 → Nat → UInt8
  stride : Fin 3 → Nat

/-- A tightly packed YUV420P frame. -/
def Picture.packed (l : Layout) (yuv : Nat → UInt8) : Picture :=
  let ys := l.width * l.height
  let cs := l.cwidth * l.cheight
  { src := fun c i => yuv ((![0, ys, ys + cs] : Fin 3 → Nat) c + i)
    stride := ![l.width, l.cwidth, l.cwidth] }

def planeHeight (l : Layout) (c : Fin 3) : Nat := if c = 0 then l.pheight else l.pcheight

/-- The padded plane: the last column and the last row go on. -/
def loadPlane (l : Layout) (pic : Picture) (c : Fin 3) (pw : Nat) : Array UInt8 :=
  let (w, h) := visibleSize l c
  Array.ofFn fun i : Fin (pw * planeHeight l c) =>
    pic.src c (min (i / pw) (h - 1) * pic.stride c + min (i % pw) (w - 1))

def Encoder.load (e : Encoder) (pic : Picture) : Encoder :=
  { e with cur := { e.cur with p := fun c => loadPlane e.layout pic c (e.cur.stride c) } }

-- ====================================================== change detection

/-- One row of a sum of absolute differences. -/
def sadRow (a b : Array UInt8) (off w : Nat) : Nat :=
  ((List.range w).map fun x =>
    ((a.getD (off + x) 0).toNat - (b.getD (off + x) 0).toNat : Int).natAbs).sum

/-- Sum of absolute differences from row `y` on, given up once it
exceeds `limit`. -/
def sad (a b : Array UInt8) (off stride w limit : Nat) : (rows : Nat) → (y total : Nat) → Nat
  | 0, _, total => total
  | rows + 1, y, total =>
      let total := total + sadRow a b (off + y * stride) w
      if limit < total then total else sad a b off stride w limit rows (y + 1) total

/-- Judged per 8x8 block, so that a small moving object is not averaged
away in a big tile. -/
def Encoder.tileChanged (e : Encoder) (tile : Nat) : Bool :=
  let ref := match e.cfg.reference with
    | .reconstructed => e.recon
    | .lastCoded => e.lastCoded
  let k := e.cfg.motionThresholdK.toNat
  [0, 1, 2].any fun c =>
    let r := tileRect e.layout tile c
    let s := e.cur.stride c
    (blockOrigins r.w r.h).any fun (y, x) =>
      let bw := min 8 (r.w - x)
      let bh := min 8 (r.h - y)
      let limit := k * (bw * bh)
      limit < sad (e.cur.p c) (ref.p c) ((r.y + y) * s + r.x + x) s bw limit bh 0 0

-- =========================================================== tile coding

/-- An 8x8 block of a plane; a partial one goes on with its last column
and row. -/
def loadBlock (src : Array UInt8) (off stride bw bh : Nat) : Block UInt8 := fun n =>
  src.getD (off + min (n / 8) (bh - 1) * stride + min (n % 8) (bw - 1)) 0

/-- A coefficient at zigzag position `k`: quantised by 8 times its table
entry (the forward DCT's scale included) and limited. -/
def quantise (q : Nat → Nat) (dct : Block Int32) (k : Nat) : Int :=
  let qdiv : UInt32 := .ofNat (q (zigzag k) * 8)
  min 1023 (max (-1023) (quantDiv (dct (zigzag k)) qdiv (quantRecip qdiv)).toInt)

/-- Shadow decode: the dequantisation and the clamp of `decode_block`. -/
def dequantise (q : Nat → Nat) (zz : Nat → Int) : Block Int32 :=
  (List.range 64).foldl
    (fun deq k => Function.update deq (zigzag k) (clampCoef (zz k * q (zigzag k)))) fun _ => 0

/-- What a block decodes to. -/
def shadowBlock (q : Nat → Nat) (zz : Nat → Int) : Block UInt8 :=
  let deq := dequantise q zz
  let hasAc := (List.range' 1 63).any fun k => zz k ≠ 0
  if hasAc then idct8x8 deq else idct8x8Dc (deq 0)

/-- The blocks of one component, the next ones in the list, with the
shadow plane. -/
def encodeBlocks (q : Nat → Nat) (table : Bool) (r : Rect) (stride : Nat) (cur : Array UInt8) :
    List (Nat × Nat) → BitWriter → Int → Array UInt8 → BitWriter × Array UInt8
  | [], bw, _, recon => (bw, recon)
  | (y, x) :: rest, bw, pred, recon =>
      let off := (r.y + y) * stride + r.x + x
      let w := min 8 (r.w - x)
      let h := min 8 (r.h - y)
      let zz := quantise q (fdct8x8 (loadBlock cur off stride w h))
      let (bw, pred) := encodeBlock bw zz pred table
      encodeBlocks q table r stride cur rest bw pred
        (storeBlock (shadowBlock q zz) recon off stride w h)

def encodeComps (l : Layout) (q : Bool → Nat → Nat) (cur : Planes) (tile : Nat) :
    List (Fin 3) → BitWriter → Planes → BitWriter × Planes
  | [], bw, recon => (bw, recon)
  | c :: cs, bw, recon =>
      let r := tileRect l tile c
      let (bw, plane) := encodeBlocks (q (compTable c)) (compTable c) r (cur.stride c) (cur.p c)
        (blockOrigins r.w r.h) bw 0 (recon.p c)
      encodeComps l q cur tile cs bw (recon.setPlane c plane)

/-- The length and the payload of a tile, and the shadow planes after
it. -/
def Encoder.encodeTile (e : Encoder) (tile : Nat) : List UInt8 × Encoder :=
  let (bw, recon) := encodeComps e.layout e.q e.cur tile [0, 1, 2] {} e.recon
  let payload := bw.flush
  (putU16 (.ofNat payload.length) ++ payload, { e with recon })

/-- One row of a tile from one plane into another. -/
def copyRow (src dst : Array UInt8) (off w : Nat) : Array UInt8 :=
  storeRow dst off (fun x => src.getD (off + x) 0) w

def copyTile (l : Layout) (src dst : Planes) (tile : Nat) : Planes :=
  [0, 1, 2].foldl
    (fun dst c =>
      let r := tileRect l tile c
      let s := src.stride c
      dst.setPlane c ((List.range r.h).foldl
        (fun a y => copyRow (src.p c) a ((r.y + y) * s + r.x) r.w) (dst.p c)))
    dst

-- ================================================================ frames

/-- Tile `t` on worker `out`. -/
def Encoder.codeTile (s : List UInt8 × Encoder) (t : Nat) : List UInt8 × Encoder :=
  let (bytes, e) := s.2.encodeTile t
  (s.1 ++ bytes, { e with lastCoded := copyTile e.layout e.cur e.lastCoded t })

/-- The dirty tiles, chunk by chunk; a chunk's output is its worker's
own and is joined to the others in worker order. -/
def Encoder.codeTiles (e : Encoder) (dirty : List Nat) (minPerThread : Nat) :
    List UInt8 × Encoder :=
  (chunks e.threads dirty.length minPerThread).foldl
    (fun s (b, n) =>
      let (wout, e) := ((dirty.drop b).take (n - b)).foldl Encoder.codeTile ([], s.2)
      (s.1 ++ wout, e))
    ([], e)

/-- Which tiles differ from the reference. -/
def Encoder.changed (e : Encoder) (minPerThread : Nat) : Nat → Bool :=
  (chunks e.threads e.layout.tiles minPerThread).foldl
    (fun dirty (b, n) =>
      (List.range' b (n - b)).foldl (fun d t => Function.update d t (e.tileChanged t)) dirty)
    fun _ => false

/-- Samples per channel that go with the next frame. -/
def Encoder.samplesForNextFrame (e : Encoder) : Nat :=
  if e.cfg.audioChannels = 0 then 0
  else (e.audioRem + e.cfg.audioRate.toNat * e.cfg.fpsDen.toNat) / e.cfg.fpsNum.toNat

/-- Queues `samplesPerChannel` interleaved samples of every channel. -/
def Encoder.pushAudio (e : Encoder) (interleaved : Nat → Int16) (samplesPerChannel : Nat) :
    Encoder :=
  let n := samplesPerChannel * e.cfg.audioChannels.toNat
  { e with audioQueue := e.audioQueue ++ (List.range n).map fun i => (interleaved i).toInt }

/-- One QOA frame of a record: `kMaxFrameLen` samples but for the
last. -/
def encodeAudioFrame (queue : List Int) (channels rate samples : Nat)
    (s : (Nat → Qoa.Lms) × List UInt8) (j : Nat) : (Nat → Qoa.Lms) × List UInt8 :=
  let off := Qoa.kMaxFrameLen * j
  let n := min (samples - off) Qoa.kMaxFrameLen
  let (lms, bytes) := Qoa.encodeFrame
    (fun i => queue.getD (off * channels + i) 0) channels rate n s.1
  (lms, s.2 ++ bytes)

def encodeAudioFrames (queue : List Int) (channels rate samples : Nat)
    (lms : Nat → Qoa.Lms) : (Nat → Qoa.Lms) × List UInt8 :=
  (List.range ((samples + Qoa.kMaxFrameLen - 1) / Qoa.kMaxFrameLen)).foldl
    (encodeAudioFrame queue channels rate samples) (lms, [])

structure AudioOut where
  bytes : List UInt8
  samples : Nat
  padded : Nat

/-- The audio field of a record: a length and the data. -/
def Encoder.encodeAudio (e : Encoder) : AudioOut × Encoder :=
  let ch := e.cfg.audioChannels.toNat
  if ch = 0 then ({ bytes := [], samples := 0, padded := 0 }, e)
  else
    let t := e.audioRem + e.cfg.audioRate.toNat * e.cfg.fpsDen.toNat
    let samples := t / e.cfg.fpsNum.toNat
    let queued := e.audioQueue.length / ch
    let queue :=
      if queued < samples then
        e.audioQueue ++ List.replicate (samples * ch - e.audioQueue.length) 0
      else e.audioQueue
    let coded := encodeAudioFrames queue ch e.cfg.audioRate.toNat samples e.audioLms
    ({ bytes := putU32 (.ofNat coded.2.length) ++ coded.2
       samples
       padded := samples - queued },
      { e with
        audioRem := t % e.cfg.fpsNum.toNat
        audioQueue := queue.drop (samples * ch)
        audioLms := coded.1 })

/-- The tiles of a frame, with the policy after it. -/
def Encoder.markDirty (e : Encoder) (force : Bool) : RefreshPolicy × (Nat → Bool) :=
  if force then (e.policy, fun _ => true)
  else e.policy.apply (e.changed (max 1 (32768 / (e.layout.tileW * e.layout.tileH))))

/-- Encodes one frame: the record, its stats, the encoder after it. -/
def Encoder.encodeFrame (e : Encoder) (pic : Picture) : List UInt8 × FrameStats × Encoder :=
  let e := e.load pic
  let force := e.keyframeRequest || e.policy.forced e.frameIndex
  let tiles := e.layout.tiles
  let marked := e.markDirty force
  let dirtyList := (List.range tiles).filter marked.2
  let hdr := putU32 e.frameNum ++ [if force then 1 else 0]
  let bitmap := if force then [] else packBitmap marked.2 tiles
  let coded := { e with policy := marked.1, keyframeRequest := false }.codeTiles dirtyList
    (max 1 (8192 / (e.layout.tileW * e.layout.tileH)))
  let audio := coded.2.encodeAudio
  let out := hdr ++ (bitmap ++ (coded.1 ++ audio.1.bytes))
  (out,
    { frameNum := e.frameNum
      forceRefresh := force
      dirtyTiles := dirtyList.length
      totalTiles := tiles
      bytes := out.length
      audioSamples := audio.1.samples % 2 ^ 32
      audioBytes := audio.1.bytes.length - 4
      audioPadded := audio.1.padded % 2 ^ 32 },
    { audio.2 with frameNum := e.frameNum + 1, frameIndex := e.frameIndex + 1 })

/-- The encoder's shadow copy as tightly packed YUV420P. -/
def Encoder.copyRecon (e : Encoder) : List UInt8 := copyCropped e.recon e.layout

-- ================================================================== runs

/-- What a user of the encoder does after `init`. -/
inductive Call
  | pushAudio (interleaved : Nat → Int16) (samplesPerChannel : Nat)
  | forceKeyframe
  | encodeFrame (pic : Picture)

/-- A frame as it left the encoder: its record, and the shadow planes
at that moment. -/
structure Record where
  bytes : List UInt8
  stats : FrameStats
  recon : Planes

def Encoder.run : Encoder → List Call → List Record
  | _, [] => []
  | e, .pushAudio interleaved n :: calls => (e.pushAudio interleaved n).run calls
  | e, .forceKeyframe :: calls => e.forceKeyframe.run calls
  | e, .encodeFrame pic :: calls =>
      let r := e.encodeFrame pic
      { bytes := r.1, stats := r.2.1, recon := r.2.2.recon } :: r.2.2.run calls

end Ncmips.Tjc
