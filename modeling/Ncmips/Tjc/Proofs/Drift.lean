/-
No drift: a decoder that is fed what an encoder writes shows what the
encoder believes it shows, frame after frame.

`Encoder.Inv` is what `init` establishes and every call keeps;
`Decoder.Tracks d e` is the relation between the two sides: same
geometry, same tables, and the decoder's planes are the encoder's
shadow planes. One record takes related states to related states and is
consumed to the byte (`Encoder.encodeFrame_decodes`), and the run
theorem is the induction over the calls.

Worker threads disappear here: the chunks of `parallel_for` are a
partition of the dirty list in order (`chunks_partition`), so the joined
outputs are what one worker would have written.
-/
import Ncmips.Tjc.Proofs.Tile
import Ncmips.Tjc.Proofs.Audio
import Ncmips.Tjc.Proofs.Format

namespace Ncmips.Tjc

open Bits (byteAt)

variable {σ : Type}

-- ================================================================ chunks

theorem take_succ_chunk {α : Type} (l : List α) {a b : Nat} (h : a ≤ b) :
    l.take a ++ (l.drop a).take (b - a) = l.take b := by
  rw [← List.take_add, Nat.add_sub_cancel' h]

/-- The chunks cut a list into consecutive pieces, one per worker. -/
theorem chunks_partition {α : Type} (l : List α) (threads minPerThread : Nat) :
    ((chunks threads l.length minPerThread).flatMap fun (b, n) => (l.drop b).take (n - b)) = l := by
  obtain ⟨workers, hworkers⟩ : ∃ w, w = min threads (l.length / max 1 minPerThread) := ⟨_, rfl⟩
  simp only [chunks, ← hworkers]
  split
  · split
    · simp
    · next h0 => simp [List.length_eq_zero_iff.1 (by omega : l.length = 0)]
  · next hmany =>
    have hpre : ∀ m ≤ workers,
        (((List.range m).map fun w =>
            (l.length * w / workers, l.length * (w + 1) / workers)).flatMap
          fun (b, n) => (l.drop b).take (n - b)) = l.take (l.length * m / workers) := by
      intro m
      induction m with
      | zero => simp
      | succ m ih =>
          intro hm
          rw [List.range_succ, List.map_append, List.flatMap_append, ih (by omega)]
          simp only [List.map_cons, List.map_nil, List.flatMap_cons, List.flatMap_nil,
            List.append_nil]
          exact take_succ_chunk l (Nat.div_le_div_right (Nat.mul_le_mul_left _ (by omega)))
    rw [hpre workers le_rfl, Nat.mul_div_cancel _ (by omega), List.take_length]

-- =========================================================== frame facts

theorem encodeComps_stride (l : Layout) (q : Bool → Nat → Nat) (cur : Planes) (tile : Nat)
    (cs : List (Fin 3)) (bw : BitWriter) (fb : Planes) :
    (encodeComps l q cur tile cs bw fb).2.stride = fb.stride := by
  induction cs generalizing bw fb with
  | nil => rfl
  | cons c cs ih => exact ih _ _

/-- What tile coding leaves alone. -/
theorem Encoder.encodeTile_frame (e : Encoder) (tile : Nat) :
    ∃ recon, (e.encodeTile tile).2 = { e with recon } ∧ recon.stride = e.recon.stride :=
  ⟨(encodeComps e.layout e.q e.cur tile [0, 1, 2] {} e.recon).2, rfl, encodeComps_stride ..⟩

-- ================================================================= tiles

/-- The tiles of a record, coded and decoded. -/
theorem Encoder.codeTile_decodes (fn : Source σ) (ts : List Nat) :
    ∀ (e : Encoder) (acc : List UInt8), 1 ≤ e.layout.tileW → 1 ≤ e.layout.tileH →
      worstCaseTileBytes e.layout.tileW e.layout.tileH ≤ kMaxTilePayload →
      e.recon.stride = e.cur.stride →
      ∃ out recon lastCoded, ts.foldl Encoder.codeTile (acc, e)
          = (acc ++ out, { e with recon, lastCoded })
        ∧ recon.stride = e.recon.stride
        ∧ ∀ (d : Decoder) (s : σ) (rest : List UInt8) (bytes count : Nat),
          d.layout = e.layout → d.dq = (fun t k => e.q t (zigzag k)) → d.fb = e.recon →
          fn.left s = out ++ rest →
          ∃ s', Decoder.decodeTiles fn ts d s bytes count
              = ⟨.ok, { d with fb := recon }, s', bytes + out.length, count + ts.length⟩
            ∧ fn.left s' = rest := by
  induction ts with
  | nil =>
      intro e acc _ _ _ _
      refine ⟨[], e.recon, e.lastCoded, by simp, rfl, ?_⟩
      intro d s rest bytes count hl hdq hfb hs
      refine ⟨s, ?_, hs⟩
      rw [← hfb]
      rfl
  | cons t ts ih =>
      intro e acc hw hh hworst hstride
      obtain ⟨payload, hbytes, hpos, hle, hdec⟩ := e.encodeTile_coded t hw hh hstride
      obtain ⟨recon₁, heq, hstride₁⟩ := e.encodeTile_frame t
      set e₁ : Encoder := { e with
        recon := recon₁, lastCoded := copyTile e.layout e.cur e.lastCoded t } with he₁
      obtain ⟨out, recon, lastCoded, hfold, hstride₂, hrest⟩ :=
        ih e₁ (acc ++ (e.encodeTile t).1) hw hh hworst (hstride₁.trans hstride)
      refine ⟨(e.encodeTile t).1 ++ out, recon, lastCoded, ?_, hstride₂.trans hstride₁, ?_⟩
      · have hstep : Encoder.codeTile (acc, e) t = (acc ++ (e.encodeTile t).1, e₁) := by
          simp only [Encoder.codeTile, heq, he₁]
        rw [List.foldl_cons, hstep, hfold, List.append_assoc]
      · intro d s rest bytes count hl hdq hfb hs
        rw [hbytes, List.append_assoc, List.append_assoc] at hs
        obtain ⟨hlen, hs₁⟩ := fn.readFull_append hs
        obtain ⟨hpay, hs₂⟩ := fn.readFull_append hs₁
        rw [putU16_length] at hlen hs₁ hpay hs₂
        have hu : (UInt32.ofNat payload.length).toNat = payload.length := by
          rw [UInt32.toNat_ofNat', Nat.mod_eq_of_lt (by unfold kMaxTilePayload at hworst; omega)]
        have hget : getU16 (putU16 (.ofNat payload.length)) = payload.length := by
          rw [← List.append_nil (putU16 _), getU16_put, hu,
            Nat.mod_eq_of_lt (by unfold kMaxTilePayload at hworst; omega)]
        have hd := hdec d hl hdq hfb
        rw [heq] at hd
        obtain ⟨s', hrun, hs'⟩ := hrest { d with fb := recon₁ } _ rest
          (bytes + (2 + payload.length)) (count + 1) hl hdq rfl hs₂
        refine ⟨s', ?_, hs'⟩
        simp only [Decoder.decodeTiles, hlen, putU16_length, hget, hpay, Nat.lt_irrefl, if_false,
          if_neg (show ¬ payload.length = 0 by omega), hd, reduceCtorEq]
        rw [hrun, hbytes]
        simp only [List.length_append, putU16_length, List.length_cons, TileRun.mk.injEq, true_and]
        omega

theorem Encoder.codeTile_acc (ts : List Nat) : ∀ (acc : List UInt8) (e : Encoder),
    ts.foldl Encoder.codeTile (acc, e)
      = (acc ++ (ts.foldl Encoder.codeTile ([], e)).1, (ts.foldl Encoder.codeTile ([], e)).2) := by
  induction ts with
  | nil => intro acc e; simp
  | cons t ts ih =>
      intro acc e
      rw [List.foldl_cons, List.foldl_cons]
      simp only [Encoder.codeTile]
      rw [ih, ih ([] ++ _)]
      simp

theorem Encoder.codeTile_join (dirty : List Nat) (cs : List (Nat × Nat)) :
    ∀ s : List UInt8 × Encoder,
      cs.foldl (fun s (b, n) =>
          let (wout, e) := ((dirty.drop b).take (n - b)).foldl Encoder.codeTile ([], s.2)
          (s.1 ++ wout, e)) s
        = (cs.flatMap fun (b, n) => (dirty.drop b).take (n - b)).foldl Encoder.codeTile s := by
  induction cs with
  | nil => intro s; rfl
  | cons c cs ih =>
      intro s
      rw [List.foldl_cons, List.flatMap_cons, List.foldl_append, ih]
      congr 1
      exact (Encoder.codeTile_acc _ s.1 s.2).symm

/-- Joined worker outputs are one worker's output. -/
theorem Encoder.codeTiles_eq (e : Encoder) (dirty : List Nat) (minPerThread : Nat) :
    e.codeTiles dirty minPerThread = dirty.foldl Encoder.codeTile ([], e) := by
  rw [Encoder.codeTiles, Encoder.codeTile_join, chunks_partition]

-- ================================================================= audio

/-- Validity of what `init` takes, as far as audio is concerned. -/
structure Encoder.AudioOk (e : Encoder) : Prop where
  channels_le : e.cfg.audioChannels.toNat ≤ Qoa.kMaxChannels
  rate_lt : e.cfg.audioChannels ≠ 0 → e.cfg.audioRate.toNat < 2 ^ 24
  num_pos : 0 < e.cfg.fpsNum.toNat
  rem_lt : e.audioRem < e.cfg.fpsNum.toNat

/-- A record's audio is never more than the decoder expects of a
frame. -/
theorem Encoder.AudioOk.samples_le {e : Encoder} (h : e.AudioOk) :
    (e.audioRem + e.cfg.audioRate.toNat * e.cfg.fpsDen.toNat) / e.cfg.fpsNum.toNat
      ≤ e.cfg.audioRate.toNat * e.cfg.fpsDen.toNat / e.cfg.fpsNum.toNat + 1 := by
  have hpos := h.num_pos
  rw [← Nat.add_div_right _ hpos]
  exact Nat.div_le_div_right (by have := h.rem_lt; omega)

/-- The audio field of a record is taken whole. -/
theorem Encoder.encodeAudio_decodes (fn : Source σ) (e : Encoder) (h : e.AudioOk)
    (hch : e.cfg.audioChannels ≠ 0) (hlen : e.encodeAudio.1.bytes.length - 4 < 2 ^ 32)
    (d : Decoder) (hd : d.header.audioChannels = e.cfg.audioChannels
      ∧ d.header.audioRate = e.cfg.audioRate ∧ d.header.fpsNum = e.cfg.fpsNum
      ∧ d.header.fpsDen = e.cfg.fpsDen)
    {s : σ} {rest : List UInt8} (hs : fn.left s = e.encodeAudio.1.bytes ++ rest) :
    ∃ s' audio n, d.decodeAudio fn s
        = (.ok, { d with audio, audioSamples := n }, s', e.encodeAudio.1.bytes.length)
      ∧ fn.left s' = rest := by
  have hch0 : ¬ e.cfg.audioChannels.toNat = 0 := by
    intro h0
    exact hch (UInt8.toNat_inj.1 h0)
  set samples := (e.audioRem + e.cfg.audioRate.toNat * e.cfg.fpsDen.toNat) / e.cfg.fpsNum.toNat
    with hsamples
  have hbytes : ∃ queue, e.encodeAudio.1.bytes
      = putU32 (.ofNat (encodeAudioFrames queue e.cfg.audioChannels.toNat e.cfg.audioRate.toNat
          samples e.audioLms).2.length)
        ++ (encodeAudioFrames queue e.cfg.audioChannels.toNat e.cfg.audioRate.toNat
          samples e.audioLms).2 := by
    simp only [Encoder.encodeAudio, if_neg hch0]
    exact ⟨_, rfl⟩
  obtain ⟨queue, hbytes⟩ := hbytes
  obtain ⟨hnum, hden, hrate, hchan⟩ : d.header.fpsNum = e.cfg.fpsNum
      ∧ d.header.fpsDen = e.cfg.fpsDen ∧ d.header.audioRate = e.cfg.audioRate
      ∧ d.header.audioChannels = e.cfg.audioChannels := ⟨hd.2.2.1, hd.2.2.2, hd.2.1, hd.1⟩
  have hmax : samples + Qoa.kMaxFrameLen ≤ d.header.maxSamples + 1 := by
    have := h.samples_le
    simp only [StreamHeader.maxSamples, hnum, hden, hrate]
    omega
  have hall := decodeAudioFrames_all queue (Nat.pos_of_ne_zero hch0) h.channels_le (h.rate_lt hch) hmax e.audioLms
  simp only at hall
  obtain ⟨hsize, hdec⟩ := hall
  set data := (encodeAudioFrames queue e.cfg.audioChannels.toNat e.cfg.audioRate.toNat
    samples e.audioLms).2 with hdata
  have hlen' : data.length < 2 ^ 32 := by
    rw [hbytes, List.length_append, putU32_length] at hlen
    omega
  have hget : getU32 (putU32 (.ofNat data.length)) = data.length := by
    rw [← List.append_nil (putU32 _), getU32_put, UInt32.toNat_ofNat', Nat.mod_eq_of_lt hlen']
  have hroom : ¬ d.header.maxAudioLen < data.length := by
    have hframes : (samples + Qoa.kMaxFrameLen - 1) / Qoa.kMaxFrameLen
        ≤ d.header.maxSamples / Qoa.kMaxFrameLen + 1 := by
      simp only [Qoa.kMaxFrameLen, Qoa.kSliceLen] at *
      omega
    have := Nat.mul_le_mul_left (Qoa.frameSize e.cfg.audioChannels.toNat Qoa.kMaxFrameLen) hframes
    simp only [StreamHeader.maxAudioLen, hchan]
    omega
  rw [hbytes, List.append_assoc] at hs
  obtain ⟨hfield, hs₁⟩ := fn.readFull_append hs
  rw [putU32_length] at hfield hs₁
  obtain ⟨hpay, hs₂⟩ := fn.readFull_append hs₁
  obtain ⟨audio', hdec⟩ := hdec d.audio
  refine ⟨_, audio', samples, ?_, hs₂⟩
  simp only [Decoder.decodeAudio, hfield, putU32_length, Nat.lt_irrefl, if_false, hget, hroom,
    hpay, hchan, hrate, hdec]
  rw [hbytes, List.length_append, putU32_length]

-- ============================================================ invariants

/-- The checks of `init`, one by one. -/
structure Config.Accepted (cfg : Config) : Prop where
  geometry : validateGeometry cfg.width.toNat cfg.height.toNat cfg.tileW.toNat cfg.tileH.toNat
    = none
  quality : ¬ (cfg.quality < 1 ∨ 100 < cfg.quality)
  rate : ¬ (cfg.fpsNum = 0 ∨ cfg.fpsDen = 0)
  audio : ¬ (Qoa.kMaxChannels < cfg.audioChannels.toNat
    ∨ (cfg.audioChannels ≠ 0 ∧ (cfg.audioRate < 1 ∨ 0xffffff < cfg.audioRate)))

theorem Config.accepted {cfg : Config} (h : cfg.error = none) : cfg.Accepted := by
  unfold Config.error at h
  split at h
  · cases h
  · next hgeo =>
    split_ifs at h with hq hp hm hr ha
    exact ⟨hgeo, hq, hr, ha⟩

/-- A usable geometry: tiles are not empty and their payloads fit. -/
theorem validateGeometry_none {w h tw th : Nat} (hv : validateGeometry w h tw th = none) :
    1 ≤ tw ∧ 1 ≤ th ∧ worstCaseTileBytes tw th ≤ kMaxTilePayload := by
  unfold validateGeometry at hv
  split_ifs at hv
  omega

/-- What `init` establishes and every call keeps. -/
structure Encoder.Inv (e : Encoder) : Prop where
  accepted : e.cfg.Accepted
  layout_eq : e.layout
    = makeLayout e.cfg.width.toNat e.cfg.height.toNat e.cfg.tileW.toNat e.cfg.tileH.toNat
  q_eq : e.q = buildQuantTables e.cfg.quality.toNat
  stride : e.recon.stride = e.cur.stride
  rem_lt : e.audioRem < e.cfg.fpsNum.toNat

variable {e : Encoder}

theorem Encoder.inv_init {hardware : Nat} {cfg : Config} (h : Encoder.init hardware cfg = .ok e) :
    e.Inv ∧ e.cfg = cfg ∧ e.recon = Planes.alloc e.layout := by
  unfold Encoder.init at h
  split at h
  · cases h
  · next hnone =>
    have hacc := Config.accepted hnone
    cases h
    refine ⟨⟨hacc, rfl, rfl, rfl, ?_⟩, rfl, rfl⟩
    exact Nat.pos_of_ne_zero fun h0 => hacc.rate (Or.inl (UInt32.toNat_inj.1 h0))

/-- A config without an error is all that `init` needs. -/
theorem Encoder.init_ok (hardware : Nat) {cfg : Config} (h : cfg.error = none) :
    ∃ e, Encoder.init hardware cfg = .ok e := by
  simp only [Encoder.init, h]
  exact ⟨_, rfl⟩

theorem Encoder.Inv.audioOk (h : e.Inv) : e.AudioOk where
  channels_le := by
    have := h.accepted.audio
    omega
  rate_lt := by
    intro hch
    have hrate : ¬ 0xffffff < e.cfg.audioRate := fun hlt =>
      h.accepted.audio (Or.inr ⟨hch, Or.inr hlt⟩)
    rw [UInt32.lt_iff_toNat_lt, show (0xffffff : UInt32).toNat = 2 ^ 24 - 1 from rfl] at hrate
    omega
  num_pos := (Nat.zero_le _).trans_lt h.rem_lt
  rem_lt := h.rem_lt

/-- The header an encoder sends is one a decoder takes. -/
theorem Encoder.Inv.valid (h : e.Inv) : e.streamHeader.Valid where
  version := rfl
  chroma := rfl
  quality := h.accepted.quality
  rate := by
    have hcodec : ¬ 1 < e.streamHeader.audioCodec := by
      unfold Encoder.streamHeader
      dsimp only
      split <;> decide
    exact fun hbad => hbad.elim (fun h0 => h.accepted.rate (Or.inl h0)) fun hbad =>
      hbad.elim (fun h0 => h.accepted.rate (Or.inr h0)) hcodec
  audio := by
    intro hcodec
    have hch : e.cfg.audioChannels ≠ 0 := by
      intro h0
      exact hcodec (by simp [Encoder.streamHeader, h0])
    have haudio := h.accepted.audio
    have hpos : ¬ e.cfg.audioChannels < 1 := by
      rw [UInt8.lt_iff_toNat_lt]
      intro hlt
      exact hch (UInt8.toNat_inj.1 (by simpa using hlt))
    simp only [Encoder.streamHeader]
    tauto
  geometry := h.accepted.geometry

/-- A decoder that shows the encoder's shadow planes. -/
structure Decoder.Tracks (d : Decoder) (e : Encoder) : Prop where
  ready : d.ready = true
  header_eq : d.header = e.streamHeader.sent
  layout_eq : d.layout = e.layout
  dq_eq : d.dq = fun t k => e.q t (zigzag k)
  fb_eq : d.fb = e.recon

theorem sent_audio (e : Encoder) :
    (e.streamHeader.sent.audioCodec ≠ 0 ↔ e.cfg.audioChannels ≠ 0)
      ∧ (e.cfg.audioChannels ≠ 0 → e.streamHeader.sent.audioChannels = e.cfg.audioChannels
        ∧ e.streamHeader.sent.audioRate = e.cfg.audioRate)
      ∧ e.streamHeader.sent.fpsNum = e.cfg.fpsNum ∧ e.streamHeader.sent.fpsDen = e.cfg.fpsDen := by
  by_cases h0 : e.cfg.audioChannels = 0 <;> simp [StreamHeader.sent, Encoder.streamHeader, h0]

-- ================================================================ frames

/-- The audio of a frame leaves the pictures alone. -/
theorem Encoder.encodeAudio_frame (e : Encoder) (hpos : 0 < e.cfg.fpsNum.toNat)
    (hrem : e.audioRem < e.cfg.fpsNum.toNat) :
    ∃ rem queue lms, e.encodeAudio.2
        = { e with audioRem := rem, audioQueue := queue, audioLms := lms }
      ∧ rem < e.cfg.fpsNum.toNat := by
  unfold Encoder.encodeAudio
  dsimp only
  split
  · exact ⟨_, _, _, rfl, hrem⟩
  · exact ⟨_, _, _, rfl, Nat.mod_lt _ hpos⟩

/-- The audio field of a frame: there is none, or it is taken. -/
theorem Encoder.Inv.finishFrame (fn : Source σ) (h : e.Inv) {run : TileRun σ}
    (hrun : run.dec.Tracks e) {rest : List UInt8}
    (hs : fn.left run.src = e.encodeAudio.1.bytes ++ rest)
    (hlen : e.encodeAudio.1.bytes.length - 4 < 2 ^ 32) (frameNum : UInt32) (force : Bool) :
    let r := Decoder.finishFrame fn run frameNum force
    r.status = .ok ∧ fn.left r.src = rest ∧ r.dec.Tracks e := by
  obtain ⟨hcodec, hsent, hnum, hden⟩ := sent_audio e
  rw [← hrun.header_eq] at hcodec hsent hnum hden
  by_cases hch : e.cfg.audioChannels = 0
  · have hno : ¬ run.dec.header.audioCodec ≠ 0 := fun hne => hcodec.1 hne hch
    have hnil : e.encodeAudio.1.bytes = [] := by simp [Encoder.encodeAudio, hch]
    rw [hnil, List.nil_append] at hs
    simp only [Decoder.finishFrame, if_neg hno]
    rw [if_neg (by simp)]
    exact ⟨rfl, hs, hrun⟩
  · obtain ⟨s', audio, n, hdec, hs'⟩ := e.encodeAudio_decodes fn h.audioOk hch hlen run.dec
      ⟨(hsent hch).1, (hsent hch).2, hnum, hden⟩ hs
    simp only [Decoder.finishFrame, if_pos (hcodec.2 hch), hdec]
    rw [if_neg (by simp)]
    exact ⟨rfl, hs', hrun.ready, hrun.header_eq, hrun.layout_eq, hrun.dq_eq, hrun.fb_eq⟩

/-- The tiles a frame carries. -/
def Encoder.dirtyList (e : Encoder) (pic : Picture) : List Nat :=
  let force := e.keyframeRequest || e.policy.forced e.frameIndex
  (List.range e.layout.tiles).filter ((e.load pic).markDirty force).2

/-- The encoder when it starts on the tiles. -/
def Encoder.begun (e : Encoder) (pic : Picture) : Encoder :=
  let force := e.keyframeRequest || e.policy.forced e.frameIndex
  { e.load pic with
    policy := ((e.load pic).markDirty force).1
    keyframeRequest := false }

/-- The five bytes a record starts with. -/
def frameHeader (frameNum : UInt32) (force : Bool) : List UInt8 :=
  putU32 frameNum ++ [if force then 1 else 0]

@[simp] theorem frameHeader_length (frameNum : UInt32) (force : Bool) :
    (frameHeader frameNum force).length = kFrameHeaderSize := by
  simp [frameHeader, kFrameHeaderSize]

theorem byteAt_frameHeader (frameNum : UInt32) (force : Bool) :
    byteAt (frameHeader frameNum force) 4 = if force then 1 else 0 := rfl

/-- A frame from the code of its tiles: the parts of its record, and
the encoder after it. -/
theorem Encoder.encodeFrame_eq (e : Encoder) (pic : Picture) {out : List UInt8} {e₂ : Encoder}
    (hcoded : (e.dirtyList pic).foldl Encoder.codeTile ([], e.begun pic) = (out, e₂)) :
    let force := e.keyframeRequest || e.policy.forced e.frameIndex
    (e.encodeFrame pic).1 =
        frameHeader e.frameNum force
          ++ ((if force then []
              else packBitmap ((e.load pic).markDirty force).2 e.layout.tiles)
            ++ (out ++ e₂.encodeAudio.1.bytes))
      ∧ (e.encodeFrame pic).2.1.audioBytes = e₂.encodeAudio.1.bytes.length - 4
      ∧ (e.encodeFrame pic).2.2 =
        { e₂.encodeAudio.2 with
          frameNum := e.frameNum + 1, frameIndex := e.frameIndex + 1 } := by
  have hjoin : (Encoder.codeTiles (e.begun pic) (e.dirtyList pic)
      (max 1 (8192 / (e.layout.tileW * e.layout.tileH)))) = (out, e₂) := by
    rw [Encoder.codeTiles_eq, hcoded]
  refine ⟨?_, ?_, ?_⟩
  · show _ ++ (_ ++ ((Encoder.codeTiles (e.begun pic) (e.dirtyList pic)
      (max 1 (8192 / (e.layout.tileW * e.layout.tileH)))).1
        ++ (Encoder.codeTiles (e.begun pic) (e.dirtyList pic)
          (max 1 (8192 / (e.layout.tileW * e.layout.tileH)))).2.encodeAudio.1.bytes)) = _
    rw [hjoin]
    rfl
  · show (Encoder.codeTiles (e.begun pic) (e.dirtyList pic)
      (max 1 (8192 / (e.layout.tileW * e.layout.tileH)))).2.encodeAudio.1.bytes.length - 4 = _
    rw [hjoin]
  · show ({ (Encoder.codeTiles (e.begun pic) (e.dirtyList pic)
        (max 1 (8192 / (e.layout.tileW * e.layout.tileH)))).2.encodeAudio.2 with
        frameNum := e.frameNum + 1, frameIndex := e.frameIndex + 1 } : Encoder) = _
    rw [hjoin]

theorem getU32_frameHeader (frameNum : UInt32) (force : Bool) :
    UInt32.ofNat (getU32 (frameHeader frameNum force)) = frameNum := by
  rw [frameHeader, getU32_put]
  exact UInt32.ofNat_toNat

/-- A full refresh: every tile follows. -/
theorem Decoder.decodeFrame_forced (fn : Source σ) {d : Decoder} (hready : d.ready = true) {s : σ}
    {frameNum : UInt32} {tail : List UInt8} (hs : fn.left s = frameHeader frameNum true ++ tail) :
    ∃ s', fn.left s' = tail
      ∧ d.decodeFrame fn s = d.decodeBody fn s' frameNum true (fun _ => true)
          kFrameHeaderSize := by
  obtain ⟨hhdr, hs₁⟩ := fn.readFull_append hs
  rw [frameHeader_length] at hhdr hs₁
  refine ⟨_, hs₁, ?_⟩
  simp only [Decoder.decodeFrame, hhdr, hready, frameHeader_length, byteAt_frameHeader,
    getU32_frameHeader]
  rw [if_neg (by decide), if_neg (by decide), if_neg (by decide), if_neg (by decide),
    if_pos (by decide)]

/-- Otherwise the bitmap tells which. -/
theorem Decoder.decodeFrame_bitmap (fn : Source σ) {d : Decoder} (hready : d.ready = true) {s : σ}
    {frameNum : UInt32} {bitmap tail : List UInt8}
    (hlen : bitmap.length = (d.layout.tiles + 7) / 8)
    (hs : fn.left s = frameHeader frameNum false ++ (bitmap ++ tail)) :
    ∃ s', fn.left s' = tail
      ∧ d.decodeFrame fn s = d.decodeBody fn s' frameNum false (unpackBitmap bitmap)
          (kFrameHeaderSize + (d.layout.tiles + 7) / 8) := by
  obtain ⟨hhdr, hs₁⟩ := fn.readFull_append hs
  obtain ⟨hmap, hs₂⟩ := fn.readFull_append hs₁
  rw [frameHeader_length] at hhdr hmap hs₂
  rw [hlen] at hmap hs₂
  refine ⟨_, hs₂, ?_⟩
  simp only [Decoder.decodeFrame, hhdr, hready, frameHeader_length, byteAt_frameHeader,
    getU32_frameHeader, hmap]
  rw [if_neg (by decide), if_neg (by decide), if_neg (by decide), if_neg (by decide),
    if_neg (by decide), if_neg (by omega)]

/-- One record: it keeps the invariant, and a decoder that tracks the
encoder takes it whole and still tracks it. -/
theorem Encoder.encodeFrame_decodes (fn : Source σ) (h : e.Inv) (pic : Picture) :
    (e.encodeFrame pic).2.2.Inv ∧ (e.encodeFrame pic).2.2.cfg = e.cfg
      ∧ ((e.encodeFrame pic).2.1.audioBytes < 2 ^ 32 →
      ∀ (d : Decoder) (s : σ) (rest : List UInt8), d.Tracks e →
        fn.left s = (e.encodeFrame pic).1 ++ rest →
        (d.decodeFrame fn s).status = .ok ∧ fn.left (d.decodeFrame fn s).src = rest
          ∧ (d.decodeFrame fn s).dec.Tracks (e.encodeFrame pic).2.2) := by
  have hgeo := validateGeometry_none h.accepted.geometry
  rw [show e.cfg.tileW.toNat = (e.begun pic).layout.tileW by
      rw [show (e.begun pic).layout = e.layout from rfl, h.layout_eq]; rfl,
    show e.cfg.tileH.toNat = (e.begun pic).layout.tileH by
      rw [show (e.begun pic).layout = e.layout from rfl, h.layout_eq]; rfl] at hgeo
  obtain ⟨hw, hh, hworst⟩ := hgeo
  obtain ⟨out, recon, lastCoded, hcoded, hstride, htiles⟩ :=
    Encoder.codeTile_decodes fn (e.dirtyList pic) (e.begun pic) [] hw hh hworst h.stride
  rw [List.nil_append] at hcoded
  obtain ⟨hrec, hstats, hnext⟩ := e.encodeFrame_eq pic hcoded
  set e₂ : Encoder := { e.begun pic with recon, lastCoded }
  have hinv : e₂.Inv := ⟨h.accepted, h.layout_eq, h.q_eq, hstride.trans h.stride, h.rem_lt⟩
  obtain ⟨rem, queue, lms, haudio, hrem⟩ := e₂.encodeAudio_frame hinv.audioOk.num_pos hinv.rem_lt
  rw [hstats, hrec, hnext, haudio]
  refine ⟨⟨h.accepted, h.layout_eq, h.q_eq, hinv.stride, hrem⟩, rfl,
    fun hlen d s rest hd hs => ?_⟩
  -- what follows the bitmap, for either kind of record
  have hbody : ∀ (s : σ) (dirty : Nat → Bool) (frameNum : UInt32) (force : Bool) (bytes : Nat),
      (List.range d.layout.tiles).filter dirty = e.dirtyList pic →
      fn.left s = out ++ (e₂.encodeAudio.1.bytes ++ rest) →
      (d.decodeBody fn s frameNum force dirty bytes).status = .ok
        ∧ fn.left (d.decodeBody fn s frameNum force dirty bytes).src = rest
        ∧ (d.decodeBody fn s frameNum force dirty bytes).dec.Tracks e₂ := by
    intro s dirty frameNum force bytes hsame hs
    obtain ⟨s', hrun, hs'⟩ := htiles d s _ bytes 0 hd.layout_eq hd.dq_eq hd.fb_eq hs
    have htrack : Decoder.Tracks { d with fb := recon } e₂ :=
      ⟨hd.ready, hd.header_eq, hd.layout_eq, hd.dq_eq, rfl⟩
    simp only [Decoder.decodeBody, hsame, hrun]
    rw [if_neg (by simp)]
    exact hinv.finishFrame fn htrack hs' hlen frameNum force
  have hkeep : ∀ d' : Decoder, d'.Tracks e₂ → d'.Tracks
      { e₂ with
        audioRem := rem, audioQueue := queue, audioLms := lms
        frameNum := e.frameNum + 1, frameIndex := e.frameIndex + 1 } :=
    fun d' ht => ⟨ht.ready, ht.header_eq, ht.layout_eq, ht.dq_eq, ht.fb_eq⟩
  by_cases hforce : (e.keyframeRequest || e.policy.forced e.frameIndex) = true
  · rw [hforce, if_pos rfl, List.nil_append, List.append_assoc, List.append_assoc] at hs
    obtain ⟨s', hs', heq⟩ := Decoder.decodeFrame_forced fn hd.ready hs
    have hsame : (List.range d.layout.tiles).filter (fun _ => true) = e.dirtyList pic := by
      rw [hd.layout_eq]
      simp only [Encoder.dirtyList, Encoder.markDirty, hforce, if_true]
    rw [heq]
    obtain ⟨hst, hleft, htrack⟩ := hbody s' _ _ true _ hsame hs'
    exact ⟨hst, hleft, hkeep _ htrack⟩
  · rw [Bool.not_eq_true] at hforce
    rw [hforce, if_neg (by decide), List.append_assoc, List.append_assoc, List.append_assoc] at hs
    obtain ⟨s', hs', heq⟩ := Decoder.decodeFrame_bitmap fn hd.ready
      (by rw [packBitmap_length, hd.layout_eq]) hs
    have hsame : (List.range d.layout.tiles).filter (unpackBitmap
        (packBitmap ((e.load pic).markDirty false).2 e.layout.tiles)) = e.dirtyList pic := by
      rw [hd.layout_eq]
      simp only [Encoder.dirtyList, hforce]
      refine List.filter_congr fun t ht => ?_
      rw [unpack_packBitmap]
      simp [List.mem_range.1 ht]
    rw [heq]
    obtain ⟨hst, hleft, htrack⟩ := hbody s' _ _ false _ hsame hs'
    exact ⟨hst, hleft, hkeep _ htrack⟩

-- ================================================================== runs

/-- The decoder's side of a run: it takes one record after the other,
shows the shadow planes that went with it, and is then at the end. -/
def Decoder.Follows (fn : Source σ) : Decoder → σ → List Record → Prop
  | d, s, [] => (d.decodeFrame fn s).status = .endOfStream
  | d, s, r :: rest =>
      let out := d.decodeFrame fn s
      out.status = .ok ∧ fn.left s = r.bytes ++ fn.left out.src ∧ out.dec.fb.p = r.recon.p
        ∧ Follows fn out.dec out.src rest

/-- At the end of its input a decoder says so. -/
theorem Decoder.decodeFrame_end (fn : Source σ) {d : Decoder} (hready : d.ready = true) {s : σ}
    (hs : fn.left s = []) : (d.decodeFrame fn s).status = .endOfStream := by
  have hnil : (fn.readFull s kFrameHeaderSize).1 = [] := by
    rw [(fn.readFull_spec s _).1, hs]
    rfl
  simp only [Decoder.decodeFrame, hready, hnil, List.length_nil, if_true]
  rw [if_neg (by decide)]

/-- Calls between frames change neither side's pictures. -/
theorem Encoder.Inv.pushAudio (h : e.Inv) (interleaved : Nat → Int16) (n : Nat) :
    (e.pushAudio interleaved n).Inv :=
  ⟨h.accepted, h.layout_eq, h.q_eq, h.stride, h.rem_lt⟩

theorem Encoder.Inv.forceKeyframe (h : e.Inv) : e.forceKeyframe.Inv :=
  ⟨h.accepted, h.layout_eq, h.q_eq, h.stride, h.rem_lt⟩

theorem Encoder.run_follows (fn : Source σ) (calls : List Call) :
    ∀ (e : Encoder), e.Inv → (∀ r ∈ e.run calls, r.stats.audioBytes < 2 ^ 32) →
      ∀ (d : Decoder) (s : σ), d.Tracks e →
        fn.left s = ((e.run calls).map Record.bytes).flatten →
        d.Follows fn s (e.run calls) := by
  induction calls with
  | nil => exact fun e _ _ d s hd hs => d.decodeFrame_end fn hd.ready hs
  | cons c calls ih =>
      intro e hinv haudio d s hd hs
      cases c with
      | pushAudio interleaved n =>
          exact ih _ (hinv.pushAudio interleaved n) haudio d s
            ⟨hd.ready, hd.header_eq, hd.layout_eq, hd.dq_eq, hd.fb_eq⟩ hs
      | forceKeyframe =>
          exact ih _ hinv.forceKeyframe haudio d s
            ⟨hd.ready, hd.header_eq, hd.layout_eq, hd.dq_eq, hd.fb_eq⟩ hs
      | encodeFrame pic =>
          obtain ⟨hinv', -, hstep⟩ := Encoder.encodeFrame_decodes fn hinv pic
          simp only [Encoder.run, List.map_cons, List.flatten_cons] at hs haudio ⊢
          obtain ⟨hst, hleft, htrack⟩ :=
            hstep (haudio _ (List.mem_cons_self ..)) d s _ hd hs
          refine ⟨hst, by rw [hs, hleft], by rw [htrack.fb_eq], ?_⟩
          exact ih _ hinv' (fun r hr => haudio r (List.mem_cons_of_mem _ hr)) _ _ htrack hleft

/-- A fresh decoder takes an encoder's header and then tracks it. -/
theorem Decoder.readHeader_tracks (fn : Source σ) {hardware : Nat} {cfg : Config}
    (hinit : Encoder.init hardware cfg = .ok e)
    (hpix : cfg.width.toNat * cfg.height.toNat ≤ maxPixels) (d : Decoder) {s : σ}
    {rest : List UInt8} (hs : fn.left s = writeStreamHeader e.streamHeader ++ rest) :
    (d.readHeader fn s).1 = .ok ∧ (d.readHeader fn s).2.1.Tracks e
      ∧ fn.left (d.readHeader fn s).2.2 = rest := by
  obtain ⟨hinv, hcfg, hrecon⟩ := Encoder.inv_init hinit
  set hdr := writeStreamHeader e.streamHeader with hhdr
  have hlen : hdr.length = kStreamHeaderSize := writeStreamHeader_length _
  -- the header is read in two parts
  have hsplit : hdr = hdr.take kStreamHeaderSizeV1 ++ hdr.drop kStreamHeaderSizeV1 :=
    (List.take_append_drop ..).symm
  have h18 : (hdr.take kStreamHeaderSizeV1).length = kStreamHeaderSizeV1 := by
    rw [List.length_take, hlen]
    rfl
  have h16 : (hdr.drop kStreamHeaderSizeV1).length
      = kStreamHeaderSize - kStreamHeaderSizeV1 := by
    rw [List.length_drop, hlen]
  rw [hsplit, List.append_assoc] at hs
  obtain ⟨h1, hs₁⟩ := fn.readFull_append hs
  obtain ⟨h2, hs₂⟩ := fn.readFull_append hs₁
  rw [h18] at h1 h2 hs₂
  rw [h16] at h2 hs₂
  have hbyte : byteAt (hdr.take kStreamHeaderSizeV1) 3 = 0x32 := by rfl
  have hparse := parse_write hinv.valid
  rw [← hhdr] at hparse
  have hwh : e.streamHeader.sent.width = cfg.width ∧ e.streamHeader.sent.height = cfg.height := by
    unfold StreamHeader.sent
    split <;> exact ⟨by rw [← hcfg]; rfl, by rw [← hcfg]; rfl⟩
  have hread : d.readHeader fn s = (.ok, Decoder.setup e.streamHeader.sent,
      (fn.readFull (fn.readFull s kStreamHeaderSizeV1).2
        (kStreamHeaderSize - kStreamHeaderSizeV1)).2) := by
    simp only [Decoder.readHeader, h1, hbyte, h18, if_true, h2]
    rw [if_neg (by decide), if_neg (by decide), ← hsplit, hlen, if_neg (by decide), hparse]
    simp only [hwh]
    rw [if_neg (by omega)]
  rw [hread]
  refine ⟨rfl, ?_, hs₂⟩
  have hsame : ∀ (h : StreamHeader), h.sent.width = h.width ∧ h.sent.height = h.height
      ∧ h.sent.tileW = h.tileW ∧ h.sent.tileH = h.tileH ∧ h.sent.quality = h.quality := by
    intro h
    unfold StreamHeader.sent
    split <;> exact ⟨rfl, rfl, rfl, rfl, rfl⟩
  obtain ⟨hw, hh, htw, hth, hq⟩ := hsame e.streamHeader
  have hlayout : (Decoder.setup e.streamHeader.sent).layout = e.layout := by
    simp only [Decoder.setup, hw, hh, htw, hth]
    exact hinv.layout_eq.symm
  refine ⟨rfl, rfl, hlayout, ?_, ?_⟩
  · simp only [Decoder.setup, hq, hinv.q_eq]
    rfl
  · rw [hrecon, ← hlayout]
    rfl

/-- Tile coding is about planes and nothing else. -/
theorem Encoder.codeTile_frame (ts : List Nat) (s : List UInt8 × Encoder) :
    ∃ recon lastCoded, (ts.foldl Encoder.codeTile s).2 = { s.2 with recon, lastCoded } := by
  induction ts generalizing s with
  | nil => exact ⟨s.2.recon, s.2.lastCoded, rfl⟩
  | cons t ts ih =>
      obtain ⟨recon, lastCoded, heq⟩ := ih (Encoder.codeTile s t)
      obtain ⟨recon₁, heq₁, -⟩ := s.2.encodeTile_frame t
      refine ⟨recon, lastCoded, ?_⟩
      rw [List.foldl_cons, heq]
      simp only [Encoder.codeTile, heq₁]

/-- Without an audio track no record carries audio. -/
theorem Encoder.run_noAudio (calls : List Call) :
    ∀ e : Encoder, e.Inv → e.cfg.audioChannels = 0 →
      ∀ r ∈ e.run calls, r.stats.audioBytes = 0 := by
  induction calls with
  | nil => exact fun e _ _ r hr => absurd hr (List.not_mem_nil)
  | cons c calls ih =>
      intro e hinv hch r hr
      cases c with
      | pushAudio interleaved n => exact ih _ (hinv.pushAudio interleaved n) hch r hr
      | forceKeyframe => exact ih _ hinv.forceKeyframe hch r hr
      | encodeFrame pic =>
          obtain ⟨hinv', hcfg, -⟩ := Encoder.encodeFrame_decodes Source.memory hinv pic
          rcases List.mem_cons.1 hr with rfl | hr
          · obtain ⟨-, hstats, -⟩ := e.encodeFrame_eq pic rfl
            obtain ⟨recon, lastCoded, heq⟩ :=
              Encoder.codeTile_frame (e.dirtyList pic) ([], e.begun pic)
            rw [hstats, heq]
            simp [Encoder.encodeAudio, Encoder.begun, Encoder.load, hch]
          · exact ih _ hinv' (by rw [hcfg]; exact hch) r hr

/-- The codec does not drift: for every config the encoder and the
decoder accept and every sequence of calls, a fresh decoder takes the
header and every record to the byte, shows after each what the encoder
believed it to show, and then finds the end of the stream. -/
theorem noDrift {hardware : Nat} {cfg : Config} (hinit : Encoder.init hardware cfg = .ok e)
    (hpix : cfg.width.toNat * cfg.height.toNat ≤ maxPixels) (calls : List Call)
    (haudio : ∀ r ∈ e.run calls, r.stats.audioBytes < 2 ^ 32) (fn : Source σ) (s : σ)
    (hs : fn.left s
      = writeStreamHeader e.streamHeader ++ ((e.run calls).map Record.bytes).flatten) :
    (Decoder.readHeader fn {} s).1 = .ok
      ∧ (Decoder.readHeader fn {} s).2.1.Follows fn (Decoder.readHeader fn {} s).2.2
          (e.run calls) := by
  obtain ⟨hst, htrack, hleft⟩ := Decoder.readHeader_tracks fn hinit hpix {} hs
  exact ⟨hst, Encoder.run_follows fn calls e (Encoder.inv_init hinit).1 haudio _ _ htrack hleft⟩

/-- A grey pixel, coded twice with a keyframe asked for in between. -/
theorem noDrift_pixel :
    let cfg : Config := { width := 1, height := 1, tileW := 1, tileH := 1 }
    let pixel : Call := .encodeFrame { src := fun _ _ => 200, stride := fun _ => 1 }
    ∃ e : Encoder, Encoder.init 1 cfg = .ok e ∧
      let records := e.run [pixel, .forceKeyframe, pixel]
      let r := Decoder.readHeader Source.memory {}
        (writeStreamHeader e.streamHeader ++ (records.map Record.bytes).flatten)
      r.1 = .ok ∧ r.2.1.Follows Source.memory r.2.2 records := by
  intro cfg pixel
  obtain ⟨e, he⟩ := Encoder.init_ok 1 (show cfg.error = none by decide)
  obtain ⟨hinv, hcfg, -⟩ := Encoder.inv_init he
  have hquiet := Encoder.run_noAudio [pixel, .forceKeyframe, pixel] e hinv (by rw [hcfg])
  exact ⟨e, he, noDrift he (by decide) _ (fun r hr => by rw [hquiet r hr]; decide)
    Source.memory _ rfl⟩

end Ncmips.Tjc
