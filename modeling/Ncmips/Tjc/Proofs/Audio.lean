/-
The audio of a record: what the encoder puts there, the decoder takes.

A QOA frame is accepted on its header alone, so nothing here depends on
which scale factors the encoder chose: the header fields come back
(`decodeFrame_header`), the length is `frameSize`, and the decoder's
limits leave room for a frame period of samples (`decodeAudio_encoder`).
-/
import Ncmips.Tjc.Decoder
import Ncmips.Tjc.Encoder

namespace Ncmips.Tjc

open Bits

namespace Qoa

-- ================================================================= words

@[simp] theorem putU64_length (v : Nat) : (putU64 v).length = 8 := rfl

theorem getU64_put (v : Nat) (rest : List UInt8) : getU64 (putU64 v ++ rest) = v % 2 ^ 64 := by
  simp [getU64, putU64, byteAt, List.range_succ, Nat.shiftRight_eq_div_pow, Nat.shiftLeft_eq]
  omega

theorem getU64_append (a p : List UInt8) (off : Nat) :
    getU64 (a ++ p) (a.length + off) = getU64 p off := by
  simp only [getU64, Nat.add_assoc, byteAt_append_right]

/-- A step of a frame within int32: 16-bit words at the start, 896 a
sample from then on. -/
def Lms.Bounded (n : Nat) (l : Lms) : Prop :=
  (∀ i, -32768 ≤ l.history i ∧ l.history i ≤ 32767)
    ∧ ∀ i, -(32768 + 896 * n : Int) ≤ l.weights i ∧ l.weights i ≤ 32768 + 896 * n

theorem dequant_le (sf q : Nat) : -14336 ≤ dequant sf q ∧ dequant sf q ≤ 14336 := by
  have hall : ∀ row ∈ kDequant, ∀ v ∈ row, -14336 ≤ v ∧ v ≤ 14336 := by decide
  have hrow : kDequant.getD sf [] ∈ kDequant ∨ kDequant.getD sf [] = [] := by
    rcases Nat.lt_or_ge sf kDequant.length with h | h
    · rw [List.getD_eq_getElem _ _ h]
      exact Or.inl (List.getElem_mem h)
    · exact Or.inr (List.getD_eq_default _ _ h)
  unfold dequant
  rcases Nat.lt_or_ge q (kDequant.getD sf []).length with h | h
  · rw [List.getD_eq_getElem _ _ h]
    rcases hrow with hmem | hnil
    · exact hall _ hmem _ (List.getElem_mem h)
    · rw [hnil] at h
      exact absurd h (by simp)
  · rw [List.getD_eq_default _ _ h]
    decide

theorem clampS16_bounds (v : Int) : -32768 ≤ clampS16 v ∧ clampS16 v ≤ 32767 := by
  unfold clampS16
  split_ifs <;> omega

/-- One sample of decoding moves a weight by at most 896. -/
theorem Lms.Bounded.update {n : Nat} {l : Lms} (h : l.Bounded n) (sf q : Nat) (v : Int) :
    (Qoa.update l (clampS16 v) (dequant sf q)).Bounded (n + 1) := by
  have hd := dequant_le sf q
  have hdelta : -896 ≤ dequant sf q >>> (4 : Nat) ∧ dequant sf q >>> (4 : Nat) ≤ 896 := by
    rw [Int.shiftRight_eq_div_pow]
    omega
  refine ⟨fun i => ?_, fun i => ?_⟩
  · fin_cases i
    · exact h.1 1
    · exact h.1 2
    · exact h.1 3
    · exact clampS16_bounds v
  · have hw := h.2 i
    simp only [Qoa.update]
    push_cast
    split_ifs <;> omega

theorem int16_bounds (v : Int) : -32768 ≤ int16 v ∧ int16 v ≤ 32767 := by
  unfold int16
  have hlo := Int.le_bmod (x := v) (m := 2 ^ 16) (by decide)
  have hhi := Int.bmod_lt (x := v) (m := 2 ^ 16) (by decide)
  omega

theorem Lms.bounded_narrow (l : Lms) : l.narrow.Bounded 0 := by
  refine ⟨fun i => int16_bounds _, fun i => ?_⟩
  have := int16_bounds (l.weights i)
  simp only [Lms.narrow]
  omega

-- ================================================================ frames

variable {interleaved : Nat → Int} {channels rate samples : Nat}

theorem FrameEnc.slice_length (start len : Nat) (e : FrameEnc) (c : Nat) :
    (FrameEnc.slice interleaved channels start len e c).out.length = e.out.length + 8 := by
  simp [FrameEnc.slice]

theorem FrameEnc.slices_length (e : FrameEnc) (j : Nat) :
    (FrameEnc.slices interleaved channels samples e j).out.length
      = e.out.length + 8 * channels := by
  have hfold : ∀ start len m (e : FrameEnc),
      ((List.range m).foldl (FrameEnc.slice interleaved channels start len) e).out.length
        = e.out.length + 8 * m := by
    intro start len m e
    induction m with
    | zero => rfl
    | succ m ih =>
        rw [List.range_succ, List.foldl_append, List.foldl_cons, List.foldl_nil,
          FrameEnc.slice_length, ih]
        omega
  exact hfold _ _ _ _

/-- Whatever the slices, what is there stays in front. -/
theorem FrameEnc.slices_prefix (e : FrameEnc) (j : Nat) :
    e.out <+: (FrameEnc.slices interleaved channels samples e j).out := by
  have hfold : ∀ start len m (e : FrameEnc),
      e.out <+: ((List.range m).foldl (FrameEnc.slice interleaved channels start len) e).out := by
    intro start len m e
    induction m with
    | zero => exact List.prefix_rfl
    | succ m ih =>
        rw [List.range_succ, List.foldl_append, List.foldl_cons, List.foldl_nil]
        exact ih.trans (List.prefix_append _ _)
  exact hfold _ _ _ _

theorem putHeader_length (lms : Nat → Lms) :
    (putHeader channels rate samples lms).length = 8 + 16 * channels := by
  simp only [putHeader, putLms, List.length_append, putU64_length, List.length_flatMap]
  simp
  omega

variable (interleaved channels rate samples) in
theorem encodeFrame_spec (lms : Nat → Lms) :
    (encodeFrame interleaved channels rate samples lms).2.length = frameSize channels samples
      ∧ ∃ lms', putHeader channels rate samples lms'
          <+: (encodeFrame interleaved channels rate samples lms).2 := by
  have hfold : ∀ m (e : FrameEnc),
      ((List.range m).foldl (FrameEnc.slices interleaved channels samples) e).out.length
          = e.out.length + 8 * channels * m
        ∧ e.out <+: ((List.range m).foldl (FrameEnc.slices interleaved channels samples) e).out := by
    intro m e
    induction m with
    | zero => exact ⟨rfl, List.prefix_rfl⟩
    | succ m ih =>
        rw [List.range_succ, List.foldl_append, List.foldl_cons, List.foldl_nil,
          FrameEnc.slices_length, ih.1]
        exact ⟨by rw [Nat.mul_succ]; omega, ih.2.trans (FrameEnc.slices_prefix _ _)⟩
  obtain ⟨hlen, hpre⟩ := hfold (sliceCount samples)
    { lms := fun c => if c < channels then (lms c).narrow else lms c
      prevSf := fun _ => 0
      out := putHeader channels rate samples
        fun c => if c < channels then (lms c).narrow else lms c }
  refine ⟨?_, _, hpre⟩
  rw [encodeFrame, hlen, putHeader_length, frameSize, Nat.mul_right_comm]

/-- What the decoder's checks look at. -/
structure ValidFrame (channels rate samples : Nat) : Prop where
  channels_pos : 1 ≤ channels
  channels_le : channels ≤ kMaxChannels
  rate_lt : rate < 2 ^ 24
  samples_pos : 1 ≤ samples
  samples_le : samples ≤ kMaxFrameLen

theorem ValidFrame.slices_le (h : ValidFrame channels rate samples) :
    sliceCount samples ≤ 256 := by
  have := h.samples_le
  simp only [sliceCount, kMaxFrameLen, kSliceLen] at *
  omega

theorem ValidFrame.frameSize_lt (h : ValidFrame channels rate samples) :
    frameSize channels samples < 2 ^ 16 := by
  have hc := h.channels_le
  have hmul : sliceCount samples * channels ≤ 256 * 8 := Nat.mul_le_mul h.slices_le hc
  rw [kMaxChannels] at hc
  rw [frameSize, Nat.mul_assoc]
  omega

/-- A frame is accepted for what it is. -/
theorem decodeFrame_encodeFrame (interleaved : Nat → Int) (h : ValidFrame channels rate samples) (lms : Nat → Lms)
    (rest : List UInt8) (off : Nat) (out : Nat → Int) :
    ∃ f, decodeFrame ((encodeFrame interleaved channels rate samples lms).2 ++ rest)
          channels rate off out = some f
      ∧ f.samples = samples ∧ f.consumed = frameSize channels samples := by
  obtain ⟨hlen, lms', tail, htail⟩ := encodeFrame_spec interleaved channels rate samples lms
  set bytes := (encodeFrame interleaved channels rate samples lms).2
  have hc := h.channels_le
  have hs := h.samples_le
  have hr := h.rate_lt
  have hf := h.frameSize_lt
  simp only [kMaxChannels, kMaxFrameLen, kSliceLen] at hc hs
  have hword : getU64 (bytes ++ rest)
      = channels <<< 56 + rate <<< 32 + samples <<< 16 + frameSize channels samples := by
    rw [← htail, putHeader, List.append_assoc, List.append_assoc, getU64_put, Nat.mod_eq_of_lt]
    simp only [Nat.shiftLeft_eq]
    omega
  have hfields : getU64 (bytes ++ rest) >>> 56 = channels
      ∧ getU64 (bytes ++ rest) >>> 32 % 2 ^ 24 = rate
      ∧ getU64 (bytes ++ rest) >>> 16 % 2 ^ 16 = samples
      ∧ getU64 (bytes ++ rest) % 2 ^ 16 = frameSize channels samples := by
    rw [hword]
    simp only [Nat.shiftLeft_eq, Nat.shiftRight_eq_div_pow]
    omega
  obtain ⟨hfch, hfrate, hfsamples, hfsize⟩ := hfields
  have hsize : frameSize channels samples = 8 + 16 * channels + 8 * sliceCount samples * channels :=
    rfl
  have hslices := h.slices_le
  have hpos := h.samples_pos
  simp only [decodeFrame, hfch, hfrate, hfsamples, hfsize]
  rw [if_neg (by rw [List.length_append]; omega), if_neg (by rw [List.length_append]; omega)]
  exact ⟨_, rfl, rfl, rfl⟩

end Qoa

-- =============================================================== records

open Qoa (kMaxFrameLen ValidFrame)

/-- The frames of a record from frame `j` on. -/
theorem decodeAudioFrames_encode (queue : List Int) {channels rate samples maxSamples : Nat}
    (hch : 1 ≤ channels) (hch' : channels ≤ Qoa.kMaxChannels) (hrate : rate < 2 ^ 24)
    (hmax : samples + kMaxFrameLen ≤ maxSamples + 1) (m : Nat) :
    ∀ j, j + m = (samples + kMaxFrameLen - 1) / kMaxFrameLen →
      ∀ (lms : Nat → Qoa.Lms) (acc : List UInt8), ∃ data,
        ((List.range' j m).foldl (encodeAudioFrame queue channels rate samples) (lms, acc)).2
            = acc ++ data
        ∧ data.length ≤ Qoa.frameSize channels kMaxFrameLen * m
        ∧ ∀ audio, ∃ audio', decodeAudioFrames channels rate maxSamples data audio
            (min samples (kMaxFrameLen * j)) = (.ok, audio', samples) := by
  induction m with
  | zero =>
      intro j hj lms acc
      refine ⟨[], by simp, by simp, fun audio => ⟨audio, ?_⟩⟩
      have hall : samples ≤ kMaxFrameLen * j := by
        simp only [kMaxFrameLen, Qoa.kSliceLen] at *
        omega
      rw [decodeAudioFrames, if_pos rfl, Nat.min_eq_left hall]
  | succ m ih =>
      intro j hj lms acc
      set n := min (samples - kMaxFrameLen * j) kMaxFrameLen with hn
      set frame := Qoa.encodeFrame (fun i => queue.getD (kMaxFrameLen * j * channels + i) 0)
        channels rate n lms with hframe
      have hvalid : ValidFrame channels rate n := by
        refine ⟨hch, hch', hrate, ?_, Nat.min_le_right ..⟩
        simp only [kMaxFrameLen, Qoa.kSliceLen] at *
        omega
      obtain ⟨hlen, -⟩ := Qoa.encodeFrame_spec
        (fun i => queue.getD (kMaxFrameLen * j * channels + i) 0) channels rate n lms
      rw [← hframe] at hlen
      have hfull : Qoa.frameSize channels n ≤ Qoa.frameSize channels kMaxFrameLen := by
        have hslices : Qoa.sliceCount n ≤ Qoa.sliceCount kMaxFrameLen :=
          Nat.div_le_div_right (by have := hvalid.samples_le; omega)
        have := Nat.mul_le_mul_right channels (Nat.mul_le_mul_left 8 hslices)
        simp only [Qoa.frameSize]
        omega
      obtain ⟨data, hdata, hsize, hdec⟩ := ih (j + 1) (by omega) frame.1 (acc ++ frame.2)
      refine ⟨frame.2 ++ data, ?_, ?_, fun audio => ?_⟩
      · rw [List.range'_succ, List.foldl_cons, ← List.append_assoc]
        exact hdata
      · rw [List.length_append, hlen, Nat.mul_succ]
        omega
      · obtain ⟨f, hf, hsamples, hconsumed⟩ := Qoa.decodeFrame_encodeFrame
          (fun i => queue.getD (kMaxFrameLen * j * channels + i) 0) hvalid lms data (min samples (kMaxFrameLen * j) * channels) audio
        rw [← hframe] at hf
        obtain ⟨audio', hrest⟩ := hdec f.dec.out
        refine ⟨audio', ?_⟩
        have hpos : 0 < frame.2.length := by
          rw [hlen, Qoa.frameSize]
          omega
        have hnext : min samples (kMaxFrameLen * j) + n = min samples (kMaxFrameLen * (j + 1)) := by
          simp only [kMaxFrameLen, Qoa.kSliceLen] at *
          omega
        rw [decodeAudioFrames, if_neg (by
            intro hnil
            rw [(List.append_eq_nil_iff.1 hnil).1] at hpos
            exact absurd hpos (by simp)),
          if_neg (by simp only [kMaxFrameLen, Qoa.kSliceLen] at *; omega), hf]
        simp only [hsamples, hconsumed, ← hlen, List.drop_left, hnext]
        exact hrest

/-- The whole of a record's audio data. -/
theorem decodeAudioFrames_all (queue : List Int) {channels rate samples maxSamples : Nat}
    (hch : 1 ≤ channels) (hch' : channels ≤ Qoa.kMaxChannels) (hrate : rate < 2 ^ 24)
    (hmax : samples + kMaxFrameLen ≤ maxSamples + 1) (lms : Nat → Qoa.Lms) :
    let data := (encodeAudioFrames queue channels rate samples lms).2
    data.length ≤ Qoa.frameSize channels kMaxFrameLen
        * ((samples + kMaxFrameLen - 1) / kMaxFrameLen)
      ∧ ∀ audio, ∃ audio', decodeAudioFrames channels rate maxSamples data audio 0
          = (.ok, audio', samples) := by
  obtain ⟨data, hdata, hlen, hdec⟩ := decodeAudioFrames_encode queue hch hch' hrate hmax
    ((samples + kMaxFrameLen - 1) / kMaxFrameLen) 0 (Nat.zero_add _) lms []
  have heq : (encodeAudioFrames queue channels rate samples lms).2 = data := by
    rw [encodeAudioFrames, List.range_eq_range', hdata, List.nil_append]
  rw [heq]
  exact ⟨hlen, by simpa using hdec⟩

end Ncmips.Tjc
