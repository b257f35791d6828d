/-
Interpolation in the players.

Four loops interpolate, each with the same expression: `audio_push` of
the video player, the WAV and the MP3 loop of the music player, and the
synthesizer's `mix_voice`. The product in it needs 33 bits when a step
between two neighbouring samples is more than half of their range, and
then the result is off by a whole 16-bit turn (`lerp_eq`). `audio_push`
stores 16 bits of it and is right all the same (`interpolate_stored`);
the others go on to scale what they have.
-/
import Ncmips.Music.Pump
import Ncmips.Midi.Voice
import Ncmips.Tjcplay.Sound

namespace Ncmips

open Words Midi Music Tjcplay

-- ============================================================ audio_push

namespace Tjcplay

/-- The two neighbours of an output, left and right. -/
def pushSides (rs : Resampler) (x : Nat → Int) (ch : Nat) : (Int × Int) × (Int × Int) :=
  let i1 := rs.pos / 2 ^ 16
  let al := if i1 ≠ 0 then x ((i1 - 1) * ch) else rs.prevL
  let ar := if i1 ≠ 0 then (if 1 < ch then x ((i1 - 1) * ch + 1) else x ((i1 - 1) * ch))
    else rs.prevR
  ((al, x (i1 * ch)), (ar, if 1 < ch then x (i1 * ch + 1) else x (i1 * ch)))

/-- What `audio_push` hands to `fifo_put`. -/
def pushValues (rs : Resampler) (x : Nat → Int) (ch : Nat) : Int × Int :=
  let f : Int := (rs.pos % 2 ^ 16 : Nat)
  let (l, r) := pushSides rs x ch
  (lerp l.1 l.2 f, lerp r.1 r.2 f)

theorem interpolate_eq (rs : Resampler) (x : Nat → Int) (ch : Nat) :
    Sound.interpolate rs x ch = fifoWord (pushValues rs x ch).1 (pushValues rs x ch).2 := rfl

/-- 16 bits of an interpolated value are those of the exact one. -/
theorem lerp_mod (a b f : Int) : lerp a b f % 2 ^ 16 = online a b f % 2 ^ 16 := by
  obtain ⟨k, hk, _⟩ := lerp_eq a b f
  rw [hk]
  omega

/-- The FIFO gets the exact value, even where the product wraps. -/
theorem interpolate_stored (rs : Resampler) (x : Nat → Int) (ch : Nat) :
    let f : Int := (rs.pos % 2 ^ 16 : Nat)
    let (l, r) := pushSides rs x ch
    Sound.interpolate rs x ch = fifoWord (online l.1 l.2 f) (online r.1 r.2 f) := by
  dsimp only
  rw [interpolate_eq]
  unfold fifoWord pushValues
  dsimp only
  rw [lerp_mod, lerp_mod]

end Tjcplay

-- ============================================================ four places

/-- Where the players interpolate right: at each place, in every state,
the value lies on the line between its samples, and so between them, if
and only if the product fits in a word. -/
theorem interpolation_right_iff (rs : Resampler) (x : Nat → Int) (ch : Nat) (s : Stream)
    (d : Nat → Int16) (c : Cursor) :
    (let f : Int := (rs.pos % 2 ^ 16 : Nat)
      let (l, r) := pushSides rs x ch
      (Interpolates l.1 l.2 f (pushValues rs x ch).1 ↔ Fits ((l.2 - l.1) * f))
        ∧ (Interpolates r.1 r.2 f (pushValues rs x ch).2 ↔ Fits ((r.2 - r.1) * f)))
    ∧ (let p := s.cursor.pos
      let f : Int := s.cursor.frac
      (Interpolates (s.buf (2 * p)).toInt (s.buf (2 * p + 2)).toInt f s.frame.1
          ↔ Fits (((s.buf (2 * p + 2)).toInt - (s.buf (2 * p)).toInt) * f))
        ∧ (Interpolates (s.buf (2 * p + 1)).toInt (s.buf (2 * p + 3)).toInt f s.frame.2
          ↔ Fits (((s.buf (2 * p + 3)).toInt - (s.buf (2 * p + 1)).toInt) * f)))
    ∧ (Interpolates (d c.pos).toInt (d (Words.u32 (c.pos + 1))).toInt c.frac (voiceSample d c)
        ↔ Fits (((d (Words.u32 (c.pos + 1))).toInt - (d c.pos).toInt) * c.frac)) := by
  refine ⟨?_, ?_, ?_⟩
  · have h0 : (0 : Int) ≤ (rs.pos % 2 ^ 16 : Nat) := Int.natCast_nonneg _
    have hf : ((rs.pos % 2 ^ 16 : Nat) : Int) < 2 ^ 16 := by omega
    exact ⟨interpolates_lerp_iff _ _ h0 hf, interpolates_lerp_iff _ _ h0 hf⟩
  · have h0 : (0 : Int) ≤ s.cursor.frac := Int.natCast_nonneg _
    have hf : (s.cursor.frac : Int) < 2 ^ 16 := by
      have := s.cursor.frac_lt
      omega
    exact ⟨interpolates_lerp_iff _ _ h0 hf, interpolates_lerp_iff _ _ h0 hf⟩
  · have h0 : (0 : Int) ≤ c.frac := Int.natCast_nonneg _
    have hf : (c.frac : Int) < 2 ^ 16 := by
      have := c.frac_lt
      omega
    exact interpolates_lerp_iff _ _ h0 hf

/-- From the lowest sample to the highest, at the last fraction: below
both of them, wherever it is computed. -/
theorem interpolation_wraps :
    let f : Cursor := ⟨0, 65535, by decide⟩
    let loud : Nat → Int16 := fun i => if i < 2 then -32768 else 32767
    let rs : Resampler := { pos := 65535, prevL := -32768, prevR := -32768 }
    let s : Stream := { buf := loud, have_ := 2, cursor := f, step := 65536 }
    let d : Nat → Int16 := fun i => if i = 0 then -32768 else 32767
    (pushValues rs (fun _ => 32767) 1 = (-32770, -32770)
        ∧ ¬ Interpolates (-32768) 32767 65535 (pushValues rs (fun _ => 32767) 1).1)
      ∧ (s.frame = (-32770, -32770) ∧ ¬ Interpolates (-32768) 32767 65535 s.frame.1)
      ∧ (voiceSample d f = -32770 ∧ ¬ Interpolates (-32768) 32767 65535 (voiceSample d f)) := by
  intro f loud rs s d
  have hbelow : ¬ Interpolates (-32768) 32767 65535 (-32770) :=
    fun h => absurd h.ge_min (by decide)
  have hpush : pushValues rs (fun _ => 32767) 1 = (-32770, -32770) := by decide
  have hframe : s.frame = (-32770, -32770) := by decide
  have hvoice : voiceSample d f = -32770 := by decide
  refine ⟨⟨hpush, ?_⟩, ⟨hframe, ?_⟩, hvoice, ?_⟩
  · rw [hpush]
    exact hbelow
  · rw [hframe]
    exact hbelow
  · rw [hvoice]
    exact hbelow

end Ncmips
