/-
A voice of the SoundFont synthesizer on its way into the mix: the inner
loops of `mix_voice`, `apps/midi/synth_sf2.c`.

A run is a stretch of output in which the voice meets neither its loop
end nor its sample end.
-/
import Ncmips.Lib.Lerp

namespace Ncmips.Midi

open Words

/-- `(s * g) >> 15` -/
def gmul (s g : Int) : Int := s32 (s * g) >>> (15 : Nat)

/-- The voice at the cursor. -/
def voiceSample (d : Nat → Int16) (c : Cursor) : Int :=
  lerp (d c.pos).toInt (d (u32 (c.pos + 1))).toInt c.frac

/-- `m` samples, two a pass, through the gains of both sides; the sums
for `left` and `right`, and where the voice is then. -/
def mixPairs (d : Nat → Int16) (step : Nat) (gains : Int → Int × Int) :
    (m : Nat) → Cursor → List (Int × Int) × Cursor
  | 0, c => ([], c)
  | 1, c => ([gains (voiceSample d c)], c.advance step)
  | m + 2, c =>
      let s0 := voiceSample d c
      let c1 := c.advance step
      let s1 := voiceSample d c1
      let (rest, c') := mixPairs d step gains m (c1.advance step)
      (gains s0 :: gains s1 :: rest, c')

/-- One run. A centred voice needs one multiply for both sides, a silent
one moves its position only. -/
def mixRun (d : Nat → Int16) (step : Nat) (gl gr : Int) (m : Nat) (c : Cursor) :
    List (Int × Int) × Cursor :=
  if gl = gr ∧ gl ≠ 0 then
    mixPairs d step (fun s => let s := gmul s gl; (s, s)) m c
  else if gl ≠ 0 ∨ gr ≠ 0 then
    mixPairs d step (fun s => (gmul s gl, gmul s gr)) m c
  else
    let f := c.frac + step * m
    ([],
      { pos := u32 (c.pos + f / 2 ^ 16)
        frac := f % 2 ^ 16
        frac_lt := Nat.mod_lt _ (by decide) })

/-- Two a pass or one by one makes no difference: sample `i` of a run is
the voice `i` steps on, through the gains. -/
theorem mixPairs_eq (d : Nat → Int16) (step : Nat) (gains : Int → Int × Int) :
    ∀ (m : Nat) (c : Cursor), mixPairs d step gains m c
      = ((List.range m).map fun i => gains (voiceSample d ((·.advance step)^[i] c)),
          (·.advance step)^[m] c)
  | 0, c => rfl
  | 1, c => rfl
  | m + 2, c => by
      rw [mixPairs, mixPairs_eq d step gains m]
      simp only [List.range_succ_eq_map, List.map_cons, List.map_map]
      rfl

theorem mixRun_eq (d : Nat → Int16) (step : Nat) (gl gr : Int) (m : Nat) (c : Cursor)
    (hg : gl ≠ 0 ∨ gr ≠ 0) :
    (mixRun d step gl gr m c).1 = (List.range m).map fun i =>
      (gmul (voiceSample d ((·.advance step)^[i] c)) gl,
        gmul (voiceSample d ((·.advance step)^[i] c)) gr) := by
  unfold mixRun
  split_ifs with hcentre
  · rw [mixPairs_eq]
    simp only [← hcentre.1]
  · rw [mixPairs_eq]

end Ncmips.Midi
