/-
When the next tick comes within a period.

A Compare set from Count itself is ahead of it unless Count runs on by a
whole period before it is looked at (`retry`). The first Compare is a
period behind the last tick, however long that was ago: as a signed
difference, a delay of more than 2^31 counts is none.
-/
import Ncmips.Rtos.Port

namespace Ncmips.Rtos

open Words

variable {adv : Nat → Nat} {ulTickPeriod : Nat}

/-- The tick is set, between 1 and `ulTickPeriod` counts ahead. -/
def Ahead (ulTickPeriod : Nat) (r : Nat × Cp0) : Prop :=
  1 ≤ sub32 r.2.compare r.1 ∧ sub32 r.2.compare r.1 ≤ ulTickPeriod

theorem positive_iff {n : Nat} (hn : n < 2 ^ 32) : s32 n > 0 ↔ 0 < n ∧ n < 2 ^ 31 := by
  by_cases hlow : n < 2 ^ 31
  · rw [s32_of_range (by omega) (by omega)]
    omega
  · rw [s32_of_high (by omega) (by omega)]
    omega

theorem sub32_lt (a b : Nat) : sub32 a b < 2 ^ 32 := u32_lt _

/-- How far a Compare set from Count is ahead, `a` counts later. -/
theorem ahead_of_count (count a : Nat) (hP : ulTickPeriod < 2 ^ 31) (ha : a < 2 * ulTickPeriod) :
    sub32 (u32 (count + ulTickPeriod)) (u32 (count + a))
      = if a ≤ ulTickPeriod then ulTickPeriod - a else 2 ^ 32 - (a - ulTickPeriod) := by
  unfold sub32 u32
  split_ifs <;> omega

/-- By how much Count runs on from where it is read to where Compare is
looked at, in the turn that begins at access number `t`. -/
def turnAdv (adv : Nat → Nat) (t : Nat) : Nat := adv t + adv (t + 1)

theorem u32_add (a b c : Nat) : u32 (u32 (a + b) + c) = u32 (a + (b + c)) := by
  unfold u32
  omega

/-- The registers when Count was read for the check. -/
def checked (adv : Nat → Nat) (next : Nat) (s : Cp0) : Cp0 :=
  ⟨u32 (u32 (s.count + adv s.access) + adv (s.access + 1)), next, s.access + 2,
    s.ulPortTickResyncs⟩

/-- And when it was read again. -/
def resynced (adv : Nat → Nat) (next : Nat) (s : Cp0) : Cp0 :=
  ⟨u32 ((checked adv next s).count + adv (s.access + 2)), next, s.access + 3,
    u32 (s.ulPortTickResyncs + 1)⟩

/-- One turn. -/
theorem prvSetCompare_succ (turns next : Nat) (s : Cp0) :
    prvSetCompare adv ulTickPeriod (turns + 1) next s
      = if s32 (sub32 next (checked adv next s).count) > 0
        then some ((checked adv next s).count, checked adv next s)
        else prvSetCompare adv ulTickPeriod turns (u32 ((resynced adv next s).count + ulTickPeriod))
          (resynced adv next s) := rfl

section

variable (hP : ulTickPeriod < 2 ^ 31) (hadv : ∀ t, turnAdv adv t < 2 * ulTickPeriod)

include hP hadv

theorem checked_ahead (s : Cp0) :
    sub32 (u32 (s.count + ulTickPeriod)) (checked adv (u32 (s.count + ulTickPeriod)) s).count
      = if turnAdv adv s.access ≤ ulTickPeriod then ulTickPeriod - turnAdv adv s.access
        else 2 ^ 32 - (turnAdv adv s.access - ulTickPeriod) := by
  unfold checked
  rw [u32_add]
  exact ahead_of_count _ _ hP (hadv _)

theorem checked_stops (s : Cp0) :
    s32 (sub32 (u32 (s.count + ulTickPeriod))
      (checked adv (u32 (s.count + ulTickPeriod)) s).count) > 0
        ↔ turnAdv adv s.access < ulTickPeriod := by
  have hlt := hadv s.access
  rw [positive_iff (sub32_lt _ _), checked_ahead hP hadv s]
  split_ifs <;> omega

theorem turn_done {s : Cp0} (hk : turnAdv adv s.access < ulTickPeriod) :
    ∃ r, prvSetCompare adv ulTickPeriod 1 (u32 (s.count + ulTickPeriod)) s = some r
      ∧ Ahead ulTickPeriod r := by
  have hahead := checked_ahead hP hadv s
  rw [if_pos (Nat.le_of_lt hk)] at hahead
  refine ⟨((checked adv (u32 (s.count + ulTickPeriod)) s).count,
    checked adv (u32 (s.count + ulTickPeriod)) s), ?_, ?_⟩
  · rw [prvSetCompare_succ]
    exact if_pos ((checked_stops hP hadv s).2 hk)
  · show 1 ≤ sub32 (u32 (s.count + ulTickPeriod)) _ ∧ sub32 (u32 (s.count + ulTickPeriod)) _ ≤ _
    rw [hahead]
    omega

/-- Compare was set from Count: the tick is ahead once a turn takes less
than a period. -/
theorem retry (s : Cp0) :
    (∃ turns r, prvSetCompare adv ulTickPeriod turns (u32 (s.count + ulTickPeriod)) s = some r
        ∧ Ahead ulTickPeriod r)
      ↔ ∃ k, turnAdv adv (s.access + 3 * k) < ulTickPeriod := by
  constructor
  · rintro ⟨turns, r, hr, -⟩
    induction turns generalizing s with
    | zero => exact nomatch hr
    | succ turns ih =>
        rw [prvSetCompare_succ] at hr
        split_ifs at hr with hdone
        · exact ⟨0, (checked_stops hP hadv s).1 hdone⟩
        · obtain ⟨k, hk⟩ := ih _ hr
          refine ⟨k + 1, ?_⟩
          rw [show s.access + 3 * (k + 1) = s.access + 3 + 3 * k by omega]
          exact hk
  · rintro ⟨k, hk⟩
    induction k generalizing s with
    | zero =>
        obtain ⟨r, hr, hin⟩ := turn_done hP hadv hk
        exact ⟨1, r, hr, hin⟩
    | succ k ih =>
        by_cases hnow : turnAdv adv s.access < ulTickPeriod
        · obtain ⟨r, hr, hin⟩ := turn_done hP hadv hnow
          exact ⟨1, r, hr, hin⟩
        · rw [show s.access + 3 * (k + 1) = s.access + 3 + 3 * k by omega] at hk
          obtain ⟨turns, r, hr, hin⟩ := ih (resynced adv (u32 (s.count + ulTickPeriod)) s) hk
          refine ⟨turns + 1, r, ?_, hin⟩
          rw [prvSetCompare_succ, if_neg fun hdone => hnow ((checked_stops hP hadv s).1 hdone)]
          exact hr

end

/-- How far Compare is ahead of Count when it is first looked at: a period
after the last tick was due. -/
def firstLead (adv : Nat → Nat) (ulTickPeriod : Nat) (s : Cp0) : Nat :=
  sub32 (u32 (s.compare + ulTickPeriod))
    (u32 (s.count + (adv s.access + adv (s.access + 1) + adv (s.access + 2))))

/-- The tick resumes within a period just if the first look finds Compare
ahead by no more than that, or finds it behind and Count is then read and
compared within a period. A delay of 2^31 counts and more is taken for a
tick in the future. -/
theorem tick_resumes (hP : 0 < ulTickPeriod ∧ ulTickPeriod < 2 ^ 31)
    (hadv : ∀ t, adv t < ulTickPeriod) (s : Cp0) :
    (∃ turns r, timerInterrupt adv ulTickPeriod turns s = some r ∧ Ahead ulTickPeriod r)
      ↔ (1 ≤ firstLead adv ulTickPeriod s ∧ firstLead adv ulTickPeriod s ≤ ulTickPeriod)
        ∨ ((firstLead adv ulTickPeriod s = 0 ∨ 2 ^ 31 ≤ firstLead adv ulTickPeriod s)
          ∧ ∃ k, turnAdv adv (s.access + 4 + 3 * k) < ulTickPeriod) := by
  have hturn : ∀ t, turnAdv adv t < 2 * ulTickPeriod := by
    intro t
    have h0 := hadv t
    have h1 := hadv (t + 1)
    unfold turnAdv
    omega
  have hlead : sub32 (u32 (s.compare + ulTickPeriod))
      (checked adv (u32 (s.compare + ulTickPeriod)) (s.pass adv)).count
        = firstLead adv ulTickPeriod s := by
    show sub32 _ (u32 (u32 (u32 (s.count + adv s.access) + adv (s.access + 1))
      + adv (s.access + 2))) = _
    rw [u32_add, u32_add, ← Nat.add_assoc (adv s.access)]
    rfl
  have hlt : firstLead adv ulTickPeriod s < 2 ^ 32 := sub32_lt _ _
  have hstep : ∀ turns, timerInterrupt adv ulTickPeriod (turns + 1) s
      = if 0 < firstLead adv ulTickPeriod s ∧ firstLead adv ulTickPeriod s < 2 ^ 31
        then some ((checked adv (u32 (s.compare + ulTickPeriod)) (s.pass adv)).count,
          checked adv (u32 (s.compare + ulTickPeriod)) (s.pass adv))
        else prvSetCompare adv ulTickPeriod turns
          (u32 ((resynced adv (u32 (s.compare + ulTickPeriod)) (s.pass adv)).count + ulTickPeriod))
          (resynced adv (u32 (s.compare + ulTickPeriod)) (s.pass adv)) := by
    intro turns
    show prvSetCompare adv ulTickPeriod (turns + 1) (u32 (s.compare + ulTickPeriod)) (s.pass adv) = _
    rw [prvSetCompare_succ, hlead]
    exact if_congr (positive_iff hlt) rfl rfl
  have hahead : Ahead ulTickPeriod
      ((checked adv (u32 (s.compare + ulTickPeriod)) (s.pass adv)).count,
        checked adv (u32 (s.compare + ulTickPeriod)) (s.pass adv))
        ↔ 1 ≤ firstLead adv ulTickPeriod s ∧ firstLead adv ulTickPeriod s ≤ ulTickPeriod := by
    rw [← hlead]
    exact Iff.rfl
  by_cases hfirst : 0 < firstLead adv ulTickPeriod s ∧ firstLead adv ulTickPeriod s < 2 ^ 31
  · constructor
    · rintro ⟨turns, r, hr, hin⟩
      cases turns with
      | zero => exact nomatch hr
      | succ turns =>
          rw [hstep, if_pos hfirst] at hr
          cases hr
          exact .inl (hahead.1 hin)
    · rintro (hin | ⟨hout, -⟩)
      · exact ⟨1, _, (hstep 0).trans (if_pos hfirst), hahead.2 hin⟩
      · omega
  · have hretry := retry hP.2 hturn (resynced adv (u32 (s.compare + ulTickPeriod)) (s.pass adv))
    constructor
    · rintro ⟨turns, r, hr, hin⟩
      cases turns with
      | zero => exact nomatch hr
      | succ turns =>
          rw [hstep, if_neg hfirst] at hr
          exact .inr ⟨by omega, hretry.1 ⟨turns, r, hr, hin⟩⟩
    · rintro (hin | ⟨-, hk⟩)
      · omega
      · obtain ⟨turns, r, hr, hin⟩ := hretry.2 hk
        exact ⟨turns + 1, r, by rw [hstep, if_neg hfirst]; exact hr, hin⟩

/-- Three ticks late, at 324 counts a microsecond. -/
theorem tick_resumes_late :
    ∃ turns r, timerInterrupt (fun _ => 5) 324000 turns ⟨1000000, 1000, 0, 0⟩ = some r
      ∧ Ahead 324000 r :=
  (@tick_resumes (fun _ => 5) 324000 (by decide) (fun _ => by decide)
    ⟨1000000, 1000, 0, 0⟩).2 (.inr ⟨by decide, 0, by decide⟩)

/-- Half a wrap late: the next tick is 2^31 - 1 counts away. -/
theorem tick_lost :
    ¬ ∃ turns r, timerInterrupt (fun _ => 1) 324000 turns ⟨2 ^ 31 + 323998, 0, 0, 0⟩ = some r
      ∧ Ahead 324000 r := by
  rintro ⟨turns, r, hr, hin⟩
  cases turns with
  | zero => cases hr
  | succ turns =>
      have hnow : timerInterrupt (fun _ => 1) 324000 (turns + 1) ⟨2 ^ 31 + 323998, 0, 0, 0⟩
          = some (2 ^ 31 + 324001, ⟨2 ^ 31 + 324001, 324000, 3, 0⟩) := by
        unfold timerInterrupt
        dsimp only
        rw [prvSetCompare_succ, if_pos (by decide)]
        rfl
      rw [hnow] at hr
      cases hr
      exact absurd hin.2 (by decide)

end Ncmips.Rtos
