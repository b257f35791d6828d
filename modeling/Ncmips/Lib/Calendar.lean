/-
The Gregorian calendar, for all years: dates, the day after one, and their
number.

Years that start in March have their leap day at the end, so that a
date's number adds up from the years, months and days before it.
-/
import Mathlib.Tactic.Common

namespace Ncmips

structure Date where
  year : Nat
  month : Nat
  day : Nat
  deriving DecidableEq

def IsLeap (y : Nat) : Prop := y % 4 = 0 ∧ (y % 100 ≠ 0 ∨ y % 400 = 0)

instance (y : Nat) : Decidable (IsLeap y) := inferInstanceAs (Decidable (_ ∧ _))

def monthLength (y m : Nat) : Nat :=
  if m = 2 then if IsLeap y then 29 else 28
  else if m = 4 ∨ m = 6 ∨ m = 9 ∨ m = 11 then 30
  else 31

namespace Date

structure Valid (d : Date) : Prop where
  month : 1 ≤ d.month ∧ d.month ≤ 12
  day : 1 ≤ d.day ∧ d.day ≤ monthLength d.year d.month

/-- The day after. -/
def next (d : Date) : Date :=
  if d.day < monthLength d.year d.month then { d with day := d.day + 1 }
  else if d.month < 12 then { d with month := d.month + 1, day := 1 }
  else { year := d.year + 1, month := 1, day := 1 }

/-- The day `n` days after. -/
def after (d : Date) : Nat → Date
  | 0 => d
  | n + 1 => (d.after n).next

theorem monthLength_pos (y m : Nat) : 28 ≤ monthLength y m ∧ monthLength y m ≤ 31 := by
  unfold monthLength
  split_ifs <;> omega

theorem Valid.next {d : Date} (h : d.Valid) : d.next.Valid := by
  have hmonth := h.month
  have hday := h.day
  unfold Date.next
  split_ifs with hin hyear
  · exact ⟨hmonth, by dsimp only; omega⟩
  · have hlength := monthLength_pos d.year (d.month + 1)
    exact ⟨by dsimp only; omega, Nat.le_refl 1, by dsimp only; omega⟩
  · have hlength := monthLength_pos (d.year + 1) 1
    exact ⟨⟨Nat.le_refl 1, by dsimp only; omega⟩, Nat.le_refl 1, by dsimp only; omega⟩

theorem Valid.after {d : Date} (h : d.Valid) (n : Nat) : (d.after n).Valid := by
  induction n with
  | zero => exact h
  | succ n ih => exact ih.next

theorem le_year_next (d : Date) : d.year ≤ d.next.year := by
  unfold Date.next
  split_ifs
  · exact Nat.le_refl _
  · exact Nat.le_refl _
  · exact Nat.le_succ _

theorem le_year_after (d : Date) (n : Nat) : d.year ≤ (d.after n).year := by
  induction n with
  | zero => exact Nat.le_refl _
  | succ n ih => exact Nat.le_trans ih (le_year_next _)

-- ================================================================== numbers

/-- The year that started in March. -/
def marchYear (d : Date) : Nat := if d.month ≤ 2 then d.year - 1 else d.year

/-- The months since March. -/
def marchMonth (d : Date) : Nat := if d.month ≤ 2 then d.month + 9 else d.month - 3

/-- The days before a month in a year that starts in March. -/
def daysBefore (m : Nat) : Nat := (153 * m + 2) / 5

/-- The days of the March years before `y`. -/
def yearStart (y : Nat) : Nat := 365 * y + y / 4 - y / 100 + y / 400

/-- The day's place in its March year. -/
def yearDay (d : Date) : Nat := daysBefore d.marchMonth + (d.day - 1)

/-- The days since the first of March in the year 0. -/
def number (d : Date) : Nat := yearStart d.marchYear + d.yearDay

/-- A March year has a day more before a leap year's end of February. -/
theorem yearStart_succ (y : Nat) :
    yearStart (y + 1) = yearStart y + if IsLeap (y + 1) then 366 else 365 := by
  have h4 : (y + 1) % 4 = 0 ∧ (y + 1) / 4 = y / 4 + 1 ∨ (y + 1) % 4 ≠ 0 ∧ (y + 1) / 4 = y / 4 := by
    omega
  have h100 : (y + 1) % 100 = 0 ∧ (y + 1) / 100 = y / 100 + 1
      ∨ (y + 1) % 100 ≠ 0 ∧ (y + 1) / 100 = y / 100 := by
    omega
  have h400 : (y + 1) % 400 = 0 ∧ (y + 1) / 400 = y / 400 + 1
      ∨ (y + 1) % 400 ≠ 0 ∧ (y + 1) / 400 = y / 400 := by
    omega
  have h100of : (y + 1) % 400 = 0 → (y + 1) % 100 = 0 := by omega
  have h4of : (y + 1) % 100 = 0 → (y + 1) % 4 = 0 := by omega
  have hle : y / 100 ≤ y := Nat.div_le_self _ _
  have hval : (IsLeap (y + 1) ∧ yearStart (y + 1) = yearStart y + 366)
      ∨ (¬IsLeap (y + 1) ∧ yearStart (y + 1) = yearStart y + 365) := by
    unfold IsLeap yearStart
    generalize (y + 1) % 4 = r4, (y + 1) % 100 = r100, (y + 1) % 400 = r400, (y + 1) / 4 = q4,
      (y + 1) / 100 = q100, (y + 1) / 400 = q400, y / 4 = p4, y / 100 = p100, y / 400 = p400 at *
    omega
  rcases hval with ⟨h, hval⟩ | ⟨h, hval⟩
  · rw [if_pos h, hval]
  · rw [if_neg h, hval]

theorem daysBefore_months : ∀ m < 13, 1 ≤ m → m ≠ 2 →
    daysBefore ((if m ≤ 2 then m + 9 else m - 3) + 1)
      = daysBefore (if m ≤ 2 then m + 9 else m - 3)
        + if m = 4 ∨ m = 6 ∨ m = 9 ∨ m = 11 then 30 else 31 := by
  decide

/-- A month is as long as there are days up to the next one. -/
theorem daysBefore_succ {y m : Nat} (hm : 1 ≤ m ∧ m ≤ 12) (h2 : m ≠ 2) :
    daysBefore (marchMonth ⟨y, m, 1⟩ + 1) = daysBefore (marchMonth ⟨y, m, 1⟩) + monthLength y m := by
  unfold monthLength
  rw [if_neg h2]
  exact daysBefore_months m (by omega) hm.1 h2

/-- What a date's number adds up from. -/
theorem number_mk (y m k : Nat) : number ⟨y, m, k⟩ = yearStart (if m ≤ 2 then y - 1 else y)
    + (daysBefore (if m ≤ 2 then m + 9 else m - 3) + (k - 1)) := rfl

theorem yearDay_mk (y m k : Nat) :
    yearDay ⟨y, m, k⟩ = daysBefore (if m ≤ 2 then m + 9 else m - 3) + (k - 1) := rfl

theorem number_next {d : Date} (h : d.Valid) (hyear : 1 ≤ d.year) : d.next.number = d.number + 1 := by
  obtain ⟨y, m, k⟩ := d
  obtain ⟨⟨hlo, hhi⟩, hday, hlast⟩ := h
  dsimp only at hlo hhi hday hlast hyear
  unfold Date.next
  dsimp only
  split_ifs with hin hdec
  · show yearStart _ + (_ + (k + 1 - 1)) = yearStart _ + (_ + (k - 1)) + 1
    unfold marchYear marchMonth
    dsimp only
    omega
  · have hk : k = monthLength y m := by omega
    by_cases h2 : m = 2
    · subst h2
      obtain ⟨y, rfl⟩ : ∃ y', y = y' + 1 := ⟨y - 1, by omega⟩
      have hlast : daysBefore (2 + 9) = 337 := rfl
      have hfirst : daysBefore (2 + 1 - 3) = 0 := rfl
      rw [number_mk, number_mk, if_neg (by decide), if_neg (by decide), if_pos (by decide),
        if_pos (by decide), hfirst, hlast, Nat.add_sub_cancel, yearStart_succ, hk]
      unfold monthLength
      rw [if_pos rfl]
      split_ifs
      · omega
      · omega
    · have hmonths := @daysBefore_succ y m ⟨hlo, hhi⟩ h2
      have hnext : marchMonth ⟨y, m + 1, 1⟩ = marchMonth ⟨y, m, 1⟩ + 1 := by
        unfold marchMonth
        dsimp only
        split_ifs <;> omega
      have hsame : marchYear ⟨y, m + 1, 1⟩ = marchYear ⟨y, m, 1⟩ := by
        unfold marchYear
        dsimp only
        split_ifs <;> omega
      show yearStart (marchYear ⟨y, m + 1, 1⟩) + (daysBefore (marchMonth ⟨y, m + 1, 1⟩) + 0)
        = yearStart (marchYear ⟨y, m, 1⟩) + (daysBefore (marchMonth ⟨y, m, 1⟩) + (k - 1)) + 1
      rw [hnext, hsame, hmonths]
      omega
  · have hm : m = 12 := by omega
    subst hm
    have hk : k = 31 := by
      have : monthLength y 12 = 31 := rfl
      omega
    subst hk
    have hlast : daysBefore (12 - 3) = 275 := rfl
    have hfirst : daysBefore (1 + 9) = 306 := rfl
    rw [number_mk, number_mk, if_pos (by decide), if_pos (by decide), if_neg (by decide),
      if_neg (by decide), hfirst, hlast, Nat.add_sub_cancel]

theorem number_after {d : Date} (h : d.Valid) (hyear : 1 ≤ d.year) (n : Nat) :
    (d.after n).number = d.number + n := by
  induction n with
  | zero => rfl
  | succ n ih =>
      have hnext := number_next (h.after n) (Nat.le_trans hyear (le_year_after d n))
      show (d.after n).next.number = _
      rw [hnext, ih, Nat.add_assoc]

/-- A March year's last day is a leap year's. -/
theorem Valid.yearDay_le {d : Date} (h : d.Valid) (hyear : 1 ≤ d.year) :
    d.yearDay < 365 ∨ (d.yearDay = 365 ∧ IsLeap (d.marchYear + 1)) := by
  obtain ⟨y, m, k⟩ := d
  obtain ⟨⟨hlo, hhi⟩, hday, hlast⟩ := h
  dsimp only at hlo hhi hday hlast hyear
  by_cases h2 : m = 2
  · subst h2
    obtain ⟨y, rfl⟩ : ∃ y', y = y' + 1 := ⟨y - 1, by omega⟩
    have hyear : (⟨y + 1, 2, k⟩ : Date).marchYear = y := rfl
    have hfeb : daysBefore (2 + 9) = 337 := rfl
    rw [hyear, yearDay_mk, if_pos (by decide), hfeb]
    unfold monthLength at hlast
    rw [if_pos rfl] at hlast
    split_ifs at hlast with hleap
    · by_cases hk : k = 29
      · exact .inr ⟨by omega, hleap⟩
      · exact .inl (by omega)
    · exact .inl (by omega)
  · left
    have hmonths := @daysBefore_succ y m ⟨hlo, hhi⟩ h2
    have hle : daysBefore (marchMonth ⟨y, m, 1⟩ + 1) ≤ 337 := by
      unfold marchMonth daysBefore
      dsimp only
      split_ifs <;> omega
    show daysBefore (marchMonth ⟨y, m, 1⟩) + (k - 1) < 365
    omega

end Date

end Ncmips
