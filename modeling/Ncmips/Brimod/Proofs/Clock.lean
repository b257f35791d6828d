/-
The driver's and the bridge's calendar.

Both count from the first of March of the year 0, by eras of 400 years. A
date's number splits into era, year, month and day again, and the date `n`
days after the epoch has the epoch's number and `n`; so the conversion of a
day is the calendar's date, whose conversion is the day.
-/
import Ncmips.Brimod.Clock
import Ncmips.Lib.Calendar

namespace Ncmips.Brimod

open Words Date

-- ===================================================================== eras

/-- The days of an era before its year `y`. -/
def eraStart (y : Nat) : Nat := 365 * y + y / 4 - y / 100

/-- The day's place in its era. -/
def eraDay (d : Date) : Nat := eraStart (d.marchYear % 400) + d.yearDay

theorem number_eq (d : Date) : d.number = 146097 * (d.marchYear / 400) + eraDay d := by
  unfold number eraDay yearStart eraStart
  generalize d.marchYear = y
  obtain ⟨e, r, hr, rfl⟩ : ∃ e r, r < 400 ∧ y = 400 * e + r :=
    ⟨y / 400, y % 400, by omega, by omega⟩
  have hdiv : (400 * e + r) / 400 = e := by omega
  have hmod : (400 * e + r) % 400 = r := by omega
  have h4 : (400 * e + r) / 4 = 100 * e + r / 4 := by omega
  have h100 : (400 * e + r) / 100 = 4 * e + r / 100 := by omega
  rw [hdiv, hmod, h4, h100]
  omega

/-- A year of an era from a day in it: the leap days so far are taken away. -/
theorem eraYear {y t : Nat} (hy : y < 400) (ht : t < 365 ∨ (t = 365 ∧ IsLeap (y + 1))) :
    (eraStart y + t - (eraStart y + t) / 1460 + (eraStart y + t) / 36524
      - (eraStart y + t) / 146096) / 365 = y ∧ eraStart y + t < 146097 := by
  obtain ⟨c, q, r, hc, hq, hr, rfl⟩ :
      ∃ c q r, c < 4 ∧ q < 25 ∧ r < 4 ∧ y = 100 * c + 4 * q + r :=
    ⟨y / 100, y % 100 / 4, y % 4, by omega, by omega, by omega, by omega⟩
  have hleap : t < 365 ∨ (t = 365 ∧ r = 3 ∧ (q < 24 ∨ (c = 3 ∧ q = 24))) := by
    unfold IsLeap at ht
    omega
  obtain ⟨doe, hdoe⟩ : ∃ doe, eraStart (100 * c + 4 * q + r) + t = doe := ⟨_, rfl⟩
  have hsum : doe = 36524 * c + 1461 * q + 365 * r + t := by
    unfold eraStart at hdoe
    omega
  rw [hdoe]
  clear ht hdoe
  refine ⟨?_, by omega⟩
  by_cases hlast : doe = 146096
  · omega
  · have hcentury : 1461 * q + 365 * r + t < 36524 := by omega
    have h36524 : doe / 36524 = c := by omega
    have h146096 : doe / 146096 = 0 := by omega
    have h1460 : doe / 1460 = 25 * c + q + (24 * c + q + 365 * r + t) / 1460 := by omega
    rw [h36524, h146096, h1460]
    by_cases hover : 24 * c + q + 365 * r + t < 1460
    · rw [Nat.div_eq_of_lt hover]
      omega
    · have hone : (24 * c + q + 365 * r + t) / 1460 = 1 := by omega
      omega

theorem marchMonth_le {d : Date} (h : d.Valid) : d.marchMonth < 12 := by
  have hmonth := h.month
  unfold marchMonth
  split_ifs <;> omega

/-- The month from the day in the year. -/
theorem yearMonth {d : Date} (h : d.Valid) : (5 * d.yearDay + 2) / 153 = d.marchMonth := by
  obtain ⟨y, m, k⟩ := d
  have hlast : yearDay ⟨y, m, k⟩ < daysBefore (marchMonth ⟨y, m, k⟩ + 1) := by
    have hday := h.day
    dsimp only at hday
    by_cases h2 : m = 2
    · subst h2
      have hlength := monthLength_pos y 2
      unfold monthLength at hday
      rw [if_pos rfl] at hday
      have hmonth : marchMonth ⟨y, 2, k⟩ = 11 := rfl
      have hfeb : daysBefore 11 = 337 := rfl
      have hend : daysBefore (11 + 1) = 367 := rfl
      unfold yearDay
      rw [hmonth, hfeb, hend]
      dsimp only
      split_ifs at hday <;> omega
    · have hmonths := @daysBefore_succ y m h.month h2
      have hsame : marchMonth ⟨y, m, k⟩ = marchMonth ⟨y, m, 1⟩ := rfl
      unfold yearDay
      dsimp only
      rw [hsame, hmonths]
      omega
  unfold yearDay daysBefore at *
  omega

-- ============================================================== conversions

theorem eraDay_spec {d : Date} (h : d.Valid) (hyear : 1 ≤ d.year) :
    yearOfEra (eraDay d) = d.marchYear % 400
      ∧ dayOfYear (eraDay d) (d.marchYear % 400) = d.yearDay ∧ eraDay d < 146097 := by
  have hmod : d.marchYear % 400 < 400 := Nat.mod_lt _ (by decide)
  have hday : d.yearDay < 365 ∨ (d.yearDay = 365 ∧ IsLeap (d.marchYear % 400 + 1)) := by
    have hleap : IsLeap (d.marchYear % 400 + 1) ↔ IsLeap (d.marchYear + 1) := by
      unfold IsLeap
      omega
    rw [hleap]
    exact h.yearDay_le hyear
  obtain ⟨hyoe, hdoe⟩ := eraYear hmod hday
  have hstart : eraStart (d.marchYear % 400) = 365 * (d.marchYear % 400)
      + d.marchYear % 400 / 4 - d.marchYear % 400 / 100 := rfl
  have hera : eraStart (d.marchYear % 400) + d.yearDay = eraDay d := rfl
  rw [hera] at hyoe hdoe
  generalize d.marchYear % 400 = y at *
  generalize eraDay d = doe at *
  refine ⟨?_, ?_, hdoe⟩
  · unfold yearOfEra
    have hsmall : doe - doe / 1460 + doe / 36524 < 2 ^ 32 := by omega
    have hlast : doe / 146096 ≤ doe - doe / 1460 + doe / 36524 := by omega
    rw [sub32_of_le (Nat.div_le_self _ _) (show doe < 2 ^ 32 by omega), u32_of_lt hsmall,
      sub32_of_le hlast hsmall]
    exact hyoe
  · unfold dayOfYear
    have hsmall : 365 * y + y / 4 < 2 ^ 32 := by omega
    rw [u32_of_lt (show 365 * y < 2 ^ 32 by omega), u32_of_lt hsmall,
      sub32_of_le (show y / 100 ≤ 365 * y + y / 4 by omega) hsmall, ← hstart,
      sub32_of_le (by omega) (by omega), ← hera, Nat.add_sub_cancel_left]

/-- A date's number is converted to the date. -/
theorem civilDate_number {d : Date} (h : d.Valid) (hyear : 1 ≤ d.year) (hsmall : d.number < 2 ^ 20) :
    civilDate d.number = (↑d.year, ↑d.month, ↑d.day) := by
  obtain ⟨hyoe, hdoy, hdoe⟩ := eraDay_spec h hyear
  have hnumber := number_eq d
  have hera : d.number / 146097 = d.marchYear / 400 := by omega
  have hlast : sub32 d.number (u32 (d.marchYear / 400 * 146097)) = eraDay d := by
    rw [u32_of_lt (by omega), sub32_of_le (by omega) (by omega)]
    omega
  have hyd : d.yearDay < 366 := by
    rcases h.yearDay_le hyear with hlt | ⟨heq, -⟩
    · omega
    · omega
  have hmp : u32 (u32 (5 * d.yearDay) + 2) / 153 = d.marchMonth := by
    rw [u32_of_lt (show 5 * d.yearDay < 2 ^ 32 by omega), u32_of_lt (by omega)]
    exact yearMonth h
  have hmm := marchMonth_le h
  have hday : u32 (sub32 d.yearDay (u32 (u32 (153 * d.marchMonth) + 2) / 5) + 1) = d.day := by
    have hpos := h.day.1
    have hsum : d.yearDay = daysBefore d.marchMonth + (d.day - 1) := rfl
    have hbefore : (153 * d.marchMonth + 2) / 5 = daysBefore d.marchMonth := rfl
    rw [u32_of_lt (show 153 * d.marchMonth < 2 ^ 32 by omega),
      u32_of_lt (show 153 * d.marchMonth + 2 < 2 ^ 32 by omega), hbefore,
      sub32_of_le (show daysBefore d.marchMonth ≤ d.yearDay by omega) (by omega),
      u32_of_lt (by omega)]
    omega
  unfold civilDate
  dsimp only
  rw [hera, hlast, hyoe, hdoy, hmp, hday]
  have hmonths := h.month
  have hmonth : (if d.marchMonth < 10 then u32 (d.marchMonth + 3) else sub32 d.marchMonth 9)
      = d.month := by
    split_ifs with hfirst
    · rw [u32_of_lt (by omega)]
      unfold marchMonth at hfirst ⊢
      split_ifs at hfirst ⊢ <;> omega
    · rw [sub32_of_le (by omega) (by omega)]
      unfold marchMonth at hfirst ⊢
      split_ifs at hfirst ⊢ <;> omega
  have hdays := monthLength_pos d.year d.month
  have hlastday := h.day.2
  rw [hmonth, s32_of_range (show -2 ^ 31 ≤ (d.month : Int) by omega) (by omega),
    s32_of_range (show -2 ^ 31 ≤ (d.day : Int) by omega) (by omega)]
  have hyears : u32 (u32 (d.marchYear % 400 + u32 (d.marchYear / 400 * 400))
      + if (d.month : Int) ≤ 2 then 1 else 0) = d.year := by
    have hsplit : d.marchYear % 400 + d.marchYear / 400 * 400 = d.marchYear := by omega
    have hyear : d.marchYear = if d.month ≤ 2 then d.year - 1 else d.year := rfl
    rw [u32_of_lt (show d.marchYear / 400 * 400 < 2 ^ 32 by omega), hsplit,
      u32_of_lt (show d.marchYear < 2 ^ 32 by omega)]
    split_ifs at hyear ⊢
    · rw [u32_of_lt (by omega)]
      omega
    · omega
    · omega
    · rw [u32_of_lt (by omega)]
      omega
  have hyear : d.year ≤ d.marchYear + 1 := by
    unfold marchYear
    split_ifs <;> omega
  rw [hyears, s32_of_range (by omega) (by omega)]

/-- The March year and the day in it, in the words of both conversions. -/
theorem marchYear_int {d : Date} (hyear : 1 ≤ d.year) :
    (d.year : Int) - (if (d.month : Int) ≤ 2 then 1 else 0) = d.marchYear := by
  unfold marchYear
  split_ifs <;> omega

theorem yearDay_int {d : Date} (h : d.Valid) :
    (153 * (if (d.month : Int) > 2 then (d.month : Int) - 3 else d.month + 9) + 2).tdiv 5 + d.day - 1
      = d.yearDay := by
  have hday := h.day.1
  have hmonth : (if (d.month : Int) > 2 then (d.month : Int) - 3 else d.month + 9)
      = d.marchMonth := by
    unfold marchMonth
    split_ifs <;> omega
  rw [hmonth, Int.tdiv_eq_ediv_of_nonneg (by omega)]
  unfold yearDay daysBefore
  omega

/-- `yoe * 365 + yoe / 4 - yoe / 100 + doy` -/
theorem eraDay_words {d : Date} (h : d.Valid) (hyear : 1 ≤ d.year) :
    u32 (sub32 (u32 (u32 (d.marchYear % 400 * 365) + d.marchYear % 400 / 4)) (d.marchYear % 400 / 100)
      + d.yearDay) = eraDay d := by
  have hdoe := (eraDay_spec h hyear).2.2
  obtain ⟨y, hy⟩ : ∃ y, d.marchYear % 400 = y := ⟨_, rfl⟩
  have hmod : y < 400 := hy ▸ Nat.mod_lt _ (by decide)
  unfold eraDay eraStart at *
  rw [hy] at hdoe ⊢
  have hquarter : y / 4 ≤ y := Nat.div_le_self _ _
  have hyears : y * 365 < 2 ^ 32 := by omega
  have hsmall : y * 365 + y / 4 < 2 ^ 32 :=
    Nat.lt_of_le_of_lt (show y * 365 + y / 4 ≤ 400 * 366 by omega) (by decide)
  have hle : y / 100 ≤ y * 365 + y / 4 := by omega
  rw [u32_of_lt hyears, u32_of_lt hsmall, sub32_of_le hle hsmall, Nat.mul_comm y 365,
    u32_of_lt (Nat.lt_trans hdoe (by decide))]

theorem civilDays_eq {d : Date} (h : d.Valid) (hyear : 1 ≤ d.year) (hsmall : d.number < 2 ^ 20)
    (hepoch : 719468 ≤ d.number) : civilDays d.year d.month d.day = d.number - 719468 := by
  have hnumber := number_eq d
  have hera : (d.marchYear : Int).tdiv 400 = (d.marchYear / 400 : Nat) := by
    rw [Int.tdiv_eq_ediv_of_nonneg (by omega)]
    rfl
  have hyoe : ofInt32 ((d.marchYear : Int) - (d.marchYear / 400 : Nat) * 400)
      = d.marchYear % 400 := by
    rw [ofInt32_of_range (by omega) (by omega)]
    omega
  have hdoy : ofInt32 (d.yearDay : Int) = d.yearDay := by
    have hday := h.yearDay_le hyear
    rw [ofInt32_of_range (by omega) (by omega), Int.toNat_natCast]
  have hdoe := (eraDay_spec h hyear).2.2
  unfold civilDays
  dsimp only
  rw [marchYear_int hyear, yearDay_int h, hera, hyoe, hdoy, eraDay_words h hyear,
    ofInt32_of_range (by omega) (by omega), Int.toNat_natCast,
    u32_of_lt (show d.marchYear / 400 * 146097 < 2 ^ 32 by omega), u32_of_lt (by omega),
    sub32_of_le (by omega) (by omega)]
  omega

theorem daysFromCivil_eq {d : Date} (h : d.Valid) (hyear : 1 ≤ d.year) :
    daysFromCivil d.year d.month d.day = (d.number : Int) - 719468 := by
  have hnumber := number_eq d
  have hmonths := h.month
  have hdays := h.day
  have hlength := monthLength_pos d.year d.month
  have hy : (d.year : Int) - (if d.month ≤ 2 then 1 else 0) = d.marchYear := by
    unfold marchYear
    split_ifs <;> omega
  have hera : (if (d.marchYear : Int) ≥ 0 then (d.marchYear : Int) else d.marchYear - 399).tdiv 400
      = (d.marchYear / 400 : Nat) := by
    rw [if_pos (by omega), Int.tdiv_eq_ediv_of_nonneg (by omega)]
    rfl
  have hyoe : ofInt32 ((d.marchYear : Int) - (d.marchYear / 400 : Nat) * 400)
      = d.marchYear % 400 := by
    rw [ofInt32_of_range (by omega) (by omega)]
    omega
  have hmonth : u32 (d.month + if d.month > 2 then ofInt32 (-3) else 9) = d.marchMonth := by
    have hneg : ofInt32 (-3) = 2 ^ 32 - 3 := by decide
    rw [hneg]
    unfold marchMonth u32
    split_ifs <;> omega
  have hdoy : sub32 (u32 (u32 (153 * d.marchMonth + 2) / 5 + d.day)) 1 = d.yearDay := by
    have hmm := marchMonth_le h
    have hbefore : (153 * d.marchMonth + 2) / 5 = daysBefore d.marchMonth := rfl
    have hle : daysBefore d.marchMonth ≤ 365 := by
      unfold daysBefore
      omega
    rw [u32_of_lt (show 153 * d.marchMonth + 2 < 2 ^ 32 by omega), hbefore, u32_of_lt (by omega),
      sub32_of_le (by omega) (by omega)]
    unfold yearDay
    omega
  have hdoe := (eraDay_spec h hyear).2.2
  unfold daysFromCivil
  dsimp only
  rw [hy, hera, hyoe, hmonth, hdoy, eraDay_words h hyear]
  omega

-- ==================================================================== clock

/-- A Thursday. -/
def epoch : Date := ⟨1970, 1, 1⟩

theorem epoch_after (n : Nat) : (epoch.after n).Valid ∧ 1 ≤ (epoch.after n).year
    ∧ (epoch.after n).number = 719468 + n := by
  have hvalid : epoch.Valid := ⟨by decide, by decide⟩
  exact ⟨hvalid.after n, Nat.le_trans (by decide) (le_year_after epoch n),
    number_after hvalid (by decide) n⟩

/-- The local time in seconds. -/
def localTime (utc : Nat) (tz : Int) : Nat := (utc + 60 * tz).toNat

theorem splitTime_eq {utc : Nat} {tz : Int} (hutc : utc < 2 ^ 32) (htz : -1440 ≤ tz ∧ tz ≤ 1440)
    (hlocal : 0 ≤ utc + 60 * tz ∧ utc + 60 * tz < 2 ^ 32) :
    splitTime utc tz =
      let date := epoch.after (localTime utc tz / 86400)
      let secs := localTime utc tz % 86400
      { year := date.year, month := date.month, day := date.day, hour := (secs / 3600 : Nat),
        min := (secs / 60 % 60 : Nat), sec := (secs % 60 : Nat),
        wday := ((4 + localTime utc tz / 86400) % 7 : Nat) } := by
  have hshift : u32 (ofInt32 (if tz < 0 then -tz else tz) * 60)
      = (if tz < 0 then -tz else tz).toNat * 60 := by
    have hrange : 0 ≤ (if tz < 0 then -tz else tz) ∧ (if tz < 0 then -tz else tz) ≤ 1440 := by
      split_ifs
      · omega
      · omega
    generalize (if tz < 0 then -tz else tz) = shift at *
    rw [ofInt32_of_range hrange.1 (by omega), u32_of_lt (by omega)]
  have hloc : (if tz ≥ 0 then u32 (utc + (if tz < 0 then -tz else tz).toNat * 60)
      else if utc > (if tz < 0 then -tz else tz).toNat * 60 then
        sub32 utc ((if tz < 0 then -tz else tz).toNat * 60) else 0) = localTime utc tz := by
    unfold localTime
    by_cases hpos : tz ≥ 0
    · rw [if_pos hpos, if_neg (show ¬tz < 0 by omega), u32_of_lt (by omega)]
      omega
    · rw [if_neg hpos, if_pos (show tz < 0 by omega)]
      split_ifs
      · rw [sub32_of_le (by omega) hutc]
        omega
      · omega
  have hlt : localTime utc tz < 2 ^ 32 := by
    unfold localTime
    omega
  obtain ⟨hvalid, hyear, hnumber⟩ := epoch_after (localTime utc tz / 86400)
  have hdate := civilDate_number hvalid hyear (by omega)
  rw [hnumber, Nat.add_comm] at hdate
  unfold splitTime
  dsimp only
  rw [hshift, hloc, u32_of_lt (show localTime utc tz / 86400 + 719468 < 2 ^ 32 by omega), hdate,
    u32_of_lt (show localTime utc tz / 86400 + 4 < 2 ^ 32 by omega),
    Nat.add_comm (localTime utc tz / 86400) 4]
  rfl

/-- The fields are the date of that many days after the epoch, the time and
the day of the week, and both ways back give what it came from. -/
theorem calendar_exact {utc : Nat} {tz : Int} (hutc : utc < 2 ^ 32) (htz : -1440 ≤ tz ∧ tz ≤ 1440)
    (hlocal : 0 ≤ utc + 60 * tz ∧ utc + 60 * tz < 2 ^ 32) :
    (let t := splitTime utc tz
     let days := localTime utc tz / 86400
     let date := epoch.after days
     (t.year = date.year ∧ t.month = date.month ∧ t.day = date.day)
       ∧ (0 ≤ t.hour ∧ 0 ≤ t.min ∧ t.min < 60 ∧ 0 ≤ t.sec ∧ t.sec < 60
         ∧ t.hour * 3600 + t.min * 60 + t.sec = (localTime utc tz % 86400 : Nat))
       ∧ t.wday = ((4 + days) % 7 : Nat)
       ∧ makeTime t.year t.month t.day t.hour t.min t.sec tz = utc
       ∧ daysFromCivil t.year t.month.toNat t.day.toNat = days) := by
  intro t days date
  have ht : t = splitTime utc tz := rfl
  rw [splitTime_eq hutc htz hlocal] at ht
  obtain ⟨hvalid, hyear, hnumber⟩ := epoch_after days
  have hlt : localTime utc tz < 2 ^ 32 := by
    unfold localTime
    omega
  have hdays : days = localTime utc tz / 86400 := rfl
  have hutcs : utc + 60 * tz = localTime utc tz := by
    unfold localTime
    omega
  clear_value t
  subst ht
  dsimp only
  refine ⟨⟨rfl, rfl, rfl⟩, ⟨by omega, by omega, by omega, by omega, by omega, by omega⟩, rfl, ?_, ?_⟩
  · unfold makeTime
    dsimp only
    rw [← hdays, civilDays_eq hvalid hyear (by omega) (by omega), hnumber, Nat.add_sub_cancel_left,
      ofInt32_of_range (by omega) (by omega), ofInt32_of_range (by omega) (by omega),
      ofInt32_of_range (by omega) (by omega)]
    have hsum : u32 (u32 (u32 (u32 (days * 86400)
        + ((localTime utc tz % 86400 / 3600 : Nat) * 3600 : Int).toNat)
        + ((localTime utc tz % 86400 / 60 % 60 : Nat) * 60 : Int).toNat)
        + ((localTime utc tz % 86400 % 60 : Nat) : Int).toNat) = localTime utc tz := by
      have hhour : ((localTime utc tz % 86400 / 3600 : Nat) * 3600 : Int).toNat
          = localTime utc tz % 86400 / 3600 * 3600 := rfl
      have hmin : ((localTime utc tz % 86400 / 60 % 60 : Nat) * 60 : Int).toNat
          = localTime utc tz % 86400 / 60 % 60 * 60 := rfl
      rw [hhour, hmin, Int.toNat_natCast, u32_of_lt (show days * 86400 < 2 ^ 32 by omega),
        u32_of_lt (show days * 86400 + localTime utc tz % 86400 / 3600 * 3600 < 2 ^ 32 by omega),
        u32_of_lt (show days * 86400 + localTime utc tz % 86400 / 3600 * 3600
          + localTime utc tz % 86400 / 60 % 60 * 60 < 2 ^ 32 by omega), u32_of_lt (by omega)]
      omega
    rw [hsum]
    split_ifs
    · rw [ofInt32_of_range (by omega) (by omega), u32_of_lt (by omega), sub32_of_le (by omega) hlt]
      omega
    · rw [ofInt32_of_range (by omega) (by omega), u32_of_lt (show (-tz).toNat * 60 < 2 ^ 32 by omega),
        u32_of_lt (by omega)]
      omega
  · rw [Int.toNat_natCast, Int.toNat_natCast, daysFromCivil_eq hvalid hyear, hnumber]
    omega

theorem calendar_exact_leap :
    (splitTime 951782400 420).day = (epoch.after (localTime 951782400 420 / 86400)).day
      ∧ makeTime (splitTime 951782400 420).year (splitTime 951782400 420).month
        (splitTime 951782400 420).day (splitTime 951782400 420).hour (splitTime 951782400 420).min
        (splitTime 951782400 420).sec 420 = 951782400 := by
  obtain ⟨⟨-, -, hday⟩, -, -, hmake, -⟩ :=
    @calendar_exact 951782400 420 (by decide) (by decide) (by decide)
  exact ⟨hday, hmake⟩

end Ncmips.Brimod
