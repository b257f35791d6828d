/-
Dates and times: the driver's conversions, `sdk/brimod.c`, and the
bridge's, esp32c3/bridge/bridge.ino.
-/
import Mathlib.Data.Int.Basic
import Ncmips.Lib.Words

namespace Ncmips.Brimod

open Words

/-- `struct brimod_time`, as far as `brimod_split_time` fills it in. -/
structure Time where
  year : Int
  month : Int
  day : Int
  hour : Int
  min : Int
  sec : Int
  wday : Int

/-- `yoe` -/
def yearOfEra (doe : Nat) : Nat :=
  sub32 (u32 (sub32 doe (doe / 1460) + doe / 36524)) (doe / 146096) / 365

/-- `doy` -/
def dayOfYear (doe yoe : Nat) : Nat := sub32 doe (sub32 (u32 (u32 (365 * yoe) + yoe / 4)) (yoe / 100))

/-- Days since 0000-03-01 to a date. -/
def civilDate (z : Nat) : Int × Int × Int :=
  let era := z / 146097
  let doe := sub32 z (u32 (era * 146097))
  let yoe := yearOfEra doe
  let doy := dayOfYear doe yoe
  let mp := u32 (u32 (5 * doy) + 2) / 153
  let day := u32 (sub32 doy (u32 (u32 (153 * mp) + 2) / 5) + 1)
  let month := if mp < 10 then u32 (mp + 3) else sub32 mp 9
  let year := u32 (u32 (yoe + u32 (era * 400)) + if s32 month ≤ 2 then 1 else 0)
  (s32 year, s32 month, s32 day)

def splitTime (utc : Nat) (tzMin : Int) : Time :=
  let shift := u32 (ofInt32 (if tzMin < 0 then -tzMin else tzMin) * 60)
  let loc :=
    if tzMin ≥ 0 then u32 (utc + shift) else if utc > shift then sub32 utc shift else 0
  let days := loc / 86400
  let secs := loc % 86400
  let date := civilDate (u32 (days + 719468))
  { hour := secs / 3600
    min := secs / 60 % 60
    sec := secs % 60
    wday := (u32 (days + 4) % 7 : Nat)
    day := date.2.2
    month := date.2.1
    year := date.1 }

/-- A civil date to days since 1970-01-01. -/
def civilDays (year month day : Int) : Nat :=
  let y := year - if month ≤ 2 then 1 else 0
  let era := y.tdiv 400
  let yoe := ofInt32 (y - era * 400)
  let doy := ofInt32 ((153 * (if month > 2 then month - 3 else month + 9) + 2).tdiv 5 + day - 1)
  let doe := u32 (sub32 (u32 (u32 (yoe * 365) + yoe / 4)) (yoe / 100) + doy)
  sub32 (u32 (u32 (ofInt32 era * 146097) + doe)) 719468

def makeTime (year month day hour min sec tzMin : Int) : Nat :=
  let loc := u32 (u32 (u32 (u32 (civilDays year month day * 86400) + ofInt32 (hour * 3600))
    + ofInt32 (min * 60)) + ofInt32 sec)
  if tzMin ≥ 0 then sub32 loc (u32 (ofInt32 tzMin * 60))
  else u32 (loc + u32 (ofInt32 (-tzMin) * 60))

/-- `days_from_civil` of the bridge. -/
def daysFromCivil (y : Int) (m d : Nat) : Int :=
  let y := y - if m ≤ 2 then 1 else 0
  let era := (if y ≥ 0 then y else y - 399).tdiv 400
  let yoe := ofInt32 (y - era * 400)
  let doy := sub32 (u32 (u32 (153 * u32 (m + if m > 2 then ofInt32 (-3) else 9) + 2) / 5 + d)) 1
  let doe := u32 (sub32 (u32 (u32 (yoe * 365) + yoe / 4)) (yoe / 100) + doy)
  era * 146097 + doe - 719468

end Ncmips.Brimod
