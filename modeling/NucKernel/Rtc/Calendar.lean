import Mathlib.Tactic.NormNum
import NucKernel.Library.Calendar

/-!
# Seconds and dates

Model of the conversions of `drivers/rtc/rtc-lib.c` between seconds since 1970-01-01 and broken-down
time. The year is guessed by dividing the days by 365 and corrected once; the month is found by
subtracting the lengths of the months.

## Modelling

- `unsigned long` has 32 bits. The fields of `struct rtc_time` and `days` are `int`, none of which
  overflows here.
- `mktime` and `is_leap_year` are not in this repository. They stand for the kernel's formula,
  modulo 2^32, and the Gregorian rule.
-/

namespace NucKernel.Rtc

open NucKernel.Library.Calendar

/-! ## The conversions -/

structure RtcTime where
  sec : ℤ
  min : ℤ
  hour : ℤ
  mday : ℤ
  mon : ℤ
  year : ℤ
  wday : ℤ
  yday : ℤ
  isdst : ℤ
deriving DecidableEq

def isLeapYear (year : ℕ) : Bool := (year % 4 == 0 && year % 100 != 0) || year % 400 == 0

def rtcDaysInMonth : List ℕ := [31, 28, 31, 30, 31, 30, 31, 31, 30, 31, 30, 31]

def rtcMonthDays (month year : ℕ) : ℕ :=
  rtcDaysInMonth.getD month 0 + if isLeapYear year && month == 1 then 1 else 0

/-- `rtc_ydays`: the days before each month, and before the next year -/
def rtcYdays (leap : Bool) : List ℕ :=
  if leap then [0, 31, 60, 91, 121, 152, 182, 213, 244, 274, 305, 335, 366]
  else [0, 31, 59, 90, 120, 151, 181, 212, 243, 273, 304, 334, 365]

def rtcYearDays (day month year : ℕ) : ℕ := (rtcYdays (isLeapYear year)).getD month 0 + day - 1

def leapsThruEndOf (y : ℕ) : ℕ := y / 4 - y / 100 + y / 400

/-- The year of a day after 1970-01-01, and the days of that year before it -/
def yearOf (days : ℕ) : ℕ × ℤ :=
  let year := 1970 + days / 365
  let days : ℤ :=
    days - ((year - 1970) * 365 + leapsThruEndOf (year - 1) - leapsThruEndOf (1970 - 1))
  if days < 0 then (year - 1, days + (365 + if isLeapYear (year - 1) then 1 else 0))
  else (year, days)

/-- The loop over the months, with the number of rounds left -/
def monthLoop (year : ℕ) : ℕ → ℕ → ℤ → ℕ × ℤ
  | 0, month, days => (month, days)
  | rounds + 1, month, days =>
    let newdays := days - rtcMonthDays month year
    if newdays < 0 then (month, days) else monthLoop year rounds (month + 1) newdays

def rtcTimeToTm (time : UInt32) : RtcTime :=
  let days := time.toNat / 86400
  let time := time.toNat - days * 86400
  let (year, yday) := yearOf days
  let (month, mday) := monthLoop year 11 0 yday
  let hour := time / 3600
  let time := time - hour * 3600
  let min := time / 60
  ⟨(time - min * 60 : ℕ), min, hour, mday + 1, month, year - 1900, ((days + 4) % 7 : ℕ), yday + 1,
    0⟩

def einval : ℤ := 22

/-- `(unsigned)x >= n` for an `int`: negative numbers become large ones. -/
def UnsignedGe (x : ℤ) (n : ℕ) : Prop := x < 0 ∨ n ≤ x

instance (x : ℤ) (n : ℕ) : Decidable (UnsignedGe x n) :=
  inferInstanceAs (Decidable (x < 0 ∨ (n : ℤ) ≤ x))

def rtcValidTm (tm : RtcTime) : ℤ :=
  if tm.year < 70 ∨ UnsignedGe tm.mon 12 ∨ tm.mday < 1 ∨
      (rtcMonthDays tm.mon.toNat (tm.year + 1900).toNat : ℤ) < tm.mday ∨
      UnsignedGe tm.hour 24 ∨ UnsignedGe tm.min 60 ∨ UnsignedGe tm.sec 60 then -einval
  else 0

/-- The days of `mktime`: March is the first month of a year, so that a leap day is the last one. -/
def marchDays (year mon day : ℤ) : ℤ :=
  let (year, mon) := if mon - 2 ≤ 0 then (year - 1, mon - 2 + 12) else (year, mon - 2)
  (year / 4 - year / 100 + year / 400 + 367 * mon / 12 + day) + year * 365 - 719499

def mktime (year mon day hour min sec : ℤ) : ℤ :=
  (((marchDays year mon day * 24 + hour) * 60 + min) * 60 + sec) % 2 ^ 32

def rtcTmToTime (tm : RtcTime) : ℤ :=
  mktime (tm.year + 1900) (tm.mon + 1) tm.mday tm.hour tm.min tm.sec

/-! ## The calendar -/

def epoch : Moment isLeapYear :=
  ⟨firstDay isLeapYear 1970 0 (Nat.succ_pos 11), 0, 0, 0, Nat.succ_pos 23, Nat.succ_pos 59,
    Nat.succ_pos 59⟩

/-- Weekdays are counted from Sunday. -/
def nextWeekday (w : ℕ) : ℕ := if w = 6 then 0 else w + 1

def weekday (d : Date isLeapYear) : ℕ := nextWeekday^[d.dayNumber - epoch.date.dayNumber] 4

/-- The fields are those of a moment of the calendar. -/
structure Shows (tm : RtcTime) (m : Moment isLeapYear) : Prop where
  year : tm.year + 1900 = m.date.year
  mon : tm.mon = m.date.month
  mday : tm.mday = m.date.day
  hour : tm.hour = m.hour
  min : tm.min = m.minute
  sec : tm.sec = m.second

/-- The fields of date and time, the most significant first -/
def RtcTime.fields (tm : RtcTime) : List ℤ := [tm.year, tm.mon, tm.mday, tm.hour, tm.min, tm.sec]

theorem rtcMonthDays_eq (month year : ℕ) :
    rtcMonthDays month year = monthDays isLeapYear year month := rfl

theorem rtcYdays_succ (year : ℕ) {month : ℕ} (h : month < 12) :
    (rtcYdays (isLeapYear year)).getD (month + 1) 0 =
      (rtcYdays (isLeapYear year)).getD month 0 + monthDays isLeapYear year month := by
  have htable : ∀ leap, ∀ m < 12, (rtcYdays leap).getD (m + 1) 0 = (rtcYdays leap).getD m 0 +
      ([31, 28, 31, 30, 31, 30, 31, 31, 30, 31, 30, 31].getD m 0 +
        if leap && m == 1 then 1 else 0) := by decide
  exact htable (isLeapYear year) month h

theorem rtcYdays_eq (year : ℕ) {month : ℕ} (h : month ≤ 12) :
    (rtcYdays (isLeapYear year)).getD month 0 = daysBeforeMonth isLeapYear year month := by
  induction month with
  | zero => cases isLeapYear year <;> rfl
  | succ month ih => rw [rtcYdays_succ year h, ih (Nat.le_of_succ_le h), daysBeforeMonth]

theorem rtcYearDays_eq (d : Date isLeapYear) :
    rtcYearDays d.day d.month d.year = d.dayNumber - daysBeforeYear isLeapYear d.year := by
  have hpos := d.day_pos
  rw [rtcYearDays, rtcYdays_eq d.year (Nat.le_of_lt d.month_lt), Date.dayNumber]
  omega

theorem yearLength (year : ℕ) :
    daysBeforeMonth isLeapYear year 12 = 365 + if isLeapYear year then 1 else 0 := by
  rw [← rtcYdays_eq year (Nat.le_refl 12)]
  cases isLeapYear year <;> rfl

/-! ## Year and month -/

theorem isLeapYear_iff (year : ℕ) :
    isLeapYear year = true ↔ year % 4 = 0 ∧ year % 100 ≠ 0 ∨ year % 400 = 0 := by
  simp [isLeapYear]

theorem leapsThruEndOf_succ (y : ℕ) :
    leapsThruEndOf (y + 1) = leapsThruEndOf y + if isLeapYear (y + 1) then 1 else 0 := by
  have hcenturies : y / 100 ≤ y / 4 := Nat.div_le_div_left (by decide) (by decide)
  have h100 : 100 ∣ y + 1 → 4 ∣ y + 1 := Nat.dvd_trans (by decide)
  have h400 : 400 ∣ y + 1 → 100 ∣ y + 1 := Nat.dvd_trans (by decide)
  have hleap : isLeapYear (y + 1) = true ↔ 4 ∣ y + 1 ∧ ¬ 100 ∣ y + 1 ∨ 400 ∣ y + 1 := by
    simp only [isLeapYear_iff, Nat.dvd_iff_mod_eq_zero, ne_eq]
  simp only [leapsThruEndOf, Nat.succ_div, hleap]
  -- a multiple of 400 is one of 100, and a multiple of 100 one of 4
  by_cases d4 : 4 ∣ y + 1
  · by_cases d100 : 100 ∣ y + 1
    · by_cases d400 : 400 ∣ y + 1 <;> simp only [d4, d100, d400, if_true, if_false, not_true,
        and_false, or_false, or_true] <;> omega
    · have d400 : ¬ 400 ∣ y + 1 := fun h => d100 (h400 h)
      simp only [d4, d100, d400, if_true, if_false, not_false_iff, and_true, or_false]
      omega
  · have d100 : ¬ 100 ∣ y + 1 := fun h => d4 (h100 h)
    have d400 : ¬ 400 ∣ y + 1 := fun h => d100 (h400 h)
    simp only [d4, d100, d400, if_false, false_and, or_false]
    omega

theorem daysBeforeYear_succ (y : ℕ) :
    daysBeforeYear isLeapYear (y + 1) = 365 * (y + 1) + leapsThruEndOf y + 1 := by
  induction y with
  | zero => decide
  | succ y ih =>
    rw [daysBeforeYear, ih, yearLength, leapsThruEndOf_succ]
    omega

theorem dayNumber_epoch : epoch.date.dayNumber = 719528 := by
  have hleaps : 365 * (1969 + 1) + leapsThruEndOf 1969 + 1 = 719528 := by decide
  exact (Date.dayNumber_firstDay 1970 _).trans ((daysBeforeYear_succ 1969).trans hleaps)

theorem secondNumber_epoch : epoch.secondNumber = 719528 * 86400 := by
  rw [Moment.secondNumber, dayNumber_epoch]
  rfl

/-- The guess is right or one year too high: before the end of the guessed year there are fewer leap
    days than a year has days. -/
theorem yearOf_spec {days : ℕ} (h : days ≤ 49710) :
    1970 ≤ (yearOf days).1 ∧ 0 ≤ (yearOf days).2 ∧
      (yearOf days).2 < daysBeforeMonth isLeapYear (yearOf days).1 12 ∧
      daysBeforeYear isLeapYear (yearOf days).1 + (yearOf days).2 =
        epoch.date.dayNumber + days := by
  obtain ⟨y, hy⟩ : ∃ y, days / 365 = y := ⟨_, rfl⟩
  obtain ⟨leaps, hl⟩ : ∃ leaps, leapsThruEndOf (1969 + y) = leaps := ⟨_, rfl⟩
  have hfew : 477 ≤ leaps ∧ leaps ≤ 477 + 365 := by
    rw [← hl, leapsThruEndOf]
    omega
  have hbefore : leapsThruEndOf (1970 - 1) = 477 := by decide
  -- the first guess needs no correction
  have hfirst : y = 0 → leaps = 477 := by
    rintro rfl
    exact hl.symm.trans hbefore
  have hguess : daysBeforeYear isLeapYear (1970 + y) = 365 * (1970 + y) + leaps + 1 := by
    rw [← hl, show 1970 + y = 1969 + y + 1 from by omega, daysBeforeYear_succ]
  simp only [yearOf, hy, hl, hbefore, dayNumber_epoch, show 1970 + y - 1 = 1969 + y from by omega]
  split
  · -- the guess is one year too high
    rename_i hneg
    dsimp only
    have hprev : daysBeforeYear isLeapYear (1970 + y) =
        daysBeforeYear isLeapYear (1969 + y) + daysBeforeMonth isLeapYear (1969 + y) 12 := by
      rw [show 1970 + y = 1969 + y + 1 from by omega, daysBeforeYear]
    rw [yearLength] at hprev ⊢
    split at hprev <;> simp only [*, if_true] <;> push_cast at hneg ⊢ <;> omega
  · -- the guess is right
    rename_i hpos
    dsimp only
    rw [yearLength]
    split <;> push_cast at hpos ⊢ <;> omega

theorem monthLoop_spec (year : ℕ) {rounds month : ℕ} {days : ℤ} (hrounds : month + rounds = 11)
    (hpos : 0 ≤ days)
    (hlt : daysBeforeMonth isLeapYear year month + days < daysBeforeMonth isLeapYear year 12) :
    ∃ m r : ℕ, monthLoop year rounds month days = (m, (r : ℤ)) ∧ m < 12 ∧
      r < monthDays isLeapYear year m ∧
      (daysBeforeMonth isLeapYear year m + r : ℤ) =
        daysBeforeMonth isLeapYear year month + days := by
  induction rounds generalizing month days with
  | zero =>
    -- only December is left
    obtain rfl : month = 11 := by omega
    obtain ⟨r, rfl⟩ := Int.eq_ofNat_of_zero_le hpos
    refine ⟨11, r, rfl, by decide, ?_, rfl⟩
    have hyear : daysBeforeMonth isLeapYear year 12 =
        daysBeforeMonth isLeapYear year 11 + monthDays isLeapYear year 11 := rfl
    omega
  | succ rounds ih =>
    rw [monthLoop, rtcMonthDays_eq]
    split
    · -- the day is in this month
      rename_i hneg
      obtain ⟨r, rfl⟩ := Int.eq_ofNat_of_zero_le hpos
      exact ⟨month, r, rfl, by omega, by omega, rfl⟩
    · rename_i hnext
      have hmonth : daysBeforeMonth isLeapYear year (month + 1) =
          daysBeforeMonth isLeapYear year month + monthDays isLeapYear year month := rfl
      obtain ⟨m, r, hloop, hm, hr, hsum⟩ :=
        @ih (month + 1) (days - monthDays isLeapYear year month) (by omega) (by omega) (by omega)
      exact ⟨m, r, hloop, hm, hr, by omega⟩

/-! ## The fields of a moment -/

theorem rtcValidTm_iff (tm : RtcTime) :
    rtcValidTm tm = 0 ↔ 70 ≤ tm.year ∧ (0 ≤ tm.mon ∧ tm.mon < 12) ∧ 1 ≤ tm.mday ∧
      tm.mday ≤ rtcMonthDays tm.mon.toNat (tm.year + 1900).toNat ∧
      (0 ≤ tm.hour ∧ tm.hour < 24) ∧ (0 ≤ tm.min ∧ tm.min < 60) ∧ 0 ≤ tm.sec ∧ tm.sec < 60 := by
  have herror : -einval ≠ 0 := by decide
  rw [rtcValidTm]
  split
  · rename_i hbad
    simp only [UnsignedGe] at hbad
    exact ⟨fun h => absurd h herror, fun h => by omega⟩
  · rename_i hgood
    simp only [UnsignedGe] at hgood
    exact ⟨fun _ => by omega, fun _ => rfl⟩

theorem Shows.valid {tm : RtcTime} {m : Moment isLeapYear} (h : Shows tm m)
    (hlow : 1970 ≤ m.date.year) : rtcValidTm tm = 0 := by
  have hmonth := m.date.month_lt
  have hpos := m.date.day_pos
  have hhour := m.hour_lt
  have hminute := m.minute_lt
  have hsecond := m.second_lt
  have hday : m.date.day ≤ rtcMonthDays m.date.month m.date.year := m.date.day_le
  have hyear := h.year
  rw [rtcValidTm_iff, h.year, h.mon, h.mday, h.hour, h.min, h.sec, Int.toNat_natCast,
    Int.toNat_natCast]
  omega

theorem leapsThruEndOf_cast (y : ℕ) :
    (y : ℤ) / 4 - (y : ℤ) / 100 + (y : ℤ) / 400 = leapsThruEndOf y := by
  unfold leapsThruEndOf
  omega

theorem marchDays_early (y : ℕ) {month : ℕ} (day : ℤ) (h : month < 2) :
    marchDays ((y + 1 : ℕ) : ℤ) (month + 1) day =
      leapsThruEndOf y + 367 * (month + 11) / 12 + day + y * 365 - 719499 := by
  have hyear : ((y + 1 : ℕ) : ℤ) - 1 = y := by omega
  have hmonth : (month : ℤ) + 1 - 2 + 12 = month + 11 := by omega
  rw [marchDays, if_pos (by omega), hyear, hmonth, ← leapsThruEndOf_cast]

theorem marchDays_late (y : ℕ) {month : ℕ} (day : ℤ) (h : 2 ≤ month) :
    marchDays ((y + 1 : ℕ) : ℤ) (month + 1) day =
      leapsThruEndOf (y + 1) + 367 * (month - 1) / 12 + day + (y + 1) * 365 - 719499 := by
  have hmonth : (month : ℤ) + 1 - 2 = month - 1 := by omega
  rw [marchDays, if_neg (by omega), hmonth, ← leapsThruEndOf_cast]
  rfl

/-- The months of `mktime` are those of the table: January and February come last, ... -/
theorem marchMonths_early (leap : Bool) {month : ℕ} (h : month < 2) :
    367 * ((month : ℤ) + 11) / 12 = ((rtcYdays leap).getD month 0 : ℤ) + 336 := by
  have htable : ∀ leap, ∀ m : ℕ, m < 2 →
      367 * ((m : ℤ) + 11) / 12 = ((rtcYdays leap).getD m 0 : ℤ) + 336 := by decide
  exact htable leap month h

/-- ... and the others have the leap day of their year behind them. -/
theorem marchMonths_late (leap : Bool) {month : ℕ} (hlow : 2 ≤ month) (h : month < 12) :
    367 * ((month : ℤ) - 1) / 12 + 29 + (if leap then 1 else 0) = (rtcYdays leap).getD month 0 := by
  have htable : ∀ leap, ∀ m : ℕ, m < 12 → 2 ≤ m →
      367 * ((m : ℤ) - 1) / 12 + 29 + (if leap then 1 else 0) = (rtcYdays leap).getD m 0 := by
    decide
  exact htable leap month h hlow

/-- The formula of `mktime` counts the days from the epoch. -/
theorem marchDays_eq (d : Date isLeapYear) (h : 0 < d.year) :
    marchDays d.year (d.month + 1) d.day = d.dayNumber - 719528 := by
  obtain ⟨year, month, day, hmonth, hpos, hle⟩ := d
  obtain ⟨y, rfl⟩ : ∃ y, year = y + 1 := ⟨year - 1, by dsimp only at h; omega⟩
  have hmonths := rtcYdays_eq (y + 1) (Nat.le_of_lt hmonth)
  simp only [Date.dayNumber, daysBeforeYear_succ, ← hmonths]
  -- January and February belong to the year before, whose leap days are counted without this one
  by_cases hearly : month < 2
  · rw [marchDays_early y day hearly, marchMonths_early (isLeapYear (y + 1)) hearly]
    push_cast
    omega
  · have hlate := marchMonths_late (isLeapYear (y + 1)) (not_lt.mp hearly) hmonth
    rw [marchDays_late y day (by omega), leapsThruEndOf_succ]
    push_cast
    omega

theorem Shows.tmToTime {tm : RtcTime} {m : Moment isLeapYear} (h : Shows tm m)
    (hyear : 0 < m.date.year) :
    rtcTmToTime tm = (m.secondNumber - epoch.secondNumber : ℤ) % 2 ^ 32 := by
  have hdays := marchDays_eq m.date hyear
  rw [rtcTmToTime, mktime, h.year, h.mon, h.mday, h.hour, h.min, h.sec, hdays]
  rw [secondNumber_epoch, Moment.secondNumber]
  congr 1
  push_cast
  omega

/-- The fields are ordered as the moments are. -/
theorem Shows.fields_lt {tm₁ tm₂ : RtcTime} {m₁ m₂ : Moment isLeapYear} (h₁ : Shows tm₁ m₁)
    (h₂ : Shows tm₂ m₂) (h : m₁.Before m₂) : tm₁.fields < tm₂.fields := by
  have hy₁ := h₁.year
  have hy₂ := h₂.year
  simp only [RtcTime.fields, List.cons_lt_cons_iff, h₁.mon, h₂.mon, h₁.mday, h₂.mday, h₁.hour,
    h₂.hour, h₁.min, h₂.min, h₁.sec, h₂.sec, List.not_lt_nil, and_false, or_false]
  -- an earlier day, or the same day and an earlier time
  rcases h with hdate | ⟨hdate, htime⟩
  · unfold Date.Before at hdate
    omega
  · rw [hdate] at hy₁ ⊢
    omega

/-! ## The main theorem -/

theorem exists_moment (t : UInt32) : ∃ m : Moment isLeapYear, Shows (rtcTimeToTm t) m ∧
    1970 ≤ m.date.year ∧ m.secondNumber = epoch.secondNumber + t.toNat := by
  have ht : t.toNat < 2 ^ 32 := t.toNat_lt
  -- the moment is put together from the year, the month and the rest
  obtain ⟨days, hdays⟩ : ∃ days, t.toNat / 86400 = days := ⟨_, rfl⟩
  obtain ⟨hlow, hpos, hlt, hyears⟩ := @yearOf_spec days (by omega)
  have hfirst : (daysBeforeMonth isLeapYear (yearOf days).1 0 : ℤ) = 0 := rfl
  obtain ⟨month, r, hloop, hmonth, hr, hmonths⟩ :=
    @monthLoop_spec (yearOf days).1 11 0 (yearOf days).2 rfl hpos (by omega)
  let date : Date isLeapYear := ⟨(yearOf days).1, month, r + 1, hmonth, Nat.succ_pos r, hr⟩
  have hnumber : date.dayNumber = epoch.date.dayNumber + days := by
    have hd : date.dayNumber = daysBeforeYear isLeapYear (yearOf days).1 +
        daysBeforeMonth isLeapYear (yearOf days).1 month + r := rfl
    omega
  refine ⟨⟨date, t.toNat % 86400 / 3600, t.toNat % 3600 / 60, t.toNat % 60, by omega, by omega,
    by omega⟩, ?_, hlow, ?_⟩
  · simp only [rtcTimeToTm, hdays, hloop]
    refine ⟨?_, rfl, ?_, ?_, ?_, ?_⟩ <;> dsimp only [date] <;> omega
  · rw [secondNumber_epoch, Moment.secondNumber, hnumber, dayNumber_epoch]
    dsimp only
    omega

theorem shows_moment (t : UInt32) :
    Shows (rtcTimeToTm t) (Moment.tick^[t.toNat] epoch) ∧
      1970 ≤ (Moment.tick^[t.toNat] epoch).date.year := by
  obtain ⟨m, hshows, hlow, hseconds⟩ := exists_moment t
  rw [← Moment.eq_iterate hseconds]
  exact ⟨hshows, hlow⟩

theorem iterate_nextWeekday (n : ℕ) : nextWeekday^[n] 4 = (n + 4) % 7 := by
  induction n with
  | zero => rfl
  | succ n ih =>
    rw [Function.iterate_succ_apply', ih, nextWeekday]
    split <;> omega

theorem wday_eq (t : UInt32) :
    (rtcTimeToTm t).wday = weekday (Moment.tick^[t.toNat] epoch).date := by
  have hseconds := Moment.secondNumber_iterate epoch t.toNat
  have hhour := (Moment.tick^[t.toNat] epoch).hour_lt
  have hminute := (Moment.tick^[t.toNat] epoch).minute_lt
  have hsecond := (Moment.tick^[t.toNat] epoch).second_lt
  rw [secondNumber_epoch, Moment.secondNumber] at hseconds
  -- the days since the epoch
  have hdays : (Moment.tick^[t.toNat] epoch).date.dayNumber - epoch.date.dayNumber =
      t.toNat / 86400 := by
    rw [dayNumber_epoch]
    omega
  rw [weekday, hdays, iterate_nextWeekday]
  rfl

/-- **Calendar**: for every number of seconds the fields are accepted by `rtc_valid_tm`, are the
    date, the time of day and the weekday of that second, and are converted back to it; and earlier
    seconds have fields that come before in the order of the fields. -/
theorem timeToTm_calendar :
    (∀ t : UInt32, rtcValidTm (rtcTimeToTm t) = 0 ∧
      Shows (rtcTimeToTm t) (Moment.tick^[t.toNat] epoch) ∧
      (rtcTimeToTm t).wday = weekday (Moment.tick^[t.toNat] epoch).date ∧
      rtcTmToTime (rtcTimeToTm t) = t.toNat) ∧
    ∀ t₁ t₂ : UInt32, t₁ < t₂ → (rtcTimeToTm t₁).fields < (rtcTimeToTm t₂).fields := by
  constructor
  · intro t
    obtain ⟨hshows, hlow⟩ := shows_moment t
    refine ⟨hshows.valid hlow, hshows, wday_eq t, ?_⟩
    have ht : t.toNat < 2 ^ 32 := t.toNat_lt
    rw [hshows.tmToTime (by omega), Moment.secondNumber_iterate]
    omega
  · intro t₁ t₂ ht
    have hnat : t₁.toNat < t₂.toNat := ht
    refine (shows_moment t₁).1.fields_lt (shows_moment t₂).1 (Moment.before_iff.mpr ?_)
    rw [Moment.secondNumber_iterate, Moment.secondNumber_iterate]
    omega

end NucKernel.Rtc
