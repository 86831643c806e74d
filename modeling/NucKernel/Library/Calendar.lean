import Mathlib.Order.Monotone.Basic

/-!
# Calendars

Dates and moments of a calendar with the usual twelve months, for any rule that says which years
have a 29 February. The calendar is given by `Date.next` and `Moment.tick`, which lead from a day or
a second to the next one; everything else follows from counting days and seconds:

- `Date.dayNumber` / `Moment.secondNumber` - how many days or seconds come before
- `Moment.before_iff` - the order of the fields, the most significant first, is the order in time
- `Moment.eq_iterate` - the moment `n` seconds after another one is found by its number

Months are counted from 0 and days of the month from 1.
-/

namespace NucKernel.Library.Calendar

variable {leap : ℕ → Bool}

/-! ## Days -/

/-- The number of days of a month -/
def monthDays (leap : ℕ → Bool) (year month : ℕ) : ℕ :=
  [31, 28, 31, 30, 31, 30, 31, 31, 30, 31, 30, 31].getD month 0 +
    if leap year && month == 1 then 1 else 0

theorem monthDays_pos (year : ℕ) {month : ℕ} (h : month < 12) : 0 < monthDays leap year month := by
  have htable : ∀ m < 12,
      0 < [31, 28, 31, 30, 31, 30, 31, 31, 30, 31, 30, 31].getD m 0 := by decide
  exact Nat.add_pos_left (htable month h) _

@[ext]
structure Date (leap : ℕ → Bool) where
  year : ℕ
  month : ℕ
  day : ℕ
  month_lt : month < 12
  day_pos : 0 < day
  day_le : day ≤ monthDays leap year month

instance (leap : ℕ → Bool) : DecidableEq (Date leap) := fun _ _ =>
  decidable_of_iff _ Date.ext_iff.symm

def firstDay (leap : ℕ → Bool) (year month : ℕ) (h : month < 12) : Date leap :=
  ⟨year, month, 1, h, Nat.one_pos, monthDays_pos year h⟩

namespace Date

def next (d : Date leap) : Date leap :=
  if h : d.day < monthDays leap d.year d.month then
    ⟨d.year, d.month, d.day + 1, d.month_lt, Nat.succ_pos _, h⟩
  else if h : d.month + 1 < 12 then firstDay leap d.year (d.month + 1) h
  else firstDay leap (d.year + 1) 0 (by decide)

end Date

def daysBeforeMonth (leap : ℕ → Bool) (year : ℕ) : ℕ → ℕ
  | 0 => 0
  | month + 1 => daysBeforeMonth leap year month + monthDays leap year month

def daysBeforeYear (leap : ℕ → Bool) : ℕ → ℕ
  | 0 => 0
  | year + 1 => daysBeforeYear leap year + daysBeforeMonth leap year 12

theorem daysBeforeMonth_mono (year : ℕ) : Monotone (daysBeforeMonth leap year) :=
  monotone_nat_of_le_succ fun _ => Nat.le_add_right _ _

theorem daysBeforeYear_mono : Monotone (daysBeforeYear leap) :=
  monotone_nat_of_le_succ fun _ => Nat.le_add_right _ _

namespace Date

/-- The days before a date, counted from the year 0 -/
def dayNumber (d : Date leap) : ℕ :=
  daysBeforeYear leap d.year + daysBeforeMonth leap d.year d.month + (d.day - 1)

theorem dayNumber_firstDay (year : ℕ) (h : 0 < 12) :
    (firstDay leap year 0 h).dayNumber = daysBeforeYear leap year := rfl

theorem dayNumber_next (d : Date leap) : d.next.dayNumber = d.dayNumber + 1 := by
  have hpos := d.day_pos
  have hle := d.day_le
  have hmonth := d.month_lt
  unfold next
  split
  · -- a day within the month
    simp only [dayNumber]
    omega
  · rename_i hlast
    -- the last day of the month: all its days come before the next month
    have hdays : daysBeforeMonth leap d.year (d.month + 1) =
        daysBeforeMonth leap d.year d.month + monthDays leap d.year d.month := rfl
    split
    · -- the first day of the next month
      simp only [dayNumber, firstDay, hdays]
      omega
    · rename_i hdecember
      -- 31 December is followed by the first day of the next year
      have hmonths : d.month + 1 = 12 := by omega
      have hyear : daysBeforeYear leap (d.year + 1) =
          daysBeforeYear leap d.year + daysBeforeMonth leap d.year 12 := rfl
      rw [← hmonths, hdays] at hyear
      change daysBeforeYear leap (d.year + 1) + 0 + (1 - 1) = d.dayNumber + 1
      rw [hyear, dayNumber]
      omega

theorem dayNumber_lt_month (d : Date leap) :
    d.dayNumber < daysBeforeYear leap d.year + daysBeforeMonth leap d.year (d.month + 1) := by
  have hpos := d.day_pos
  have hle := d.day_le
  simp only [dayNumber, daysBeforeMonth]
  omega

theorem dayNumber_lt_year (d : Date leap) : d.dayNumber < daysBeforeYear leap (d.year + 1) := by
  have hmonth : daysBeforeMonth leap d.year (d.month + 1) ≤ daysBeforeMonth leap d.year 12 :=
    daysBeforeMonth_mono d.year d.month_lt
  have hlt := d.dayNumber_lt_month
  simp only [daysBeforeYear]
  omega

/-- The order of year, month and day -/
def Before (a b : Date leap) : Prop :=
  a.year < b.year ∨ a.year = b.year ∧ (a.month < b.month ∨ a.month = b.month ∧ a.day < b.day)

theorem Before.dayNumber_lt {a b : Date leap} (h : a.Before b) : a.dayNumber < b.dayNumber := by
  rcases h with hyear | ⟨hyear, hmonth | ⟨hmonth, hday⟩⟩
  · calc a.dayNumber < daysBeforeYear leap (a.year + 1) := a.dayNumber_lt_year
      _ ≤ daysBeforeYear leap b.year := daysBeforeYear_mono hyear
      _ ≤ b.dayNumber := by simp only [dayNumber]; omega
  · calc a.dayNumber
        < daysBeforeYear leap a.year + daysBeforeMonth leap a.year (a.month + 1) :=
          a.dayNumber_lt_month
      _ ≤ daysBeforeYear leap a.year + daysBeforeMonth leap a.year b.month :=
          Nat.add_le_add_left (daysBeforeMonth_mono a.year hmonth) _
      _ ≤ b.dayNumber := by simp only [dayNumber, hyear]; omega
  · have hpos := a.day_pos
    simp only [dayNumber, hyear, hmonth]
    omega

theorem before_trichotomy (a b : Date leap) : a.Before b ∨ a = b ∨ b.Before a := by
  rcases Nat.lt_trichotomy a.year b.year with hlt | hyear | hgt
  · exact Or.inl (Or.inl hlt)
  · rcases Nat.lt_trichotomy a.month b.month with hlt | hmonth | hgt
    · exact Or.inl (Or.inr ⟨hyear, Or.inl hlt⟩)
    · rcases Nat.lt_trichotomy a.day b.day with hlt | hday | hgt
      · exact Or.inl (Or.inr ⟨hyear, Or.inr ⟨hmonth, hlt⟩⟩)
      · exact Or.inr (Or.inl (Date.ext hyear hmonth hday))
      · exact Or.inr (Or.inr (Or.inr ⟨hyear.symm, Or.inr ⟨hmonth.symm, hgt⟩⟩))
    · exact Or.inr (Or.inr (Or.inr ⟨hyear.symm, Or.inl hgt⟩))
  · exact Or.inr (Or.inr (Or.inl hgt))

end Date

/-! ## Seconds -/

@[ext]
structure Moment (leap : ℕ → Bool) where
  date : Date leap
  hour : ℕ
  minute : ℕ
  second : ℕ
  hour_lt : hour < 24
  minute_lt : minute < 60
  second_lt : second < 60
deriving DecidableEq

namespace Moment

def tick (m : Moment leap) : Moment leap :=
  if h : m.second + 1 < 60 then ⟨m.date, m.hour, m.minute, m.second + 1, m.hour_lt, m.minute_lt, h⟩
  else if h : m.minute + 1 < 60 then
    ⟨m.date, m.hour, m.minute + 1, 0, m.hour_lt, h, by decide⟩
  else if h : m.hour + 1 < 24 then ⟨m.date, m.hour + 1, 0, 0, h, by decide, by decide⟩
  else ⟨m.date.next, 0, 0, 0, by decide, by decide, by decide⟩

/-- The seconds before a moment, counted from the year 0 -/
def secondNumber (m : Moment leap) : ℕ :=
  ((m.date.dayNumber * 24 + m.hour) * 60 + m.minute) * 60 + m.second

theorem secondNumber_tick (m : Moment leap) : m.tick.secondNumber = m.secondNumber + 1 := by
  have hsecond := m.second_lt
  have hminute := m.minute_lt
  have hhour := m.hour_lt
  unfold tick secondNumber
  split
  · dsimp only
    omega
  · split
    · dsimp only
      omega
    · split
      · dsimp only
        omega
      · simp only [Date.dayNumber_next]
        omega

theorem secondNumber_iterate (m : Moment leap) (n : ℕ) :
    (tick^[n] m).secondNumber = m.secondNumber + n := by
  induction n with
  | zero => rfl
  | succ n ih => rw [Function.iterate_succ_apply', secondNumber_tick, ih, Nat.add_assoc]

/-- The order of the fields, from the year to the second -/
def Before (a b : Moment leap) : Prop :=
  a.date.Before b.date ∨ a.date = b.date ∧ (a.hour < b.hour ∨ a.hour = b.hour ∧
    (a.minute < b.minute ∨ a.minute = b.minute ∧ a.second < b.second))

theorem Before.secondNumber_lt {a b : Moment leap} (h : a.Before b) :
    a.secondNumber < b.secondNumber := by
  have hsecond := a.second_lt
  have hminute := a.minute_lt
  have hhour := a.hour_lt
  unfold secondNumber
  rcases h with hdate | ⟨hdate, htime⟩
  · -- a day has 86400 seconds
    have hday := hdate.dayNumber_lt
    omega
  · -- on the same day the time decides
    rw [hdate]
    omega

theorem before_trichotomy (a b : Moment leap) : a.Before b ∨ a = b ∨ b.Before a := by
  rcases Date.before_trichotomy a.date b.date with hab | hdate | hba
  · exact Or.inl (Or.inl hab)
  · rcases Nat.lt_trichotomy a.hour b.hour with hlt | hhour | hgt
    · exact Or.inl (Or.inr ⟨hdate, Or.inl hlt⟩)
    · rcases Nat.lt_trichotomy a.minute b.minute with hlt | hminute | hgt
      · exact Or.inl (Or.inr ⟨hdate, Or.inr ⟨hhour, Or.inl hlt⟩⟩)
      · rcases Nat.lt_trichotomy a.second b.second with hlt | hsecond | hgt
        · exact Or.inl (Or.inr ⟨hdate, Or.inr ⟨hhour, Or.inr ⟨hminute, hlt⟩⟩⟩)
        · exact Or.inr (Or.inl (Moment.ext hdate hhour hminute hsecond))
        · exact Or.inr (Or.inr (Or.inr ⟨hdate.symm,
            Or.inr ⟨hhour.symm, Or.inr ⟨hminute.symm, hgt⟩⟩⟩))
      · exact Or.inr (Or.inr (Or.inr ⟨hdate.symm, Or.inr ⟨hhour.symm, Or.inl hgt⟩⟩))
    · exact Or.inr (Or.inr (Or.inr ⟨hdate.symm, Or.inl hgt⟩))
  · exact Or.inr (Or.inr (Or.inl hba))

theorem before_iff {a b : Moment leap} : a.Before b ↔ a.secondNumber < b.secondNumber := by
  constructor
  · exact Before.secondNumber_lt
  · intro h
    rcases before_trichotomy a b with hab | rfl | hba
    · exact hab
    · exact absurd h (Nat.lt_irrefl _)
    · exact absurd h (Nat.lt_asymm hba.secondNumber_lt)

/-- The moment `n` seconds later is the one with the right number. -/
theorem eq_iterate {a b : Moment leap} {n : ℕ} (h : b.secondNumber = a.secondNumber + n) :
    b = tick^[n] a := by
  rw [← secondNumber_iterate] at h
  rcases before_trichotomy b (tick^[n] a) with hlt | heq | hgt
  · exact absurd h (Nat.ne_of_lt hlt.secondNumber_lt)
  · exact heq
  · exact absurd h.symm (Nat.ne_of_lt hgt.secondNumber_lt)

end Moment

end NucKernel.Library.Calendar
