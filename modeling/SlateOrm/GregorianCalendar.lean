import Mathlib.Tactic.IntervalCases
import Mathlib.Order.Basic

namespace SlateOrm

/-!
# The Gregorian calendar

Dates of the proleptic Gregorian calendar, numbered from the first day of the
year one.  The number of a date counts the days of the years and months before
it; the next date has the next number, and no two dates have one number.
-/

namespace Gregorian

/-! ## Years and months -/

/-- Every fourth year is leap, but for the centuries that four do not divide. -/
def IsLeap (year : Int) : Prop := year % 4 = 0 ∧ (year % 100 ≠ 0 ∨ year % 400 = 0)

instance (year : Int) : Decidable (IsLeap year) := inferInstanceAs (Decidable (_ ∧ _))

/-- The number of days of a month. -/
def daysInMonth (year month : Int) : Int := if month = 2 then
    if IsLeap year then 29 else 28
  else if month = 4 ∨ month = 6 ∨ month = 9 ∨ month = 11 then
    30
  else
    31

/-- The number of days of a year. -/
def daysInYear (year : Int) : Int := if IsLeap year then 366 else 365

/-- The days of the years before one, counted from the year one. -/
def daysBeforeYear (year : Int) : Int :=
  365 * (year - 1) + (year - 1) / 4 - (year - 1) / 100 + (year - 1) / 400

/-- The days of the months before one in a year. -/
def daysBeforeMonth (year month : Int) : Int :=
  ((List.range (month - 1).toNat).map fun earlier : Nat =>
    daysInMonth year (earlier + 1)).sum

theorem daysBeforeYear_succ
    (year : Int) :
    daysBeforeYear (year + 1) = daysBeforeYear year + daysInYear year := by
  unfold daysBeforeYear daysInYear
  by_cases leap : IsLeap year
  · rw [if_pos leap]
    unfold IsLeap at leap
    omega
  · rw [if_neg leap]
    unfold IsLeap at leap
    omega

theorem daysBeforeYear_mono
    {first second : Int}
    (before : first ≤ second) :
    daysBeforeYear first ≤ daysBeforeYear second := by
  unfold daysBeforeYear
  omega

theorem le_daysInMonth
    (year month : Int) :
    28 ≤ daysInMonth year month := by
  unfold daysInMonth
  split_ifs <;> omega

theorem daysBeforeMonth_succ
    (year : Int) {month : Int}
    (isMonth : 1 ≤ month) :
    daysBeforeMonth year (month + 1) =
      daysBeforeMonth year month + daysInMonth year month := by
  obtain ⟨earlier, rfl⟩ : ∃ earlier : Nat, month = earlier + 1 :=
    ⟨(month - 1).toNat, by omega⟩
  simp [daysBeforeMonth, List.range_succ]

theorem daysBeforeMonth_mono
    (year : Int) {first second : Int}
    (isMonth : 1 ≤ first)
    (before : first ≤ second) :
    daysBeforeMonth year first ≤ daysBeforeMonth year second := by
  induction second, before using Int.leInduction with
  | base => exact le_rfl
  | succ month before ih =>
      have days := le_daysInMonth year month
      rw [daysBeforeMonth_succ year (isMonth.trans before)]
      omega

theorem daysBeforeMonth_thirteen
    (year : Int) :
    daysBeforeMonth year 13 = daysInYear year := by
  by_cases leap : IsLeap year <;>
    simp [daysBeforeMonth, daysInYear, daysInMonth, leap, List.range_succ]

@[simp] theorem daysBeforeMonth_one
    (year : Int) :
    daysBeforeMonth year 1 = 0 := by
  rfl

theorem daysBeforeMonth_nonneg
    (year : Int) {month : Int}
    (isMonth : 1 ≤ month) :
    0 ≤ daysBeforeMonth year month := by
  simpa using daysBeforeMonth_mono year le_rfl isMonth

/-! ## Dates -/

/-- A date that exists. -/
@[ext]
structure Date where
  year : Int
  month : Int
  day : Int
  one_le_month : 1 ≤ month
  month_le : month ≤ 12
  one_le_day : 1 ≤ day
  day_le : day ≤ daysInMonth year month

namespace Date

/-- The number of a date: that of the first day of the year one is zero. -/
def dayNumber (date : Date) : Int :=
  daysBeforeYear date.year + daysBeforeMonth date.year date.month + date.day - 1

/-- The first day of a month. -/
def firstOf (year month : Int) (one_le_month : 1 ≤ month)
    (month_le : month ≤ 12) : Date where
  year := year
  month := month
  day := 1
  one_le_month := one_le_month
  month_le := month_le
  one_le_day := le_rfl
  day_le := le_trans (by decide) (le_daysInMonth _ _)

/-- The first day of the month of a date. -/
def startOfMonth (date : Date) : Date :=
  firstOf date.year date.month date.one_le_month date.month_le

/-- The first day of the year of a date. -/
def startOfYear (date : Date) : Date := firstOf date.year 1 le_rfl (by decide)

/-- The day after a date. -/
def next (date : Date) : Date :=
  if dayIsNotLast : date.day < daysInMonth date.year date.month then
    { date with
      day := date.day + 1
      one_le_day := le_trans date.one_le_day (by omega)
      day_le := dayIsNotLast }
  else if monthIsNotLast : date.month < 12 then
    firstOf date.year (date.month + 1) (by have := date.one_le_month; omega)
      monthIsNotLast
  else
    firstOf (date.year + 1) 1 le_rfl (by decide)

theorem dayNumber_next
    (date : Date) :
    date.next.dayNumber = date.dayNumber + 1 := by
  have lastDay := date.day_le
  have lastMonth := date.month_le
  unfold next
  split_ifs with dayIsNotLast monthIsNotLast
  · simp only [dayNumber]
    omega
  · have begins := daysBeforeMonth_succ date.year date.one_le_month
    simp only [dayNumber, firstOf]
    omega
  · -- The last day of December is the last of the year.
    have months : date.month = 12 := by omega
    have begins := daysBeforeYear_succ date.year
    have ends := daysBeforeMonth_thirteen date.year
    have december := daysBeforeMonth_succ date.year date.one_le_month
    rw [months] at december dayIsNotLast lastDay
    norm_num at december
    simp only [dayNumber, firstOf, daysBeforeMonth_one, months]
    omega

/-! ## The order of dates -/

theorem dayNumber_lt_daysBeforeYear
    (date : Date) :
    date.dayNumber < daysBeforeYear (date.year + 1) := by
  have inMonth := date.day_le
  have month := daysBeforeMonth_succ date.year date.one_le_month
  have year := daysBeforeMonth_mono date.year
    (show 1 ≤ date.month + 1 by have := date.one_le_month; omega)
    (show date.month + 1 ≤ 13 by have := date.month_le; omega)
  have begins := daysBeforeYear_succ date.year
  rw [daysBeforeMonth_thirteen] at year
  unfold dayNumber
  omega

theorem dayNumber_lt_of_year_lt
    {first second : Date}
    (earlier : first.year < second.year) :
    first.dayNumber < second.dayNumber := by
  have inYear := dayNumber_lt_daysBeforeYear first
  have years := daysBeforeYear_mono (Int.add_one_le_of_lt earlier)
  have months := daysBeforeMonth_nonneg second.year second.one_le_month
  have days := second.one_le_day
  unfold dayNumber at inYear ⊢
  omega

theorem dayNumber_lt_of_month_lt
    {first second : Date}
    (sameYear : first.year = second.year)
    (earlier : first.month < second.month) :
    first.dayNumber < second.dayNumber := by
  have inMonth := first.day_le
  have month := daysBeforeMonth_succ first.year first.one_le_month
  have later := daysBeforeMonth_mono first.year
    (show 1 ≤ first.month + 1 by have := first.one_le_month; omega)
    (Int.add_one_le_of_lt earlier)
  have days := second.one_le_day
  unfold dayNumber
  rw [← sameYear]
  omega

theorem dayNumber_injective :
    Function.Injective dayNumber := by
  intro first second same
  have sameYear : first.year = second.year := by
    rcases lt_trichotomy first.year second.year with before | equal | after
    · exact absurd same (dayNumber_lt_of_year_lt before).ne
    · exact equal
    · exact absurd same (dayNumber_lt_of_year_lt after).ne'
  have sameMonth : first.month = second.month := by
    rcases lt_trichotomy first.month second.month with before | equal | after
    · exact absurd same (dayNumber_lt_of_month_lt sameYear before).ne
    · exact equal
    · exact absurd same (dayNumber_lt_of_month_lt sameYear.symm after).ne'
  unfold dayNumber at same
  rw [sameYear, sameMonth] at same
  exact Date.ext sameYear sameMonth (by omega)

/-! ## Starts of months and years -/

theorem startOfMonth_le
    (date : Date) :
    date.startOfMonth.dayNumber ≤ date.dayNumber := by
  have days := date.one_le_day
  simp only [dayNumber, startOfMonth, firstOf]
  omega

theorem startOfYear_le
    (date : Date) :
    date.startOfYear.dayNumber ≤ date.startOfMonth.dayNumber := by
  have months := daysBeforeMonth_nonneg date.year date.one_le_month
  simp only [dayNumber, startOfMonth, startOfYear, firstOf, daysBeforeMonth_one]
  omega

theorem le_startOfMonth
    {start date : Date}
    (starts : start.day = 1)
    (reached : start.dayNumber ≤ date.dayNumber) :
    start.dayNumber ≤ date.startOfMonth.dayNumber := by
  have notLater : start.year ≤ date.year :=
    not_lt.mp fun later => absurd reached (dayNumber_lt_of_year_lt later).not_ge
  rcases notLater.lt_or_eq with earlier | sameYear
  · exact (@dayNumber_lt_of_year_lt start date.startOfMonth earlier).le
  · have notAfter : start.month ≤ date.month := not_lt.mp fun later =>
        absurd reached (dayNumber_lt_of_month_lt sameYear.symm later).not_ge
    have months := daysBeforeMonth_mono date.year start.one_le_month notAfter
    simp only [dayNumber, startOfMonth, firstOf, sameYear, starts]
    omega

theorem le_startOfYear
    {start date : Date}
    (startsMonth : start.month = 1)
    (starts : start.day = 1)
    (reached : start.dayNumber ≤ date.dayNumber) :
    start.dayNumber ≤ date.startOfYear.dayNumber := by
  have notLater : start.year ≤ date.year :=
    not_lt.mp fun later => absurd reached (dayNumber_lt_of_year_lt later).not_ge
  have years := daysBeforeYear_mono notLater
  simp only [dayNumber, startOfYear, firstOf, startsMonth, starts, daysBeforeMonth_one]
  omega

end Date

end Gregorian

end SlateOrm
