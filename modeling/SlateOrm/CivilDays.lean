import SlateOrm.GregorianCalendar
import SlateOrm.Scalar
import Mathlib.Tactic.Linarith

namespace SlateOrm

/-!
# Dates of day numbers

The closed forms between a day number and a date are exact: a day number is
that of one date of the proleptic Gregorian calendar, and the arithmetic that
finds it stays within 64 bits for every day a timestamp can fall on.
-/

open Gregorian

/-! ## Arithmetic of 64 bits -/

/-- The result of an operation on 64-bit integers; none when it overflows. -/
def fitI64 (value : Int) : Option Int :=
  if -2 ^ 63 ≤ value ∧ value < 2 ^ 63 then some value else none

theorem fitI64_bind
    {α : Type} {value : Int}
    (lower : -2 ^ 63 ≤ value)
    (upper : value < 2 ^ 63)
    (rest : Int → Option α) :
    (fitI64 value >>= rest) = rest value := by
  rw [fitI64, if_pos ⟨lower, upper⟩]
  rfl

/-- `civilFromDays`, with every operation on 64-bit integers. -/
def civilFromDaysChecked (days : Int) : Option (Int × Int × Int) := do
  let shifted ← fitI64 (days + 719468)
  let floored ← fitI64 (if 0 ≤ shifted then shifted else shifted - 146096)
  let era ← fitI64 (floored.tdiv 146097)
  let eraStart ← fitI64 (era * 146097)
  let dayOfEra ← fitI64 (shifted - eraStart)
  let fourYears ← fitI64 (dayOfEra - dayOfEra.tdiv 1460)
  let centuries ← fitI64 (fourYears + dayOfEra.tdiv 36524)
  let counted ← fitI64 (centuries - dayOfEra.tdiv 146096)
  let yearOfEra ← fitI64 (counted.tdiv 365)
  let eraYears ← fitI64 (era * 400)
  let year ← fitI64 (yearOfEra + eraYears)
  let commonDays ← fitI64 (365 * yearOfEra)
  let leapDays ← fitI64 (commonDays + yearOfEra.tdiv 4)
  let yearStart ← fitI64 (leapDays - yearOfEra.tdiv 100)
  let dayOfYear ← fitI64 (dayOfEra - yearStart)
  let fiveDays ← fitI64 (5 * dayOfYear)
  let fiveMonths ← fitI64 (fiveDays + 2)
  let marchMonth ← fitI64 (fiveMonths.tdiv 153)
  let monthDays ← fitI64 (153 * marchMonth)
  let monthStart ← fitI64 (monthDays + 2)
  let dayBefore ← fitI64 (dayOfYear - monthStart.tdiv 5)
  let day ← fitI64 (dayBefore + 1)
  let month ← fitI64 (if marchMonth < 10 then marchMonth + 3 else marchMonth - 9)
  let year ← fitI64 (if month ≤ 2 then year + 1 else year)
  return (year, month, day)

/-- `daysFromCivil`, with every operation on 64-bit integers. -/
def daysFromCivilChecked (year month day : Int) : Option Int := do
  let year ← fitI64 (if month ≤ 2 then year - 1 else year)
  let floored ← fitI64 (if 0 ≤ year then year else year - 399)
  let era ← fitI64 (floored.tdiv 400)
  let eraYears ← fitI64 (era * 400)
  let yearOfEra ← fitI64 (year - eraYears)
  let marchMonth ← fitI64 (if 2 < month then month - 3 else month + 9)
  let monthDays ← fitI64 (153 * marchMonth)
  let monthStart ← fitI64 (monthDays + 2)
  let dayAfter ← fitI64 (monthStart.tdiv 5 + day)
  let dayOfYear ← fitI64 (dayAfter - 1)
  let commonDays ← fitI64 (yearOfEra * 365)
  let leapDays ← fitI64 (commonDays + yearOfEra.tdiv 4)
  let yearStart ← fitI64 (leapDays - yearOfEra.tdiv 100)
  let dayOfEra ← fitI64 (yearStart + dayOfYear)
  let eraStart ← fitI64 (era * 146097)
  let shifted ← fitI64 (eraStart + dayOfEra)
  fitI64 (shifted - 719468)

/-! ## The place of a day -/

/-- Where a day stands: its era of 400 years, century, cycle of four years, year
and day, all of them counted from the first of March. -/
structure InEra (days era century cycle year day : Int) : Prop where
  same : days + 719468 =
    146097 * era + 36524 * century + 1461 * cycle + 365 * year + day
  century_within : 0 ≤ century ∧ century ≤ 3
  cycle_within : 0 ≤ cycle ∧ cycle ≤ 24
  year_within : 0 ≤ year ∧ year ≤ 3
  day_within : 0 ≤ day ∧ day ≤ 365
  leapDay : day = 365 → year = 3 ∧ (cycle < 24 ∨ century = 3)

theorem exists_inEra
    (days : Int) :
    ∃ era century cycle year day, InEra days era century cycle year day := by
  have dayOfEra : ∃ dayOfEra, 0 ≤ dayOfEra ∧ dayOfEra ≤ 146096 ∧
      days + 719468 = 146097 * ((days + 719468) / 146097) + dayOfEra :=
    ⟨(days + 719468) % 146097, by omega⟩
  obtain ⟨dayOfEra, _, _, era⟩ := dayOfEra
  have dayOfCentury : ∃ century dayOfCentury, 0 ≤ century ∧ century ≤ 3 ∧
      0 ≤ dayOfCentury ∧ dayOfCentury ≤ 36524 ∧
      (dayOfCentury = 36524 → century = 3) ∧
      dayOfEra = 36524 * century + dayOfCentury :=
    ⟨min (dayOfEra / 36524) 3, dayOfEra - 36524 * min (dayOfEra / 36524) 3, by omega⟩
  obtain ⟨century, dayOfCentury, _, _, _, _, _, _⟩ := dayOfCentury
  have dayOfCycle : ∃ cycle dayOfCycle, 0 ≤ cycle ∧ cycle ≤ 24 ∧
      0 ≤ dayOfCycle ∧ dayOfCycle ≤ 1460 ∧
      (dayOfCycle = 1460 → cycle < 24 ∨ century = 3) ∧
      dayOfCentury = 1461 * cycle + dayOfCycle :=
    ⟨dayOfCentury / 1461, dayOfCentury % 1461, by omega⟩
  obtain ⟨cycle, dayOfCycle, _, _, _, _, _, _⟩ := dayOfCycle
  have dayOfYear : ∃ year day, 0 ≤ year ∧ year ≤ 3 ∧ 0 ≤ day ∧ day ≤ 365 ∧
      (day = 365 → year = 3) ∧ dayOfCycle = 365 * year + day :=
    ⟨min (dayOfCycle / 365) 3, dayOfCycle - 365 * min (dayOfCycle / 365) 3, by omega⟩
  obtain ⟨year, day, _, _, _, _, _, _⟩ := dayOfYear
  exact ⟨(days + 719468) / 146097, century, cycle, year, day, by omega, by omega, by omega,
    by omega, by omega, by omega⟩

theorem tdiv_of_nonneg
    {value quotient : Int} (divisor : Int)
    (nonneg : 0 ≤ value)
    (same : value / divisor = quotient) :
    value.tdiv divisor = quotient :=
  (Int.tdiv_eq_ediv_of_nonneg nonneg).trans same

theorem tdiv_floored
    {value quotient size : Int}
    (positive : 0 < size)
    (same : value / size = quotient) :
    (if 0 ≤ value then value else value - (size - 1)).tdiv size = quotient := by
  split
  case isTrue nonneg => exact tdiv_of_nonneg size nonneg same
  case isFalse negative =>
    -- Upwards from below zero the truncation rounds away what was taken off.
    have parts := Int.mul_ediv_add_emod value size
    have rest := Int.emod_nonneg value positive.ne'
    have below := Int.emod_lt_of_pos value positive
    have opposite : (size - 1 - value) / size = -(value / size) ∧
        (size - 1 - value) % size = size - 1 - value % size :=
      (Int.ediv_emod_unique positive).mpr ⟨by linarith, by omega, by omega⟩
    rw [← neg_sub, Int.neg_tdiv, tdiv_of_nonneg size (by omega) opposite.1,
      neg_neg, same]

theorem counted_nonneg
    {dayOfEra : Int}
    (nonneg : 0 ≤ dayOfEra) :
    0 ≤ dayOfEra - dayOfEra / 1460 + dayOfEra / 36524 - dayOfEra / 146096 := by
  omega

namespace InEra

variable {days era century cycle year day : Int}

section

variable
  (place : InEra days era century cycle year day)

include place

theorem yearOfEra_eq
    {dayOfEra : Int}
    (same : dayOfEra = 36524 * century + 1461 * cycle + 365 * year + day) :
    (dayOfEra - dayOfEra / 1460 + dayOfEra / 36524 - dayOfEra / 146096) / 365 =
      100 * century + 4 * cycle + year := by
  obtain ⟨_, centuries, cycles, years, dayWithin, leapDay⟩ := place
  -- The leap days before the day may be counted with its own, not without.
  have fours : (dayOfEra / 1460 = 25 * century + cycle ∧ day < 365) ∨
      (dayOfEra / 1460 = 25 * century + cycle + 1 ∧ 0 < day) := by
    omega
  have ends : (dayOfEra / 36524 = century ∧ dayOfEra / 146096 = 0) ∨
      (dayOfEra / 36524 = century + 1 ∧ dayOfEra / 146096 = 1) := by
    omega
  rcases fours with ⟨fours, _⟩ | ⟨fours, _⟩ <;>
    rcases ends with ⟨hundreds, eras⟩ | ⟨hundreds, eras⟩ <;>
      rw [fours, hundreds, eras] <;>
        omega

theorem leapYears_eq :
    (100 * century + 4 * cycle + year) / 4 = 25 * century + cycle ∧
    (100 * century + 4 * cycle + year) / 100 = century := by
  obtain ⟨_, centuries, cycles, years, _, _⟩ := place
  omega

theorem era_eq :
    (if 0 ≤ days + 719468 then days + 719468
      else days + 719468 - 146096).tdiv 146097 = era := by
  obtain ⟨same, centuries, cycles, years, dayWithin, leapDay⟩ := place
  have eraIs : (days + 719468) / 146097 = era := by
    omega
  simpa using tdiv_floored (by decide : (0 : Int) < 146097) eraIs

theorem dayOfEra_eq :
    days + 719468 - era * 146097 =
      36524 * century + 1461 * cycle + 365 * year + day := by
  linarith [place.same]

theorem dayOfEra_within :
    0 ≤ 36524 * century + 1461 * cycle + 365 * year + day ∧
    36524 * century + 1461 * cycle + 365 * year + day ≤ 146096 := by
  obtain ⟨_, centuries, cycles, years, dayWithin, leapDay⟩ := place
  omega

end

theorem dayOfYear_eq
    (century cycle year day : Int) :
    36524 * century + 1461 * cycle + 365 * year + day -
      (365 * (100 * century + 4 * cycle + year) + (25 * century + cycle) -
        century) = day := by
  ring

/-- The year from the first of March. -/
def marchYear (era century cycle year : Int) : Int :=
  400 * era + 100 * century + 4 * cycle + year

theorem month_within
    {day : Int}
    (within : 0 ≤ day ∧ day ≤ 365) :
    0 ≤ (5 * day + 2) / 153 ∧ (5 * day + 2) / 153 ≤ 11 := by
  omega

/-- The date of a day is that of its place. -/
theorem civilFromDays_eq
    (place : InEra days era century cycle year day) :
    civilFromDays days =
      (if (5 * day + 2) / 153 < 10 then marchYear era century cycle year
        else marchYear era century cycle year + 1,
      if (5 * day + 2) / 153 < 10 then (5 * day + 2) / 153 + 3
        else (5 * day + 2) / 153 - 9,
      day - (153 * ((5 * day + 2) / 153) + 2) / 5 + 1) := by
  have counts := place.yearOfEra_eq rfl
  have leaps := place.leapYears_eq
  have floored := place.era_eq
  have dayOfEra := place.dayOfEra_eq
  have year_ : 100 * century + 4 * cycle + year + era * 400 =
      marchYear era century cycle year := by
    unfold marchYear
    ring
  obtain ⟨nonneg, _⟩ := place.dayOfEra_within
  have yearNonneg : 0 ≤ 100 * century + 4 * cycle + year := by
    have centuries := place.century_within
    have cycles := place.cycle_within
    have years := place.year_within
    omega
  have dayNonneg := place.day_within.1
  have monthWithin := month_within place.day_within
  clear place
  simp only [civilFromDays, floored, dayOfEra, tdiv_of_nonneg 1460 nonneg rfl,
    tdiv_of_nonneg 36524 nonneg rfl, tdiv_of_nonneg 146096 nonneg rfl]
  rw [tdiv_of_nonneg 365 (counted_nonneg nonneg) counts, tdiv_of_nonneg 4 yearNonneg leaps.1,
    tdiv_of_nonneg 100 yearNonneg leaps.2]
  rw [dayOfYear_eq, year_, Int.tdiv_eq_ediv_of_nonneg (b := 153) (by omega),
    Int.tdiv_eq_ediv_of_nonneg (b := 5) (by omega)]
  generalize (5 * day + 2) / 153 = month at *
  by_cases early : month < 10
  · have notEarly : ¬ month + 3 ≤ 2 := by
      clear * - monthWithin
      omega
    simp only [if_pos early, if_neg notEarly]
  · have isEarly : month - 9 ≤ 2 := Int.sub_le_sub_right monthWithin.2 9
    simp only [if_neg early, if_pos isEarly]

theorem daysBeforeYear_marchYear
    (place : InEra days era century cycle year day) :
    daysBeforeYear (marchYear era century cycle year + 1) = days + 719468 - day := by
  obtain ⟨same, centuries, cycles, years, _, _⟩ := place
  have quarters : (400 * era + 100 * century + 4 * cycle + year) / 4 =
      100 * era + 25 * century + cycle := by
    omega
  have hundreds : (400 * era + 100 * century + 4 * cycle + year) / 100 =
      4 * era + century := by
    omega
  have eras : (400 * era + 100 * century + 4 * cycle + year) / 400 = era := by
    omega
  simp only [daysBeforeYear, marchYear, Int.add_sub_cancel, quarters, hundreds, eras]
  linarith

theorem isLeap_of_leapDay
    (place : InEra days era century cycle year 365) :
    IsLeap (marchYear era century cycle year + 1) := by
  obtain ⟨rfl, ends⟩ := place.leapDay rfl
  have centuries := place.century_within
  have cycles := place.cycle_within
  clear place
  unfold IsLeap marchYear
  rcases ends with early | last <;> omega

end InEra

/-! ## Months from March -/

variable {month : Int}

theorem daysInMonth_ofMarch
    (year : Int)
    (afterFebruary : 2 < month)
    (isMonth : month ≤ 12) :
    daysInMonth year month =
      (153 * (month + 1 - 3) + 2) / 5 - (153 * (month - 3) + 2) / 5 := by
  interval_cases month <;> simp [daysInMonth]

theorem daysBeforeMonth_ofMarch
    (year : Int)
    (afterFebruary : 3 ≤ month)
    (isMonth : month ≤ 12) :
    daysBeforeMonth year month + 306 =
      daysInYear year + (153 * (month - 3) + 2) / 5 := by
  induction month, afterFebruary using Int.leInduction with
  | base =>
      by_cases leap : IsLeap year <;>
        simp [daysBeforeMonth, daysInMonth, daysInYear, leap, List.range_succ]
  | succ month afterFebruary ih =>
      have earlier := ih (by omega)
      rw [daysBeforeMonth_succ year (by omega),
        daysInMonth_ofMarch year (by omega) (by omega)]
      linarith

theorem daysBeforeMonth_ofJanuary
    (year : Int)
    (isMonth : 1 ≤ month)
    (beforeMarch : month ≤ 2) :
    daysBeforeMonth year month + 306 = (153 * (month + 9) + 2) / 5 := by
  interval_cases month <;>
    simp [daysBeforeMonth, daysInMonth, List.range_succ]

theorem day_within_month
    {year day : Int}
    (within : 0 ≤ day ∧ day ≤ 365)
    (leapDay : day = 365 → IsLeap (year + 1)) :
    1 ≤ day - (153 * ((5 * day + 2) / 153) + 2) / 5 + 1 ∧
    day - (153 * ((5 * day + 2) / 153) + 2) / 5 + 1 ≤
      if (5 * day + 2) / 153 < 10 then
        daysInMonth year ((5 * day + 2) / 153 + 3)
      else
        daysInMonth (year + 1) ((5 * day + 2) / 153 - 9) := by
  generalize months : (5 * day + 2) / 153 = month
  have lower : 0 ≤ month := by omega
  have upper : month ≤ 11 := by omega
  by_cases leap : IsLeap (year + 1)
  · clear leapDay
    interval_cases month <;> simp [daysInMonth, leap] <;> omega
  · have noLeapDay : day ≠ 365 := fun last => leap (leapDay last)
    interval_cases month <;> simp [daysInMonth, leap] <;> omega

/-! ## Day numbers and dates -/

/-- The number of the first of January 1970. -/
def epoch : Int := 719162

/-- A date as a year, a month and a day. -/
def Gregorian.Date.civil (date : Date) : Int × Int × Int :=
  (date.year, date.month, date.day)

/-- A day number is turned into the date with that number. -/
theorem exists_civilFromDays
    (days : Int) :
    ∃ date : Date, civilFromDays days = date.civil ∧ date.dayNumber = days + epoch := by
  obtain ⟨era, century, cycle, year, day, place⟩ := exists_inEra days
  have dayIs := day_within_month place.day_within (fun last => by
    subst last
    exact place.isLeap_of_leapDay)
  have begins := place.daysBeforeYear_marchYear
  have dayWithin := place.day_within
  rw [place.civilFromDays_eq]
  generalize InEra.marchYear era century cycle year = march at *
  clear place
  generalize months : (5 * day + 2) / 153 = month at *
  have monthWithin : 0 ≤ month ∧ month ≤ 11 := by
    omega
  by_cases early : month < 10
  · simp only [if_pos early] at dayIs ⊢
    refine ⟨⟨march, month + 3, day - (153 * month + 2) / 5 + 1, by omega,
      by omega, dayIs.1, dayIs.2⟩, rfl, ?_⟩
    have monthDays := daysBeforeMonth_ofMarch march
      (show 3 ≤ month + 3 by omega) (by omega)
    have yearDays := daysBeforeYear_succ march
    simp only [Int.add_sub_cancel] at monthDays
    simp only [Date.dayNumber, epoch]
    omega
  · simp only [if_neg early] at dayIs ⊢
    refine ⟨⟨march + 1, month - 9, day - (153 * month + 2) / 5 + 1, by omega,
      by omega, dayIs.1, dayIs.2⟩, rfl, ?_⟩
    have monthDays := daysBeforeMonth_ofJanuary (march + 1)
      (show 1 ≤ month - 9 by omega) (by omega)
    simp only [Int.sub_add_cancel] at monthDays
    simp only [Date.dayNumber, epoch]
    omega

theorem eraDays_eq
    (year : Int) :
    year / 400 * 146097 +
        ((year - year / 400 * 400) * 365 + (year - year / 400 * 400) / 4 -
          (year - year / 400 * 400) / 100) =
      daysBeforeYear (year + 1) := by
  simp only [daysBeforeYear, Int.add_sub_cancel]
  omega

theorem daysFromCivil_march
    {year march marchMonth : Int} (day : Int)
    (yearIs : (if month ≤ 2 then year - 1 else year) = march)
    (monthIs : (if 2 < month then month - 3 else month + 9) = marchMonth)
    (nonneg : 0 ≤ marchMonth) :
    daysFromCivil year month day =
      daysBeforeYear (march + 1) + (153 * marchMonth + 2) / 5 + day - 1 -
        719468 := by
  have floored := tdiv_floored (by decide : (0 : Int) < 400)
    (rfl : march / 400 = march / 400)
  have yearOfEra : 0 ≤ march - march / 400 * 400 := by
    omega
  have begins := eraDays_eq march
  simp only [Int.reduceSub] at floored
  simp only [daysFromCivil, yearIs, monthIs, floored,
    tdiv_of_nonneg 4 yearOfEra rfl, tdiv_of_nonneg 100 yearOfEra rfl,
    tdiv_of_nonneg 5 (show 0 ≤ 153 * marchMonth + 2 by omega) rfl]
  linarith

theorem daysFromCivil_eq
    (date : Date) :
    daysFromCivil date.year date.month date.day = date.dayNumber - epoch := by
  have isMonth := date.one_le_month
  by_cases early : date.month ≤ 2
  · have monthDays := daysBeforeMonth_ofJanuary date.year isMonth early
    rw [daysFromCivil_march date.day (if_pos early) (if_neg early.not_gt)
      (by omega), Int.sub_add_cancel]
    simp only [Date.dayNumber, epoch]
    omega
  · have afterFebruary := not_le.mp early
    have monthDays := daysBeforeMonth_ofMarch date.year afterFebruary date.month_le
    rw [daysFromCivil_march date.day (if_neg early) (if_pos afterFebruary)
      (by omega), daysBeforeYear_succ]
    simp only [Date.dayNumber, epoch]
    omega

theorem civilFromDays_of_dayNumber
    (date : Date) :
    civilFromDays (date.dayNumber - epoch) = date.civil := by
  obtain ⟨found, civil, number⟩ := exists_civilFromDays (date.dayNumber - epoch)
  have same : found = date := Date.dayNumber_injective (by omega)
  rw [civil, same]

/-! ## Within 64 bits -/

/-- Taking a day number apart stays within 64 bits. -/
theorem civilFromDaysChecked_eq
    {days : Int}
    (lower : -2 ^ 62 ≤ days)
    (upper : days ≤ 2 ^ 62) :
    civilFromDaysChecked days = some (civilFromDays days) := by
  obtain ⟨era, century, cycle, year, day, place⟩ := exists_inEra days
  have eraWithin : -2 ^ 45 ≤ era ∧ era ≤ 2 ^ 45 := by
    obtain ⟨same, _, _, _, _, _⟩ := place
    omega
  obtain ⟨nonneg, within⟩ := place.dayOfEra_within
  rw [place.civilFromDays_eq]
  simp only [civilFromDaysChecked]
  rw [fitI64_bind (by omega) (by omega),
    fitI64_bind (by split_ifs <;> omega) (by split_ifs <;> omega), place.era_eq,
    fitI64_bind (by omega) (by omega), fitI64_bind (by omega) (by omega),
    place.dayOfEra_eq, fitI64_bind (by omega) (by omega),
    tdiv_of_nonneg 1460 nonneg rfl, fitI64_bind (by omega) (by omega),
    tdiv_of_nonneg 36524 nonneg rfl, fitI64_bind (by omega) (by omega),
    tdiv_of_nonneg 146096 nonneg rfl, fitI64_bind (by omega) (by omega),
    tdiv_of_nonneg 365 (counted_nonneg nonneg) (place.yearOfEra_eq rfl)]
  obtain ⟨_, centuries, cycles, years, dayWithin, _⟩ := id place
  have yearNonneg : 0 ≤ 100 * century + 4 * cycle + year := by
    omega
  rw [fitI64_bind (by omega) (by omega), fitI64_bind (by omega) (by omega),
    fitI64_bind (by omega) (by omega), fitI64_bind (by omega) (by omega),
    tdiv_of_nonneg 4 yearNonneg place.leapYears_eq.1,
    fitI64_bind (by omega) (by omega),
    tdiv_of_nonneg 100 yearNonneg place.leapYears_eq.2,
    fitI64_bind (by omega) (by omega), InEra.dayOfYear_eq,
    fitI64_bind (by omega) (by omega), fitI64_bind (by omega) (by omega),
    fitI64_bind (by omega) (by omega), tdiv_of_nonneg 153 (by omega) rfl]
  have monthWithin := InEra.month_within dayWithin
  generalize (5 * day + 2) / 153 = month at *
  have yearIs : 100 * century + 4 * cycle + year + era * 400 =
      InEra.marchYear era century cycle year := by
    unfold InEra.marchYear
    ring
  clear place
  rw [fitI64_bind (by omega) (by omega), fitI64_bind (by omega) (by omega),
    fitI64_bind (by omega) (by omega),
    tdiv_of_nonneg 5 (show 0 ≤ 153 * month + 2 by omega) rfl,
    fitI64_bind (by omega) (by omega), fitI64_bind (by omega) (by omega)]
  rw [fitI64_bind (by split_ifs <;> omega) (by split_ifs <;> omega),
    fitI64_bind (by split_ifs <;> omega) (by split_ifs <;> omega), yearIs]
  by_cases early : month < 10
  · have notEarly : ¬ month + 3 ≤ 2 := by
      clear * - monthWithin
      omega
    simp only [if_pos early, if_neg notEarly]
    rfl
  · have isEarly : month - 9 ≤ 2 := Int.sub_le_sub_right monthWithin.2 9
    simp only [if_neg early, if_pos isEarly]
    rfl

/-- Making a day number of a date stays within 64 bits. -/
theorem daysFromCivilChecked_eq
    {year day : Int}
    (yearWithin : -2 ^ 45 ≤ year ∧ year ≤ 2 ^ 45)
    (monthWithin : 1 ≤ month ∧ month ≤ 12)
    (dayWithin : 1 ≤ day ∧ day ≤ 31) :
    daysFromCivilChecked year month day = some (daysFromCivil year month day) := by
  unfold daysFromCivil
  simp only [daysFromCivilChecked]
  rw [fitI64_bind (by split_ifs <;> omega) (by split_ifs <;> omega)]
  have marchWithin : -2 ^ 45 - 1 ≤ (if month ≤ 2 then year - 1 else year) ∧
      (if month ≤ 2 then year - 1 else year) ≤ 2 ^ 45 := by
    split_ifs <;> omega
  generalize (if month ≤ 2 then year - 1 else year) = march at *
  have floored := tdiv_floored (by decide : (0 : Int) < 400)
    (rfl : march / 400 = march / 400)
  simp only [Int.reduceSub] at floored
  rw [fitI64_bind (by split_ifs <;> omega) (by split_ifs <;> omega), floored]
  clear floored
  obtain ⟨yearOfEra, yearIs, nonneg, below⟩ :
      ∃ yearOfEra, march - march / 400 * 400 = yearOfEra ∧
        0 ≤ yearOfEra ∧ yearOfEra < 400 :=
    ⟨_, rfl, by omega, by omega⟩
  have eraWithin : -2 ^ 45 ≤ march / 400 ∧ march / 400 ≤ 2 ^ 45 := by
    omega
  rw [fitI64_bind (by omega) (by omega), fitI64_bind (by omega) (by omega), yearIs]
  generalize march / 400 = era at *
  have march : 0 ≤ (if 2 < month then month - 3 else month + 9) ∧
      (if 2 < month then month - 3 else month + 9) ≤ 11 := by
    split_ifs <;> omega
  generalize (if 2 < month then month - 3 else month + 9) = marchMonth at *
  rw [fitI64_bind (by omega) (by omega), fitI64_bind (by omega) (by omega),
    fitI64_bind (by omega) (by omega), fitI64_bind (by omega) (by omega),
    tdiv_of_nonneg 5 (show 0 ≤ 153 * marchMonth + 2 by omega) rfl,
    tdiv_of_nonneg 4 nonneg rfl, tdiv_of_nonneg 100 nonneg rfl,
    fitI64_bind (by omega) (by omega), fitI64_bind (by omega) (by omega),
    fitI64_bind (by omega) (by omega), fitI64_bind (by omega) (by omega),
    fitI64_bind (by omega) (by omega), fitI64_bind (by omega) (by omega),
    fitI64_bind (by omega) (by omega), fitI64_bind (by omega) (by omega)]
  rw [fitI64, if_pos (by omega)]

/-! ## The days of timestamps -/

/-- A day that a 64-bit number of seconds falls on. -/
def OnTimestamp (days : Int) : Prop := ∃ seconds : Int64, days = seconds.toInt / 86400

theorem OnTimestamp.within
    {days : Int} (onTimestamp : OnTimestamp days) :
    -2 ^ 47 ≤ days ∧ days < 2 ^ 47 := by
  obtain ⟨seconds, rfl⟩ := onTimestamp
  have lower := Int64.le_toInt seconds
  have upper := Int64.toInt_lt seconds
  omega

variable {date : Date}

theorem year_within
    (within : -2 ^ 47 ≤ date.dayNumber - epoch ∧ date.dayNumber - epoch < 2 ^ 47) :
    -2 ^ 45 ≤ date.year ∧ date.year ≤ 2 ^ 45 := by
  have begins := date.startOfYear_le.trans date.startOfMonth_le
  have ends := date.dayNumber_lt_daysBeforeYear
  simp only [Date.dayNumber, Date.startOfYear, Date.firstOf,
    daysBeforeMonth_one] at begins
  simp only [Date.dayNumber, epoch] at within ends
  unfold daysBeforeYear at *
  omega

theorem Gregorian.Date.day_le_31
    (date : Date) :
    date.day ≤ 31 := by
  have lastDay := date.day_le
  unfold daysInMonth at lastDay
  split_ifs at lastDay <;> omega

theorem daysFromCivilChecked_date
    (within : -2 ^ 45 ≤ date.year ∧ date.year ≤ 2 ^ 45) :
    daysFromCivilChecked date.year date.month date.day =
      some (date.dayNumber - epoch) := by
  rw [daysFromCivilChecked_eq within ⟨date.one_le_month, date.month_le⟩
    ⟨date.one_le_day, date.day_le_31⟩, daysFromCivil_eq]

theorem checked_of_dayNumber
    {days : Int} (onTimestamp : OnTimestamp days)
    (number : date.dayNumber = days + epoch) :
    civilFromDaysChecked days = some date.civil ∧
    daysFromCivilChecked date.year date.month date.day = some days := by
  have within := onTimestamp.within
  have same : date.dayNumber - epoch = days := by
    omega
  constructor
  · rw [civilFromDaysChecked_eq (by omega) (by omega), ← same,
      civilFromDays_of_dayNumber]
  · rw [daysFromCivilChecked_date (year_within (by rwa [same])), same]

/-- The day numbers of timestamps are the dates of the Gregorian calendar: every
day has a date that exists and that leads back to it, the next day has the next
date, and a date on a timestamp is the date of its day. -/
theorem civilFromDays_exact :
    civilFromDaysChecked 0 = some (1970, 1, 1) ∧
    (∀ days, OnTimestamp days → ∃ date : Date,
        civilFromDaysChecked days = some date.civil ∧
        civilFromDays days = date.civil ∧
        daysFromCivilChecked date.year date.month date.day = some days ∧
        daysFromCivil date.year date.month date.day = days ∧
        (OnTimestamp (days + 1) →
          civilFromDaysChecked (days + 1) = some date.next.civil)) ∧
    ∀ date : Date, ∀ days, OnTimestamp days →
      daysFromCivil date.year date.month date.day = days →
        daysFromCivilChecked date.year date.month date.day = some days ∧
        civilFromDaysChecked days = some date.civil ∧
        civilFromDays days = date.civil := by
  refine ⟨by decide, fun days onTimestamp => ?_, ?_⟩
  · obtain ⟨date, civil, number⟩ := exists_civilFromDays days
    obtain ⟨checked, back⟩ := checked_of_dayNumber onTimestamp number
    refine ⟨date, checked, civil, back, ?_, fun tomorrow => ?_⟩
    · rw [daysFromCivil_eq]
      omega
    · refine (checked_of_dayNumber tomorrow ?_).1
      rw [Date.dayNumber_next]
      omega
  · intro date days onTimestamp same
    rw [daysFromCivil_eq] at same
    obtain ⟨checked, back⟩ := @checked_of_dayNumber date days onTimestamp (by omega)
    refine ⟨back, checked, ?_⟩
    rw [← same, civilFromDays_of_dayNumber]

/-- The leap day of the year 2000. -/
theorem civilFromDays_exact_leapDay :
    civilFromDaysChecked 11016 = some (2000, 2, 29) := by
  have onTimestamp : OnTimestamp 11016 := ⟨951782400, by decide⟩
  exact (civilFromDays_exact.2.2
    ⟨2000, 2, 29, by decide, by decide, by decide, by decide⟩ 11016
      onTimestamp (by decide)).2.1

end SlateOrm
