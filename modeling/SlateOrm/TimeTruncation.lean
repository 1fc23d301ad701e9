import SlateOrm.CivilDays
import Mathlib.Order.Bounds.Basic

namespace SlateOrm

/-!
# Truncated timestamps

A timestamp is truncated to the last boundary of a unit that it has reached.
The arithmetic is exact where that boundary is a timestamp itself; the first
boundary of a unit is later than the first timestamp, and a timestamp before it
is multiplied out of 64 bits.
-/

open Gregorian

/-! ## Units -/

/-- The units that a timestamp is truncated to. -/
inductive Truncation where
  | date (unit : TimeUnit)
  | calendar (unit : CalendarUnit)
  deriving DecidableEq, Repr

/-- The first date of the month or year of a date. -/
def CalendarUnit.start : CalendarUnit → Date → Date
  | .month, date => date.startOfMonth
  | .year, date => date.startOfYear

/-- A date that is the first of a month or year. -/
def CalendarUnit.Starts (unit : CalendarUnit) (date : Date) : Prop :=
  unit.start date = date

theorem CalendarUnit.isGreatest_start
    (unit : CalendarUnit) (date : Date) :
    unit.Starts (unit.start date) ∧
    (unit.start date).dayNumber ≤ date.dayNumber ∧
    ∀ other, unit.Starts other → other.dayNumber ≤ date.dayNumber →
      other.dayNumber ≤ (unit.start date).dayNumber := by
  cases unit with
  | month =>
      refine ⟨rfl, date.startOfMonth_le, fun other starts reached => ?_⟩
      exact Date.le_startOfMonth (congrArg Date.day starts).symm reached
  | year =>
      refine ⟨rfl, date.startOfYear_le.trans date.startOfMonth_le,
        fun other starts reached => ?_⟩
      exact Date.le_startOfYear (congrArg Date.month starts).symm
        (congrArg Date.day starts).symm reached

namespace Truncation

/-- The expression that truncates a value. -/
def scalar : Truncation → Scalar → Scalar
  | .date unit, value => .dateTrunc unit value
  | .calendar unit, value => .calendarTrunc unit value

/-- The truncation, with every operation on 64-bit integers. -/
def checked : Truncation → Int → Option Int
  | .date unit, seconds => do
      let units ← fitI64 (seconds / unit.seconds)
      fitI64 (units * unit.seconds)
  | .calendar unit, seconds => do
      let days ← fitI64 (seconds / 86400)
      let (year, month, _) ← civilFromDaysChecked days
      let month := match unit with
        | .month => month
        | .year => 1
      let start ← daysFromCivilChecked year month 1
      fitI64 (start * 86400)

/-- Where a unit begins. -/
def IsBoundary : Truncation → Int → Prop
  | .date unit, seconds => unit.seconds ∣ seconds
  | .calendar unit, seconds =>
      ∃ date, unit.Starts date ∧ seconds = (date.dayNumber - epoch) * 86400

/-- The truncation of a number of any size. -/
def floor : Truncation → Int → Int
  | .date unit, seconds => seconds / unit.seconds * unit.seconds
  | .calendar unit, seconds => calendarTrunc unit seconds

/-! ## The last boundary -/

theorem seconds_pos
    (unit : TimeUnit) :
    0 < unit.seconds := by
  cases unit <;> decide

theorem calendarTrunc_eq
    (unit : CalendarUnit) {seconds : Int} {date : Date}
    (number : date.dayNumber = seconds / 86400 + epoch) :
    calendarTrunc unit seconds = ((unit.start date).dayNumber - epoch) * 86400 := by
  have civil := civilFromDays_of_dayNumber date
  rw [number, Int.add_sub_cancel] at civil
  have start := daysFromCivil_eq (unit.start date)
  unfold calendarTrunc
  rw [civil, ← start]
  cases unit <;> rfl

theorem isGreatest_floor
    (truncation : Truncation) (seconds : Int) :
    IsGreatest {boundary | truncation.IsBoundary boundary ∧ boundary ≤ seconds}
      (truncation.floor seconds) := by
  cases truncation with
  | date unit =>
      have positive := seconds_pos unit
      refine ⟨⟨Int.dvd_mul_left _ _, Int.ediv_mul_le seconds positive.ne'⟩, ?_⟩
      rintro boundary ⟨⟨count, rfl⟩, reached⟩
      rw [Int.mul_comm] at reached ⊢
      exact Int.mul_le_mul_of_nonneg_right
        ((Int.le_ediv_iff_mul_le positive).mpr reached) positive.le
  | calendar unit =>
      obtain ⟨date, _, number⟩ := exists_civilFromDays (seconds / 86400)
      obtain ⟨starts, before, greatest⟩ := unit.isGreatest_start date
      simp only [floor, calendarTrunc_eq unit number]
      refine ⟨⟨⟨_, starts, rfl⟩, by omega⟩, ?_⟩
      rintro boundary ⟨⟨other, otherStarts, rfl⟩, reached⟩
      have later := greatest other otherStarts (by omega)
      omega

theorem floor_floor
    (truncation : Truncation) (seconds : Int) :
    truncation.floor (truncation.floor seconds) = truncation.floor seconds :=
  (truncation.isGreatest_floor _).unique
    ⟨⟨(truncation.isGreatest_floor seconds).1.1, le_rfl⟩, fun _ reached => reached.2⟩

theorem checked_eq
    (truncation : Truncation) (seconds : Int64) :
    truncation.checked seconds.toInt = fitI64 (truncation.floor seconds.toInt) := by
  have lower := Int64.le_toInt seconds
  have upper := Int64.toInt_lt seconds
  cases truncation with
  | date unit =>
      cases unit <;>
        exact fitI64_bind (by simp only [TimeUnit.seconds]; omega)
          (by simp only [TimeUnit.seconds]; omega) _
  | calendar unit =>
      have onTimestamp : OnTimestamp (seconds.toInt / 86400) := ⟨seconds, rfl⟩
      obtain ⟨date, _, number⟩ := exists_civilFromDays (seconds.toInt / 86400)
      obtain ⟨found, _⟩ := checked_of_dayNumber onTimestamp number
      have start := @daysFromCivilChecked_date (unit.start date) (by
        have years := @year_within date (by
          have within := onTimestamp.within
          omega)
        cases unit <;> exact years)
      simp only [checked, floor, calendarTrunc_eq unit number]
      rw [fitI64_bind (by omega) (by omega), found]
      cases unit with
      | month
      | year => exact congrArg (· >>= fun start => fitI64 (start * 86400)) start

/-! ## What a truncation keeps -/

/-- The parts of a timestamp that are those of its boundary too. -/
def Kept : Truncation → (Scalar → Scalar) → Prop
  | .date unit, part =>
      (∃ coarser : TimeUnit, unit.seconds ≤ coarser.seconds ∧ part = .extract coarser) ∨
      ∃ field, part = .calendarPart field
  | .calendar .month, part => part = .calendarPart .year ∨ part = .calendarPart .month
  | .calendar .year, part => part = .calendarPart .year

theorem floor_ediv
    {unit coarser : TimeUnit}
    (coarse : unit.seconds ≤ coarser.seconds)
    (seconds : Int) :
    seconds / unit.seconds * unit.seconds / coarser.seconds =
      seconds / coarser.seconds := by
  cases unit <;> cases coarser <;> simp only [TimeUnit.seconds] at * <;> omega

theorem calendarPart_congr
    {first second : Int}
    (sameDay : first / 86400 = second / 86400)
    (part : CalendarPart) :
    calendarPart part first = calendarPart part second := by
  unfold calendarPart
  rw [sameDay]

section

variable [Platform]

theorem evaluate_scalar
    (row : Columns) (truncation : Truncation) (seconds : Int64) :
    (truncation.scalar (.literal (.i64 seconds))).evaluate row =
      .i64 (Int64.ofInt (truncation.floor seconds.toInt)) := by
  cases truncation <;> simp [scalar, Scalar.evaluate, ofSeconds, number, floor]

/-- The parts that are kept are those of the boundary. -/
theorem evaluate_part
    (row : Columns) {truncation : Truncation} {seconds boundary : Int64}
    (isFloor : boundary.toInt = truncation.floor seconds.toInt)
    {part : Scalar → Scalar} (kept : truncation.Kept part) :
    (part (.literal (.i64 boundary))).evaluate row =
      (part (.literal (.i64 seconds))).evaluate row := by
  cases truncation with
  | date unit =>
      rcases kept with ⟨coarser, coarse, rfl⟩ | ⟨field, rfl⟩
      · simp only [Scalar.evaluate, ofSeconds, number, isFloor, floor,
          floor_ediv coarse]
      · have days : unit.seconds ≤ TimeUnit.day.seconds := by
          cases unit <;> decide
        have sameDay := floor_ediv days seconds.toInt
        simp only [Scalar.evaluate, ofSeconds, number, isFloor, floor,
          calendarPart_congr sameDay field]
  | calendar unit =>
      obtain ⟨date, civil, number⟩ := exists_civilFromDays (seconds.toInt / 86400)
      have startCivil := civilFromDays_of_dayNumber (unit.start date)
      rw [floor, calendarTrunc_eq unit number] at isFloor
      have day : boundary.toInt / 86400 = (unit.start date).dayNumber - epoch := by
        omega
      rw [← day] at startCivil
      cases unit with
      | month =>
          rcases kept with rfl | rfl <;>
            simp [Scalar.evaluate, ofSeconds, SlateOrm.number, calendarPart,
              civil, startCivil, Date.civil, CalendarUnit.start,
              Date.startOfMonth, Date.firstOf]
      | year =>
          cases kept
          simp [Scalar.evaluate, ofSeconds, SlateOrm.number, calendarPart, civil,
            startCivil, Date.civil, CalendarUnit.start, Date.startOfYear, Date.firstOf]

/-! ## Timestamps that are truncated exactly -/

/-- No step leaves 64 bits, and a timestamp is truncated to the last boundary
it has reached, which is truncated to itself and keeps the parts; or the last
boundary is no timestamp, and the result is null. -/
def Exact (truncation : Truncation) (row : Columns) (seconds : Int64) : Prop :=
  let truncated (value : Int64) :=
    (truncation.scalar (.literal (.i64 value))).evaluate row
  let reached := {boundary |
    truncation.IsBoundary boundary ∧ boundary ≤ seconds.toInt}
  (∃ boundary : Int64, truncation.checked seconds.toInt = some boundary.toInt ∧
    truncated seconds = .i64 boundary ∧
    IsGreatest reached boundary.toInt ∧
    truncated boundary = .i64 boundary ∧
    ∀ part, truncation.Kept part → (part (.literal (.i64 boundary))).evaluate row =
        (part (.literal (.i64 seconds))).evaluate row) ∨
  (truncated seconds = .null ∧ ¬ ∃ boundary : Int64, IsGreatest reached boundary.toInt)

/-- A timestamp is truncated exactly when it has reached a boundary of the unit
that is a timestamp. -/
theorem exact_iff
    (truncation : Truncation) (row : Columns) (seconds : Int64) :
    truncation.Exact row seconds ↔
      ∃ boundary : Int64, truncation.IsBoundary boundary.toInt ∧
        boundary ≤ seconds := by
  have greatest := truncation.isGreatest_floor seconds.toInt
  constructor
  · rintro (⟨boundary, _, _, ⟨⟨isBoundary, reached⟩, _⟩, _⟩ | ⟨isNull, _⟩)
    · exact ⟨boundary, isBoundary, Int64.le_iff_toInt_le.mpr reached⟩
    · cases (evaluate_scalar row truncation seconds).symm.trans isNull
  · rintro ⟨first, isBoundary, reached⟩
    have above := greatest.2 ⟨isBoundary, Int64.le_iff_toInt_le.mp reached⟩
    have lower := first.le_toInt
    have upper := seconds.toInt_lt
    have fits : (Int64.ofInt (truncation.floor seconds.toInt)).toInt =
        truncation.floor seconds.toInt :=
      Int64.toInt_ofInt_of_le (lower.trans above) (greatest.1.2.trans_lt upper)
    refine .inl ⟨_, ?_, evaluate_scalar row truncation seconds, ?_, ?_, ?_⟩
    · rw [checked_eq, fits, fitI64, if_pos ⟨lower.trans above,
        greatest.1.2.trans_lt upper⟩]
    · rwa [fits]
    · exact (evaluate_scalar row truncation _).trans (by rw [fits, floor_floor])
    · exact fun part kept => evaluate_part row fits kept

end

/-- The first timestamp is in a minute that began before it. -/
theorem not_exact_minValue :
    ¬ @Exact asciiPlatform (.date .minute) (fun _ => none) Int64.minValue := by
  rintro (⟨boundary, checked, _⟩ | ⟨isNull, _⟩)
  · cases checked
  · cases isNull

end Truncation

end SlateOrm
