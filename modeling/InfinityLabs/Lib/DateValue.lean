import InfinityLabs.Lib.Calendar

/-!
# JavaScript dates

A date is its time value, milliseconds since 1 January 1970 UTC, or invalid.  The local
time differs from it by the constant offset `tza`.  A setter takes the local fields
apart, puts the changed ones together and clips the time value; a day number that the
month does not have rolls into the following month.
-/

namespace InfinityLabs
namespace Lib

/-- A date: its time value, absent for an invalid date. -/
abbrev DateValue := Option Int

/-- `msPerDay`. -/
def msPerDay : Int := 86400000

/-- The greatest time value. -/
def maxTime : Int := 8640000000000000

/-- `TimeClip`. -/
def timeClip (t : Int) : DateValue :=
  if -maxTime ≤ t ∧ t ≤ maxTime then some t else none

/-- `Day`. -/
def day (t : Int) : Int := t / msPerDay

/-- `TimeWithinDay`. -/
def timeWithinDay (t : Int) : Int := t % msPerDay

/-- `YearFromTime`. -/
def yearFromTime (t : Int) : Int := monthOf (day t) / 12

/-- `MonthFromTime`. -/
def monthFromTime (t : Int) : Int := monthOf (day t) % 12

/-- `DateFromTime`. -/
def dateFromTime (t : Int) : Int := day t - monthStart (monthOf (day t)) + 1

/-- `MakeDay`: a month beyond the year counts on, and so does a date beyond the month. -/
def makeDay (year month date : Int) : Int := monthStart (12 * year + month) + date - 1

/-- `MakeDate`. -/
def makeDate (day time : Int) : Int := day * msPerDay + time

namespace DateValue

variable (tza : Int)

/-- `date.getMonth()`, absent for `NaN`. -/
def getMonth (date : DateValue) : Option Int :=
  date.map fun t => monthFromTime (t + tza)

/-- `date.setMonth(month)`. -/
def setMonth (date : DateValue) (month : Option Int) : DateValue :=
  date.bind fun t => month.bind fun month =>
    timeClip (makeDate (makeDay (yearFromTime (t + tza)) month (dateFromTime (t + tza)))
      (timeWithinDay (t + tza)) - tza)

/-- `date.setDate(date)`. -/
def setDate (date : DateValue) (newDate : Int) : DateValue :=
  date.bind fun t =>
    timeClip (makeDate (makeDay (yearFromTime (t + tza)) (monthFromTime (t + tza)) newDate)
      (timeWithinDay (t + tza)) - tza)

/-- `date.setHours(0, 0, 0, 0)`. -/
def setMidnight (date : DateValue) : DateValue :=
  date.bind fun t => timeClip (makeDate (day (t + tza)) 0 - tza)

end DateValue

/-! ## Taking a time apart -/

/-- The day and the time within it make the time. -/
theorem makeDate_day (t : Int) : makeDate (day t) (timeWithinDay t) = t :=
  Int.ediv_mul_add_emod t msPerDay

/-- The time within a day. -/
theorem timeWithinDay_bounds (t : Int) : 0 ≤ timeWithinDay t ∧ timeWithinDay t < msPerDay := by
  simp only [timeWithinDay, msPerDay]
  omega

/-- The day of a time that was put together. -/
theorem day_makeDate (n : Int) {time : Int} (htime : 0 ≤ time ∧ time < msPerDay) :
    day (makeDate n time) = n := by
  simp only [day, makeDate, msPerDay] at htime ⊢
  omega

/-- The time within the day of a time that was put together. -/
theorem timeWithinDay_makeDate (n : Int) {time : Int} (htime : 0 ≤ time ∧ time < msPerDay) :
    timeWithinDay (makeDate n time) = time := by
  simp only [timeWithinDay, makeDate, msPerDay] at htime ⊢
  omega

/-- The year and the month make the month number. -/
theorem year_month (t : Int) :
    12 * yearFromTime t + monthFromTime t = monthOf (day t) :=
  Int.mul_ediv_add_emod _ 12

/-- The date is one of the month. -/
theorem dateFromTime_bounds (t : Int) :
    1 ≤ dateFromTime t ∧ dateFromTime t ≤ daysInMonth (monthOf (day t)) := by
  have hmonth := monthOf_spec (day t)
  have hnext := monthStart_succ (monthOf (day t))
  simp only [dateFromTime]
  omega

/-- A date of the month makes a day of the month. -/
theorem monthOf_date {m date : Int} (hlow : 1 ≤ date) (hhigh : date ≤ daysInMonth m) :
    monthOf (monthStart m + date - 1) = m := by
  have hnext := monthStart_succ m
  exact monthOf_eq (by omega) (by omega)

/-- A date beyond the month makes a day of the following month. -/
theorem monthOf_date_over {m date : Int} (hover : daysInMonth m < date) (hhigh : date ≤ 31) :
    monthOf (monthStart m + date - 1) = m + 1 := by
  have hnext := monthStart_succ m
  have hnext' := monthStart_succ (m + 1)
  have hdays := daysInMonth_bounds m
  have hdays' := daysInMonth_bounds (m + 1)
  exact monthOf_eq (by omega) (by omega)

/-- A clipped time value is kept or invalid. -/
theorem timeClip_eq_some {t u : Int} :
    timeClip t = some u ↔ (-maxTime ≤ t ∧ t ≤ maxTime) ∧ t = u := by
  rw [timeClip]
  split
  · rename_i hrange
    rw [Option.some.injEq]
    exact (and_iff_right hrange).symm
  · rename_i hrange
    exact iff_of_false (by simp) fun h => hrange h.1

end Lib
end InfinityLabs
