import Mathlib.Algebra.Order.Group.Int
import Mathlib.Tactic.Common

/-!
# The Gregorian calendar

Days are counted from 1 January 1970, months from January of the year 0: month `m` is
month `m % 12` of the year `m / 12`, with January as 0.  The calendar is extended to all
years in both directions.  `monthStart` is the first day of a month and grows by
`daysInMonth`, so every day lies in one month, which `monthOf` finds.
-/

namespace InfinityLabs
namespace Lib

/-! ## Years and months -/

/-- A year of 366 days. -/
def isLeapYear (y : Int) : Bool :=
  y % 4 = 0 ∧ (y % 100 ≠ 0 ∨ y % 400 = 0)

/-- The number of days of month `m`. -/
def daysInMonth (m : Int) : Int :=
  if m % 12 = 1 then (if isLeapYear (m / 12) then 29 else 28)
  else if m % 12 = 3 ∨ m % 12 = 5 ∨ m % 12 = 8 ∨ m % 12 = 10 then 30
  else 31

/-- The day number of 1 January. -/
def yearStart (y : Int) : Int :=
  365 * (y - 1970) + (y - 1969) / 4 - (y - 1901) / 100 + (y - 1601) / 400

/-- The days of a common year before its month `k`. -/
def daysBefore (k : Int) : Int :=
  if k ≤ 1 then 31 * k else (153 * k - 9) / 5

/-- The day number of the first day of month `m`. -/
def monthStart (m : Int) : Int :=
  yearStart (m / 12) + daysBefore (m % 12) +
    (if 2 ≤ m % 12 ∧ isLeapYear (m / 12) = true then 1 else 0)

/-- A year is followed by the next one. -/
theorem yearStart_succ (y : Int) :
    yearStart (y + 1) = yearStart y + 365 + (if isLeapYear y = true then 1 else 0) := by
  simp only [yearStart, isLeapYear, decide_eq_true_eq]
  split <;> omega

/-- **A month is followed by the next one.** -/
theorem monthStart_succ (m : Int) : monthStart (m + 1) = monthStart m + daysInMonth m := by
  by_cases hlast : m % 12 = 11
  · -- after December the year changes
    have hyear : (m + 1) / 12 = m / 12 + 1 := by omega
    have hmonth : (m + 1) % 12 = 0 := by omega
    rw [monthStart, monthStart, daysInMonth, hyear, hmonth, hlast, yearStart_succ]
    simp only [daysBefore]
    split <;> simp_all <;> omega
  · have hyear : (m + 1) / 12 = m / 12 := by omega
    have hmonth : (m + 1) % 12 = m % 12 + 1 := by omega
    have hcases : m % 12 = 0 ∨ m % 12 = 1 ∨ m % 12 = 2 ∨ m % 12 = 3 ∨ m % 12 = 4 ∨ m % 12 = 5 ∨
        m % 12 = 6 ∨ m % 12 = 7 ∨ m % 12 = 8 ∨ m % 12 = 9 ∨ m % 12 = 10 := by omega
    rw [monthStart, monthStart, daysInMonth, hyear, hmonth]
    -- February has the leap day, and from March on it lies behind
    rcases hcases with h | h | h | h | h | h | h | h | h | h | h <;>
      cases isLeapYear (m / 12) <;> simp [daysBefore, h] <;> omega

/-- The calendar repeats itself after 400 years. -/
theorem monthStart_cycle (m q : Int) :
    monthStart (m + 4800 * q) = monthStart m + 146097 * q := by
  have hyear : (m + 4800 * q) / 12 = m / 12 + 400 * q := by omega
  have hmonth : (m + 4800 * q) % 12 = m % 12 := by omega
  have hleap : isLeapYear (m / 12 + 400 * q) = isLeapYear (m / 12) := by
    rw [Bool.eq_iff_iff]
    simp only [isLeapYear, decide_eq_true_eq]
    omega
  rw [monthStart, monthStart, hyear, hmonth, hleap]
  simp only [yearStart]
  omega

/-- A month has 28 days at least and 31 at most. -/
theorem daysInMonth_bounds (m : Int) : 28 ≤ daysInMonth m ∧ daysInMonth m ≤ 31 := by
  rw [daysInMonth]
  split
  · split <;> omega
  · split <;> omega

/-- Later months start later. -/
theorem monthStart_mono {k m : Int} (hkm : k ≤ m) : monthStart k ≤ monthStart m := by
  obtain ⟨j, rfl⟩ : ∃ j : Nat, m = k + j := ⟨(m - k).toNat, by omega⟩
  clear hkm
  induction j with
  | zero => simp
  | succ j ih =>
      have hstep := monthStart_succ (k + j)
      have hdays := daysInMonth_bounds (k + j)
      have hnext : k + ((j + 1 : Nat) : Int) = k + j + 1 := by omega
      rw [hnext]
      omega

/-! ## The month of a day -/

/-- The last month from `m` on that has started by day `n`, looked for in `steps` steps. -/
def climb (n : Int) : Nat → Int → Int
  | 0, m => m
  | steps + 1, m => if monthStart (m + 1) ≤ n then climb n steps (m + 1) else m

/-- The month of a day: the climb begins with the cycle of 400 years that the day is
in. -/
def monthOf (n : Int) : Int :=
  climb n 4800 (23640 + 4800 * (n / 146097))

/-- The climb ends at the month that the day is in. -/
theorem climb_spec {n : Int} {steps : Nat} {m : Int} (hlow : monthStart m ≤ n)
    (hhigh : n < monthStart (m + steps)) :
    monthStart (climb n steps m) ≤ n ∧ n < monthStart (climb n steps m + 1) := by
  induction steps generalizing m with
  | zero =>
      simp only [Int.natCast_zero, Int.add_zero] at hhigh
      omega
  | succ steps ih =>
      rw [climb]
      split
      · rename_i hnext
        refine ih hnext ?_
        have hsum : m + 1 + (steps : Int) = m + ((steps + 1 : Nat) : Int) := by omega
        rwa [hsum]
      · rename_i hnext
        exact ⟨hlow, by omega⟩

/-- **The month of a day** has started, and the next one has not. -/
theorem monthOf_spec (n : Int) :
    monthStart (monthOf n) ≤ n ∧ n < monthStart (monthOf n + 1) := by
  -- 400 years are 146097 days and 4800 months; month 23640 is January 1970
  have hepoch : monthStart 23640 = 0 := by decide
  have hstart := monthStart_cycle 23640 (n / 146097)
  have hend := monthStart_cycle 23640 (n / 146097 + 1)
  have hmonths : (23640 + 4800 * (n / 146097) + ((4800 : Nat) : Int)) =
      23640 + 4800 * (n / 146097 + 1) := by omega
  refine climb_spec ?_ ?_
  · omega
  · rw [hmonths]
    omega

/-- A month has started by day `n` if it is not after the month of `n`. -/
theorem le_monthOf_iff {k n : Int} : k ≤ monthOf n ↔ monthStart k ≤ n := by
  obtain ⟨hlow, hhigh⟩ := monthOf_spec n
  constructor
  · intro hk
    have hmono := monthStart_mono hk
    omega
  · intro hk
    by_contra hlater
    have hmono := monthStart_mono (k := monthOf n + 1) (m := k) (by omega)
    omega

/-- The month is determined by its days. -/
theorem monthOf_eq {k n : Int} (hlow : monthStart k ≤ n) (hhigh : n < monthStart (k + 1)) :
    monthOf n = k := by
  have hle := le_monthOf_iff.mpr hlow
  have hnot : ¬ k + 1 ≤ monthOf n := fun hnext => by
    have hstarted := le_monthOf_iff.mp hnext
    omega
  omega

end Lib
end InfinityLabs
