import Mathlib.Algebra.Order.Monoid.Unbundled.Basic
import Mathlib.Data.Int.Order.Basic
import Mathlib.Order.SuccPred.IntervalSucc

/-! # The proleptic Gregorian calendar

Days are counted from 1 January 1970, and months from January of the year 0. A month is located by
its first day, and every day is of exactly one month.
-/
namespace Marotte.Calendar

/-- The years are taken from March, so that the leap day is a year's last. -/
def firstDay (month : ℤ) : ℤ :=
  365 * ((month - 2) / 12) + (month - 2) / 12 / 4 - (month - 2) / 12 / 100 +
    (month - 2) / 12 / 400 + (153 * ((month - 2) % 12) + 2) / 5 - 719468

/-- A linear estimate, that is off by one month at most. -/
def monthOf (day : ℤ) : ℤ :=
  let month := 4800 * (day + 719468) / 146097 + 2
  if day < firstDay month then month - 1
  else if day < firstDay (month + 1) then month
  else month + 1

def dayOfMonth (day : ℤ) : ℤ := day - firstDay (monthOf day) + 1

def lastDay (day : ℤ) : ℤ := firstDay (monthOf day + 1) - 1

/-- From Sunday, 0, to Saturday, 6. -/
def weekday (day : ℤ) : ℤ := (day + 4) % 7

variable {month day : ℤ}

theorem firstDay_succ (month : ℤ) :
    firstDay month + 28 ≤ firstDay (month + 1) ∧ firstDay (month + 1) ≤ firstDay month + 31 := by
  rw [firstDay, firstDay]
  by_cases hyear : (month - 2) % 12 = 11
  · have hnext : (month + 1 - 2) / 12 = (month - 2) / 12 + 1 := by omega
    have hfirst : (month + 1 - 2) % 12 = 0 := by omega
    rw [hnext, hfirst, hyear]
    omega
  · have hsame : (month + 1 - 2) / 12 = (month - 2) / 12 := by omega
    have hnext : (month + 1 - 2) % 12 = (month - 2) % 12 + 1 := by omega
    rw [hsame, hnext]
    omega

/-- A month that begins before another is before it. -/
theorem lt_of_firstDay_lt {month month' : ℤ} (h : firstDay month < firstDay month') :
    month < month' := by
  have hmono : StrictMono firstDay := by
    apply strictMono_int_of_lt_succ
    intro month
    have hnext := (firstDay_succ month).1
    omega
  exact hmono.lt_iff_lt.mp h

/-- Four hundred years are 4800 months and 146097 days. -/
theorem firstDay_linear (month : ℤ) :
    146097 * (month - 2) - 16000 ≤ 4800 * (firstDay month + 719468) ∧
      4800 * (firstDay month + 719468) ≤ 146097 * (month - 2) + 20000 := by
  rw [firstDay]
  omega

theorem monthOf_bounds (day : ℤ) :
    firstDay (monthOf day) ≤ day ∧ day < firstDay (monthOf day + 1) := by
  rw [monthOf]
  have hbefore := firstDay_linear (4800 * (day + 719468) / 146097 + 2 - 1)
  have hafter := firstDay_linear (4800 * (day + 719468) / 146097 + 2 + 1 + 1)
  split
  · rw [Int.sub_add_cancel]
    omega
  · split
    · omega
    · omega

theorem monthOf_eq (hfirst : firstDay month ≤ day) (hnext : day < firstDay (month + 1)) :
    monthOf day = month := by
  obtain ⟨hbelow, habove⟩ := monthOf_bounds day
  have hle : month < monthOf day + 1 := lt_of_firstDay_lt (hfirst.trans_lt habove)
  have hge : monthOf day < month + 1 := lt_of_firstDay_lt (hbelow.trans_lt hnext)
  omega

/-- The k-th day of a month. -/
theorem dayOfMonth_add {k : ℤ} (hk : 1 ≤ k) (hlast : firstDay month + k ≤ firstDay (month + 1)) :
    dayOfMonth (firstDay month + k - 1) = k ∧
      lastDay (firstDay month + k - 1) = firstDay (month + 1) - 1 := by
  have hmonth : monthOf (firstDay month + k - 1) = month := by
    apply monthOf_eq
    · omega
    · omega
  rw [dayOfMonth, lastDay, hmonth]
  omega

example : monthOf 20701 = 12 * 2026 + 8 ∧ dayOfMonth 20701 = 5 ∧ weekday 20701 = 6 := by decide

end Marotte.Calendar
