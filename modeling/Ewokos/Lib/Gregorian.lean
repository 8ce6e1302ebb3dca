import Mathlib.Data.Nat.Basic
import Mathlib.Tactic.Common
import Mathlib.Tactic.IntervalCases

/-!
# The Gregorian calendar

Days are counted from 1 January of year 0 on, with the leap years of the Gregorian calendar before
its introduction, too.

* `dayNumber` — the number of a date; `dayNumber_nextMonth` — the first day behind a month.
* `daysBeforeYear_eq` — the days before a year, without the sum.
* `weekday` — counted from 1 January 2000, a Saturday; 0 is Sunday.
-/

set_option autoImplicit false

namespace Gregorian

def isLeap (year : Nat) : Bool := year % 4 == 0 && (year % 100 != 0 || year % 400 == 0)

def yearLength (year : Nat) : Nat := if isLeap year then 366 else 365

/-- The days of a month from 1 to 12. -/
def monthLength (year : Nat) : Nat → Nat
  | 2 => if isLeap year then 29 else 28
  | 4 | 6 | 9 | 11 => 30
  | _ => 31

def daysBeforeYear : Nat → Nat
  | 0 => 0
  | year + 1 => daysBeforeYear year + yearLength year

/-- The days of the months in front of a month. -/
def daysBeforeMonth (year : Nat) : Nat → Nat
  | 0 => 0
  | 1 => 0
  | month + 2 => daysBeforeMonth year (month + 1) + monthLength year (month + 1)

def dayNumber (year month day : Nat) : Nat :=
  daysBeforeYear year + daysBeforeMonth year month + (day - 1)

def weekday (year month day : Nat) : Nat :=
  (((dayNumber year month day : Int) - dayNumber 2000 1 1 + 6) % 7).toNat

/-! ## Days before a date -/

theorem isLeap_iff (year : Nat) : isLeap year = true ↔
    year % 4 = 0 ∧ (year % 100 ≠ 0 ∨ year % 400 = 0) := by
  simp [isLeap]

theorem daysBeforeYear_eq (year : Nat) : daysBeforeYear year + (year + 99) / 100 =
    365 * year + (year + 3) / 4 + (year + 399) / 400 := by
  induction year with
  | zero => rfl
  | succ year ih =>
    rw [daysBeforeYear, yearLength]
    by_cases h : isLeap year = true
    · rw [if_pos h]
      rw [isLeap_iff] at h
      omega
    · rw [if_neg h]
      rw [isLeap_iff] at h
      omega

theorem daysBeforeMonth_twelve (year : Nat) :
    daysBeforeMonth year 12 + monthLength year 12 = yearLength year := by
  simp only [daysBeforeMonth, monthLength, yearLength]
  split
  · rfl
  · rfl

/-- The first day behind a month. -/
theorem dayNumber_nextMonth (year : Nat) {month : Nat} (hm : 1 ≤ month) (hm' : month ≤ 12) :
    dayNumber (if month = 12 then year + 1 else year) (if month = 12 then 1 else month + 1) 1 =
      dayNumber year month 1 + monthLength year month := by
  unfold dayNumber
  by_cases h : month = 12
  · subst h
    have hyear := daysBeforeMonth_twelve year
    rw [if_pos rfl, if_pos rfl, daysBeforeYear, daysBeforeMonth]
    omega
  · obtain ⟨month, rfl⟩ : ∃ k, month = k + 1 := ⟨month - 1, by omega⟩
    rw [if_neg h, if_neg h, daysBeforeMonth]
    omega

/-! ## Weekdays -/

/-- 1 January of year 0 was a Saturday, too. -/
theorem weekday_eq (year month day : Nat) :
    weekday year month day = (dayNumber year month day + 6) % 7 := by
  have hyear := daysBeforeYear_eq 2000
  have hmonth : daysBeforeMonth 2000 1 = 0 := rfl
  have h2000 : dayNumber 2000 1 1 = 730485 := by
    unfold dayNumber
    omega
  unfold weekday
  rw [h2000]
  omega

theorem weekday_day (year month day : Nat) :
    weekday year month day = (weekday year month 1 + (day - 1)) % 7 := by
  rw [weekday_eq, weekday_eq]
  unfold dayNumber
  omega

theorem weekday_nextMonth (year : Nat) {month : Nat} (hm : 1 ≤ month) (hm' : month ≤ 12) :
    weekday (if month = 12 then year + 1 else year) (if month = 12 then 1 else month + 1) 1 =
      (weekday year month 1 + monthLength year month) % 7 := by
  rw [weekday_eq, weekday_eq, dayNumber_nextMonth year hm hm']
  omega

end Gregorian
