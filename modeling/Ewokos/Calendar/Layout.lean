import Mathlib
import Ewokos.Lib.Gregorian
import Ewokos.Calendar.Widget

/-!
# calendar: the layout of a month

* `getFirstDayOfMonth_eq` — Zeller's formula as the source has it, truncating divisions included,
  is the weekday that counting the days of the Gregorian calendar gives.
* `month_layout` — the grid of a month.
-/

set_option autoImplicit false

namespace Calendar

open Gregorian

theorem isLeapYear_eq (year : Nat) : isLeapYear year = isLeap year := by
  have htmod (n : Nat) : (year : Int).tmod n = ((year % n : Nat) : Int) := by
    rw [Int.tmod_eq_emod_of_nonneg (Int.natCast_nonneg year), Int.natCast_mod]
  rw [Bool.eq_iff_iff, isLeap_iff, isLeapYear]
  have h4 := htmod 4
  have h100 := htmod 100
  have h400 := htmod 400
  push_cast at h4 h100 h400
  simp only [h4, h100, h400, Bool.or_eq_true, Bool.and_eq_true, beq_iff_eq, bne_iff_ne, ne_eq]
  omega

theorem getDaysInMonth_eq (year : Nat) {month : Nat} (hm : 1 ≤ month) (hm' : month ≤ 12) :
    getDaysInMonth year month = monthLength year month := by
  unfold getDaysInMonth
  rw [isLeapYear_eq]
  by_cases hleap : isLeap year = true
  · interval_cases month <;> simp [monthLength, days, hleap]
  · interval_cases month <;> simp [monthLength, days, hleap]

/-! ## Zeller's formula -/

/-- The remainder of the source, made positive. -/
theorem tmod_wrap (t : Int) : (if t.tmod 7 < 0 then t.tmod 7 + 7 else t.tmod 7) = t % 7 := by
  have hlow := Int.emod_nonneg t (by decide : (7 : Int) ≠ 0)
  have hlt := Int.emod_lt_of_pos t (by decide : (0 : Int) < 7)
  rw [Int.tmod_eq_emod]
  by_cases hd : 0 ≤ t ∨ 7 ∣ t
  · rw [if_pos hd, if_neg (by omega)]
    omega
  · rw [if_neg hd, if_pos (by omega)]
    omega

/-- The sum of the formula, for month `m` of year `y`, which begins with March. -/
theorem zeller_eq (y m : Nat) : ((y : Int).tmod 100 + ((y : Int).tmod 100).tdiv 4 +
    ((y : Int).tdiv 100).tdiv 4 - 2 * (y : Int).tdiv 100 + (26 * ((m : Int) + 1)).tdiv 10 + 1 - 1) =
      (y % 100 + y % 100 / 4 + y / 100 / 4 + 26 * (m + 1) / 10 : Nat) - 2 * (y / 100 : Nat) := by
  have hmod : (y : Int).tmod 100 = (y % 100 : Nat) := rfl
  have hdiv : (y : Int).tdiv 100 = (y / 100 : Nat) := rfl
  have hquarter (n : Nat) : (n : Int).tdiv 4 = (n / 4 : Nat) := rfl
  have hmonth : (26 * ((m : Int) + 1)).tdiv 10 = (26 * (m + 1) / 10 : Nat) := rfl
  rw [hmod, hdiv, hquarter, hquarter, hmonth]
  omega

/-- The days before a year, from its predecessor's century and the year in it. -/
theorem daysBeforeYear_century (y : Nat) : daysBeforeYear (y + 1) + y / 100 =
    365 * (y + 1) + 1 + (25 * (y / 100) + y % 100 / 4) + y / 100 / 4 := by
  have hdays := daysBeforeYear_eq (y + 1)
  have hfour : y / 4 = 25 * (y / 100) + y % 100 / 4 := by omega
  have hcenturies : y / 400 = y / 100 / 4 := by omega
  omega

/-- Zeller's sum in January and February, which count to the year before. -/
theorem zeller_winter (y : Nat) {month : Nat} (hm : 1 ≤ month) (hm' : month < 3) :
    (((y % 100 + y % 100 / 4 + y / 100 / 4 + 26 * (month + 12 + 1) / 10 : Nat) : Int) -
      2 * (y / 100 : Nat)) % 7 = weekday (y + 1) month 1 := by
  have hcentury := daysBeforeYear_century y
  have hsplit := Nat.div_add_mod y 100
  rw [weekday_eq, dayNumber]
  generalize y / 100 = c at *
  generalize y % 100 = e at *
  interval_cases month
  · simp only [daysBeforeMonth]
    omega
  · simp only [daysBeforeMonth, monthLength]
    omega

/-- Zeller's sum from March on. -/
theorem zeller_spring (y : Nat) {month : Nat} (hm : 3 ≤ month) (hm' : month ≤ 12) :
    (((y % 100 + y % 100 / 4 + y / 100 / 4 + 26 * (month + 1) / 10 : Nat) : Int) -
      2 * (y / 100 : Nat)) % 7 = weekday y month 1 := by
  have hcentury := daysBeforeYear_century y
  have hsplit := Nat.div_add_mod y 100
  rw [daysBeforeYear, yearLength] at hcentury
  rw [weekday_eq, dayNumber]
  generalize y / 100 = c at *
  generalize y % 100 = e at *
  by_cases h : isLeap y = true
  · rw [if_pos h] at hcentury
    interval_cases month <;> simp only [daysBeforeMonth, monthLength, h, if_true] <;> omega
  · rw [if_neg h] at hcentury
    interval_cases month <;>
      simp only [daysBeforeMonth, monthLength, h, Bool.false_eq_true, if_false] <;> omega

/-- The source's formula is the weekday of the Gregorian calendar. -/
theorem getFirstDayOfMonth_eq {year : Nat} (hy : 1 ≤ year) {month : Nat} (hm : 1 ≤ month)
    (hm' : month ≤ 12) : getFirstDayOfMonth year month = weekday year month 1 := by
  unfold getFirstDayOfMonth
  by_cases h : month < 3
  · obtain ⟨y, rfl⟩ : ∃ y, year = y + 1 := ⟨year - 1, by omega⟩
    have hcast : ((y + 1 : Nat) : Int) - 1 = (y : Nat) := by push_cast; ring
    have hcast' : (month : Int) + 12 = ((month + 12 : Nat) : Int) := by push_cast; ring
    simp only [show (month : Int) < 3 by omega, if_true, hcast, hcast']
    rw [zeller_eq, tmod_wrap]
    exact zeller_winter y hm h
  · simp only [show ¬ (month : Int) < 3 by omega, if_false]
    rw [zeller_eq, tmod_wrap]
    exact zeller_spring year (by omega) hm'

/-! ## The grid -/

theorem monthLength_le (year month : Nat) : monthLength year month ≤ 31 := by
  unfold monthLength
  split
  · split <;> decide
  all_goals decide

theorem weekday_lt (year month day : Nat) : weekday year month day < 7 := by
  rw [weekday_eq]
  exact Nat.mod_lt _ (by decide)

namespace CalendarWidget

/-- A cell shows a day of the displayed month. -/
def Shows (w : CalendarWidget) (row col day : Nat) : Prop :=
  (w.dayCell row col).isCurrentMonth = true ∧ (w.dayCell row col).dayNum = day

/-- The cell of a day has the first weekday and the days before it in front of it. -/
theorem shows_iff {w : CalendarWidget} {year month : Nat} (hy : 1 ≤ year) (hm : 1 ≤ month)
    (hm' : month ≤ 12) (hyear : w.currentYear = year) (hmonth : w.currentMonth = month)
    {row col day : Nat} : w.Shows row col day ↔ 1 ≤ day ∧ day ≤ monthLength year month ∧
      row * 7 + col = weekday year month 1 + (day - 1) := by
  have hfirst := getFirstDayOfMonth_eq hy hm hm'
  have hdays := getDaysInMonth_eq year hm hm'
  unfold Shows dayCell
  simp only [hyear, hmonth, hfirst, hdays]
  by_cases hbefore : (row : Int) * 7 + col < weekday year month 1
  · rw [if_pos hbefore]
    refine ⟨fun h => absurd h.1 Bool.false_ne_true, fun h => ?_⟩
    omega
  · rw [if_neg hbefore]
    by_cases hbehind : (row : Int) * 7 + col < weekday year month 1 + monthLength year month
    · rw [if_pos hbehind]
      refine ⟨fun h => ?_, fun h => ⟨rfl, ?_⟩⟩
      · have := h.2
        dsimp only at this
        omega
      · dsimp only
        omega
    · rw [if_neg hbehind]
      refine ⟨fun h => absurd h.1 Bool.false_ne_true, fun h => ?_⟩
      omega

/-- Every day of the displayed month has one cell, in the column of its weekday. -/
theorem shows_once {w : CalendarWidget} {year month : Nat} (hy : 1 ≤ year) (hm : 1 ≤ month)
    (hm' : month ≤ 12) (hyear : w.currentYear = year) (hmonth : w.currentMonth = month)
    {day : Nat} (hd : 1 ≤ day) (hd' : day ≤ monthLength year month) :
    ∃ row col, row < 6 ∧ col < 7 ∧ w.Shows row col day ∧ col = weekday year month day ∧
      ∀ row' < 6, ∀ col' < 7, w.Shows row' col' day → row' = row ∧ col' = col := by
  have hfirst := weekday_lt year month 1
  have hlength := monthLength_le year month
  have hday := weekday_day year month day
  have hshows {row col : Nat} : w.Shows row col day ↔ 1 ≤ day ∧ day ≤ monthLength year month ∧
      row * 7 + col = weekday year month 1 + (day - 1) := shows_iff hy hm hm' hyear hmonth
  refine ⟨(weekday year month 1 + (day - 1)) / 7, (weekday year month 1 + (day - 1)) % 7, by omega,
    by omega, hshows.mpr ⟨hd, hd', by omega⟩, hday.symm, fun row hrow col hcol h => ?_⟩
  obtain ⟨-, -, hcell⟩ := hshows.mp h
  omega

end CalendarWidget

/-- Every month begins where the one before it ends, and the days of the displayed month have one
cell each, in the column of their weekday. -/
theorem month_layout : (∀ year month : Nat, 1 ≤ year → 1 ≤ month → month ≤ 12 →
      getFirstDayOfMonth (if month = 12 then year + 1 else year : Nat)
        (if month = 12 then 1 else month + 1 : Nat) =
          (getFirstDayOfMonth year month + getDaysInMonth year month) % 7) ∧
    getFirstDayOfMonth 2000 1 = 6 ∧
    ∀ (w : CalendarWidget) (year month day : Nat), w.currentYear = year → w.currentMonth = month →
      1 ≤ year → 1 ≤ month → month ≤ 12 → 1 ≤ day → day ≤ getDaysInMonth year month →
        ∃ row col, row < 6 ∧ col < 7 ∧ w.Shows row col day ∧ col = weekday year month day ∧
          ∀ row' < 6, ∀ col' < 7, w.Shows row' col' day → row' = row ∧ col' = col := by
  refine ⟨fun year month hy hm hm' => ?_, rfl,
    fun w year month day hyear hmonth hy hm hm' hd hd' => ?_⟩
  · rw [getFirstDayOfMonth_eq hy hm hm', getDaysInMonth_eq year hm hm',
      getFirstDayOfMonth_eq (by split <;> omega) (by split <;> omega) (by split <;> omega),
      weekday_nextMonth year hm hm']
    push_cast
    rfl
  · rw [getDaysInMonth_eq year hm hm'] at hd'
    exact CalendarWidget.shows_once hy hm hm' hyear hmonth hd (by omega)

/-- 29 February 2000 was a Tuesday. -/
theorem month_layout_leap : getFirstDayOfMonth 2000 2 =
      (getFirstDayOfMonth 2000 1 + getDaysInMonth 2000 1) % 7 ∧
    ∃ row col, row < 6 ∧ col < 7 ∧ CalendarWidget.Shows ⟨2000, 2, 1, 2000, 2, 1⟩ row col 29 ∧
      col = weekday 2000 2 29 ∧ ∀ row' < 6, ∀ col' < 7,
        CalendarWidget.Shows ⟨2000, 2, 1, 2000, 2, 1⟩ row' col' 29 → row' = row ∧ col' = col :=
  ⟨month_layout.1 2000 1 (by decide) (by decide) (by decide),
    month_layout.2.2 ⟨2000, 2, 1, 2000, 2, 1⟩ 2000 2 29 rfl rfl (by decide) (by decide) (by decide)
      (by decide) (by decide)⟩

end Calendar
