import Mathlib

/-!
# calendar: the widget

`apps/calendar/calendar.cc` without its drawing: the displayed month and today's date, the day that
each cell of the grid shows, the buttons of the header, and the timer.

The `int` of the source are `Int` with its division, `/` and `%` truncated towards 0.
-/

set_option autoImplicit false

namespace Calendar

/-- The members of `CalendarWidget`. -/
structure CalendarWidget where
  currentYear : Int
  currentMonth : Int
  currentDay : Int
  todayYear : Int
  todayMonth : Int
  todayDay : Int
  deriving DecidableEq, Repr

/-- `isLeapYear`. -/
def isLeapYear (year : Int) : Bool :=
  (year.tmod 4 == 0 && year.tmod 100 != 0) || year.tmod 400 == 0

/-- The table of `getDaysInMonth`. -/
def days : List Int := [31, 28, 31, 30, 31, 30, 31, 31, 30, 31, 30, 31]

/-- `getDaysInMonth`. -/
def getDaysInMonth (year month : Int) : Int :=
  if month = 2 ∧ isLeapYear year then 29 else days.getD (month - 1).toNat 0

/-- `getFirstDayOfMonth`: the weekday, 0 for Sunday. -/
def getFirstDayOfMonth (year month : Int) : Int :=
  let m := if month < 3 then month + 12 else month
  let y := if month < 3 then year - 1 else year
  let c := y.tdiv 100
  let d := y.tmod 100
  let f := 1  -- first day of the month
  let w := (d + d.tdiv 4 + c.tdiv 4 - 2 * c + (26 * (m + 1)).tdiv 10 + f - 1).tmod 7
  if w < 0 then w + 7 else w

/-- What a cell of the grid shows. -/
structure DayCell where
  dayNum : Int
  isCurrentMonth : Bool
  isToday : Bool
  deriving DecidableEq, Repr

/-- The members of `struct tm` that the calendar reads. -/
structure Tm where
  /-- Years since 1900. -/
  tm_year : Int
  /-- Months since January. -/
  tm_mon : Fin 12
  tm_mday : Int
  deriving DecidableEq, Repr

inductive MouseState where
  | move
  | down
  | up
  | click
  | doubleClick
  | drag
  deriving DecidableEq, Repr

/-- A mouse event, at a position inside the widget. -/
structure MouseEvent where
  state : MouseState
  x : Int
  y : Int
  deriving DecidableEq, Repr

namespace CalendarWidget

/-- The constructor. -/
def new (time_info : Tm) : CalendarWidget where
  currentYear := time_info.tm_year + 1900
  currentMonth := time_info.tm_mon + 1
  currentDay := time_info.tm_mday
  todayYear := time_info.tm_year + 1900
  todayMonth := time_info.tm_mon + 1
  todayDay := time_info.tm_mday

variable (w : CalendarWidget)

/-- The cell of `onRepaint` in a row and a column. -/
def dayCell (row col : Nat) : DayCell :=
  let firstDay := getFirstDayOfMonth w.currentYear w.currentMonth
  let daysInMonth := getDaysInMonth w.currentYear w.currentMonth
  let prevMonthDays := getDaysInMonth
    (if w.currentMonth = 1 then w.currentYear - 1 else w.currentYear)
    (if w.currentMonth = 1 then 12 else w.currentMonth - 1)
  let prevMonthStartDay := prevMonthDays - firstDay + 1
  let cellIndex : Int := row * 7 + col
  if cellIndex < firstDay then ⟨prevMonthStartDay + cellIndex, false, false⟩
  else if cellIndex < firstDay + daysInMonth then
    let dayNum := cellIndex - firstDay + 1
    ⟨dayNum, true,
      dayNum = w.todayDay ∧ w.currentMonth = w.todayMonth ∧ w.currentYear = w.todayYear⟩
  else ⟨cellIndex - firstDay - daysInMonth + 1, false, false⟩

/-- `onMouse`, in an area `areaW` wide; `true` where the event is used up. -/
def onMouse (areaW : Int) (ev : MouseEvent) : Bool × CalendarWidget :=
  if ev.state = .up then
    let padding := 10
    let headerHeight := 50
    let buttonWidth := 40
    let buttonHeight := headerHeight - 10
    let buttonY := padding + 5
    let leftBtnX := padding + 5
    let rightBtnX := areaW - padding - buttonWidth - 5
    if ev.y ≥ buttonY ∧ ev.y ≤ buttonY + buttonHeight then
      if ev.x ≥ leftBtnX ∧ ev.x ≤ leftBtnX + buttonWidth then
        let currentMonth := w.currentMonth - 1
        if currentMonth < 1 then
          (true, { w with currentMonth := 12, currentYear := w.currentYear - 1 })
        else (true, { w with currentMonth := currentMonth })
      else if ev.x ≥ rightBtnX ∧ ev.x ≤ rightBtnX + buttonWidth then
        let currentMonth := w.currentMonth + 1
        if currentMonth > 12 then
          (true, { w with currentMonth := 1, currentYear := w.currentYear + 1 })
        else (true, { w with currentMonth := currentMonth })
      else (true, w)
    else (false, w)
  else (false, w)

/-- `onTimer`; the clock is read only while the displayed year is 1970. -/
def onTimer (time_info : Tm) : CalendarWidget :=
  if w.currentYear = 1970 then
    let newYear := time_info.tm_year + 1900
    let newMonth : Int := time_info.tm_mon + 1
    let newDay := time_info.tm_mday
    if newYear ≠ w.currentYear ∨ newMonth ≠ w.currentMonth ∨ newDay ≠ w.currentDay then
      { currentYear := newYear
        currentMonth := newMonth
        currentDay := newDay
        todayYear := newYear
        todayMonth := newMonth
        todayDay := newDay }
    else w
  else w

end CalendarWidget

end Calendar
