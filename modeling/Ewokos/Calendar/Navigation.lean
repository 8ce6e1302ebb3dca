import Mathlib
import Ewokos.Lib.Prefixes
import Ewokos.Calendar.Widget

/-!
# calendar: the displayed month

Clicks and timer ticks, in any order, from the construction on.

* `onMouse_displayed`, `onTimer_displayed` — what an event does to the displayed month.
* `navigation_iff` — clicks alone move the calendar, along a run, exactly when each tick that
  finds it in 1970 also finds the clock in the displayed month.
-/

set_option autoImplicit false

namespace Calendar

/-- The months since January of year 0. -/
def Tm.months (t : Tm) : Int := 12 * (t.tm_year + 1900) + (t.tm_mon : Nat)

/-- The year and the month that lie a number of months behind January of year 0. -/
def monthAt (months : Int) : Int × Int := (months / 12, months % 12 + 1)

namespace MouseEvent

/-- Released on the header, where the buttons are. -/
def OnHeader (ev : MouseEvent) : Prop := ev.state = .up ∧ 15 ≤ ev.y ∧ ev.y ≤ 55

/-- A click on the left button. -/
def Previous (ev : MouseEvent) : Prop := ev.OnHeader ∧ 15 ≤ ev.x ∧ ev.x ≤ 55

/-- A click on the right button, in an area `areaW` wide. -/
def Next (areaW : Int) (ev : MouseEvent) : Prop :=
  ev.OnHeader ∧ ¬ev.Previous ∧ areaW - 55 ≤ ev.x ∧ ev.x ≤ areaW - 15

instance (ev : MouseEvent) : Decidable ev.OnHeader := inferInstanceAs (Decidable (_ ∧ _))

instance (ev : MouseEvent) : Decidable ev.Previous := inferInstanceAs (Decidable (_ ∧ _))

instance (areaW : Int) (ev : MouseEvent) : Decidable (ev.Next areaW) :=
  inferInstanceAs (Decidable (_ ∧ _))

end MouseEvent

/-- A mouse event, with the width of the area at the time, or a timer tick, with the clock. -/
inductive Event where
  | mouse (areaW : Int) (ev : MouseEvent)
  | timer (time_info : Tm)
  deriving DecidableEq

namespace Event

def isPrevious : Event → Bool
  | mouse _ ev => ev.Previous
  | timer _ => false

def isNext : Event → Bool
  | mouse areaW ev => ev.Next areaW
  | timer _ => false

/-- Clicks on the next month less clicks on the previous one. -/
def moves (events : List Event) : Int := events.countP isNext - events.countP isPrevious

end Event

namespace CalendarWidget

def step (w : CalendarWidget) : Event → CalendarWidget
  | .mouse areaW ev => (w.onMouse areaW ev).2
  | .timer time_info => w.onTimer time_info

/-- The widget, built when the clock shows `now`, after events. -/
def run (now : Tm) (events : List Event) : CalendarWidget := events.foldl step (new now)

def displayed (w : CalendarWidget) : Int × Int := (w.currentYear, w.currentMonth)

theorem displayed_eq_iff {w : CalendarWidget} {m : Int} :
    w.displayed = monthAt m ↔ w.currentYear = m / 12 ∧ w.currentMonth = m % 12 + 1 :=
  Prod.ext_iff

theorem new_displayed (now : Tm) : (new now).displayed = monthAt now.months := by
  have hmon := now.tm_mon.isLt
  rw [displayed_eq_iff, Tm.months]
  refine ⟨?_, ?_⟩
  · change now.tm_year + 1900 = _
    omega
  · change ((now.tm_mon : Nat) : Int) + 1 = _
    omega

theorem monthAt_inj {m m' : Int} : monthAt m = monthAt m' ↔ m = m' := by
  refine ⟨fun h => ?_, fun h => h ▸ rfl⟩
  obtain ⟨hyear, hmonth⟩ := Prod.ext_iff.mp h
  unfold monthAt at hyear hmonth
  dsimp only at hyear hmonth
  omega

/-- Without the wrap at the ends of a year. -/
theorem displayed_previous {w : CalendarWidget} {m : Int} (h : w.displayed = monthAt m) :
    (if w.currentMonth - 1 < 1 then
      (true, { w with currentMonth := 12, currentYear := w.currentYear - 1 })
      else (true, { w with currentMonth := w.currentMonth - 1 })).2.displayed = monthAt (m - 1) := by
  obtain ⟨hyear, hmonth⟩ := displayed_eq_iff.mp h
  rw [displayed_eq_iff]
  split
  · dsimp only
    omega
  · dsimp only
    omega

theorem displayed_next {w : CalendarWidget} {m : Int} (h : w.displayed = monthAt m) :
    (if w.currentMonth + 1 > 12 then
      (true, { w with currentMonth := 1, currentYear := w.currentYear + 1 })
      else (true, { w with currentMonth := w.currentMonth + 1 })).2.displayed = monthAt (m + 1) := by
  obtain ⟨hyear, hmonth⟩ := displayed_eq_iff.mp h
  rw [displayed_eq_iff]
  split
  · dsimp only
    omega
  · dsimp only
    omega

theorem moves_mouse (areaW : Int) (ev : MouseEvent) : Event.moves [.mouse areaW ev] =
    if ev.Previous then -1 else if ev.Next areaW then 1 else 0 := by
  unfold Event.moves
  rw [List.countP_singleton, List.countP_singleton, Event.isNext, Event.isPrevious]
  by_cases hprev : ev.Previous
  · have hnext : ¬ev.Next areaW := fun h => h.2.1 hprev
    simp [hprev, hnext]
  · by_cases hnext : ev.Next areaW
    · simp [hprev, hnext]
    · simp [hprev, hnext]

/-- A mouse event moves by one month if it is a click on a button. -/
theorem onMouse_displayed {w : CalendarWidget} {m : Int} (h : w.displayed = monthAt m)
    (areaW : Int) (ev : MouseEvent) : (w.onMouse areaW ev).2.displayed =
      monthAt (m + Event.moves [.mouse areaW ev]) := by
  have hrow : ev.OnHeader ↔ ev.state = .up ∧ ev.y ≥ 10 + 5 ∧ ev.y ≤ 10 + 5 + (50 - 10) := by
    refine and_congr_right fun _ => ?_
    omega
  have hleft : ev.Previous ↔ ev.OnHeader ∧ ev.x ≥ 10 + 5 ∧ ev.x ≤ 10 + 5 + 40 := by
    refine and_congr_right fun _ => ?_
    omega
  have hright : ev.Next areaW ↔ ev.OnHeader ∧ ¬ev.Previous ∧
      ev.x ≥ areaW - 10 - 40 - 5 ∧ ev.x ≤ areaW - 10 - 40 - 5 + 40 := by
    refine and_congr_right fun _ => and_congr_right fun _ => ?_
    omega
  rw [moves_mouse]
  unfold onMouse
  dsimp only
  by_cases hheader : ev.OnHeader
  · obtain ⟨hup, hy⟩ := hrow.mp hheader
    rw [if_pos hup, if_pos hy]
    by_cases hprev : ev.Previous
    · rw [if_pos (hleft.mp hprev).2, if_pos hprev]
      exact displayed_previous h
    · rw [if_neg fun hx => hprev (hleft.mpr ⟨hheader, hx⟩), if_neg hprev]
      by_cases hnext : ev.Next areaW
      · rw [if_pos (hright.mp hnext).2.2, if_pos hnext]
        exact displayed_next h
      · rw [if_neg fun hx => hnext (hright.mpr ⟨hheader, hprev, hx⟩), if_neg hnext, add_zero]
        exact h
  · have hprev : ¬ev.Previous := fun h => hheader h.1
    have hnext : ¬ev.Next areaW := fun h => hheader h.1
    rw [if_neg hprev, if_neg hnext, add_zero]
    by_cases hup : ev.state = .up
    · rw [if_pos hup, if_neg fun hy => hheader (hrow.mpr ⟨hup, hy⟩)]
      exact h
    · rw [if_neg hup]
      exact h

/-- A tick shows the clock's month while the displayed year is 1970. -/
theorem onTimer_displayed {w : CalendarWidget} {m : Int} (h : w.displayed = monthAt m)
    (time_info : Tm) : (w.onTimer time_info).displayed =
      monthAt (if m / 12 = 1970 then time_info.months else m) := by
  obtain ⟨hyear, hmonth⟩ := displayed_eq_iff.mp h
  unfold onTimer
  rw [hyear]
  by_cases h1970 : m / 12 = 1970
  · rw [if_pos h1970, if_pos h1970, ← new_displayed time_info]
    dsimp only
    split
    · rfl
    · -- nothing is new
      rename_i hsame
      push Not at hsame
      exact Prod.ext (hyear.trans hsame.1.symm) hsame.2.1.symm
  · rw [if_neg h1970, if_neg h1970]
    exact h

/-! ## Runs -/

theorem run_concat (now : Tm) (p : List Event) (e : Event) :
    run now (p ++ [e]) = (run now p).step e :=
  List.foldl_concat ..

theorem moves_concat (p : List Event) (e : Event) :
    Event.moves (p ++ [e]) = Event.moves p + Event.moves [e] := by
  unfold Event.moves
  rw [List.countP_append, List.countP_append]
  push_cast
  ring

/-- The tick is not taken in 1970, or the clock shows the month that the clicks lead to. -/
def Harmless (now : Tm) (p : List Event) : Event → Prop
  | .mouse .. => True
  | .timer time_info => (now.months + Event.moves p) / 12 = 1970 →
      time_info.months = now.months + Event.moves p

instance (now : Tm) (p : List Event) : (e : Event) → Decidable (Harmless now p e)
  | .mouse .. => .isTrue trivial
  | .timer _ => inferInstanceAs (Decidable (_ → _))

theorem step_displayed (now : Tm) (p : List Event) (e : Event)
    (h : (run now p).displayed = monthAt (now.months + Event.moves p)) :
    (run now (p ++ [e])).displayed = monthAt (now.months + Event.moves (p ++ [e])) ↔
      Harmless now p e := by
  rw [run_concat, moves_concat, ← add_assoc]
  cases e with
  | mouse areaW ev => exact iff_of_true (onMouse_displayed h areaW ev) trivial
  | timer time_info =>
    have hmoves : Event.moves [.timer time_info] = 0 := rfl
    rw [step, onTimer_displayed h, monthAt_inj, hmoves, add_zero, Harmless]
    split
    · rename_i h1970
      exact ⟨fun h _ => h, fun h => h h1970⟩
    · rename_i h1970
      exact iff_of_true rfl fun h => absurd h h1970

/-- **Navigation.**  Built when the clock is set, the widget displays, at any time of a run, the
month that the clicks lead to from the first one exactly when every tick is harmless. -/
theorem navigation_iff (now : Tm) (_ : now.tm_year + 1900 ≠ 1970) (events : List Event) :
    Prefixes.Along (fun p => (run now p).displayed = monthAt (now.months + Event.moves p)) events ↔
      Prefixes.Each (Harmless now) events := by
  refine Prefixes.along_iff ?_ (step_displayed now) events
  rw [show Event.moves [] = 0 from rfl, add_zero]
  exact new_displayed now

/-- A click on each button, with the window as the application opens it, and a tick. -/
theorem navigation_iff_click : Prefixes.Along (fun p =>
    (run ⟨126, 6, 15⟩ p).displayed = monthAt (Tm.months ⟨126, 6, 15⟩ + Event.moves p))
      [.mouse 320 ⟨.up, 20, 20⟩, .timer ⟨126, 6, 16⟩, .mouse 320 ⟨.up, 280, 20⟩] :=
  (navigation_iff ⟨126, 6, 15⟩ (by decide) _).mpr (by decide)

/-- From July 2026 back to December 1970; the next tick returns. -/
theorem timer_moves : ¬∀ now : Tm, now.tm_year + 1900 ≠ 1970 → ∀ events : List Event,
    (run now events).displayed = monthAt (now.months + Event.moves events) := by
  intro hall
  let back : List Event := List.replicate 667 (.mouse 320 ⟨.up, 20, 20⟩)
  have hmoves : Event.moves back = -667 := by
    unfold Event.moves
    rw [List.countP_replicate, List.countP_replicate]
    decide
  have htick := hall ⟨126, 6, 15⟩ (by decide) (back ++ [.timer ⟨126, 6, 15⟩])
  rw [run_concat, moves_concat, step,
    onTimer_displayed (hall ⟨126, 6, 15⟩ (by decide) back), hmoves] at htick
  revert htick
  decide

end CalendarWidget

end Calendar
