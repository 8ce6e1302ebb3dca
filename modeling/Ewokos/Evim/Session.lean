import Ewokos.Evim.Command

/-!
# evim: the editing loop

`edit_file` of `bin/evim/vim_main.c`: what it sets up, and one round of its loop.  `Waits` are
the states in which the loop waits for a key; the keys are those of the environment, so a
statement about them is one about every sequence of keys.
-/

set_option autoImplicit false

namespace Evim.Ed

open Cells
open CString hiding strchr

/-- `modifying_cmds`. -/
def modifyingCmds : List UInt8 := str "aAcCdDiIJoOpPrRsxX<>~"

/-- The globals when `main` calls `edit_file` for the first file, without an `.exrc`. -/
def mainStart (env : Env) (rows columns : Nat) : Ed :=
  { Ed.zeroed env with
    rows := rows
    columns := columns
    tabstop := 8
    undoQueueState := .empty }

/-- `edit_file` up to its loop. -/
def editStart (s : Ed) (fn : Option (List UInt8)) : Option Ed := do
  let (_, s) ← { s with editing := 1 }.initTextBuffer fn
  { s with
    ydreg := 26
    mark := Function.update (Function.update s.mark 26 (some s.text)) 27 (some s.text)
    crow := 0
    ccol := 0
    cmdMode := .command
    viVisual := false
    viVisualAnchor := none
    cmdcnt := 0
    offset := 0
    ioq := none
    adding2q := false }.redraw

/-- Save a copy of the current line, for the `U` command. -/
def saveLine (s : Ed) : Ed :=
  let b := s.beginLine s.dot
  if s.editFileCurLine ≠ some b then
    { s with editFileCurLine := some b }.textYank b (s.endLine s.dot) Ureg .part
  else s

/-- (Re)start remembering the input for the `.` command. -/
def rememberCmd (s : Ed) (c : Int) : Ed :=
  if !s.adding2q ∧ s.ioq = none ∧ s.cmdMode = .command ∧ !s.viVisual ∧ c > 0 ∧ c < 127 ∧
      strchr modifyingCmds c then s.startNewCmdQ c
  else s

/-- The call of `do_cmd` in one round of the loop. -/
def callCmd (s : Ed) : Option Ed := do
  let (c, s) ← s.getOneChar
  doCmd c (s.saveLine.rememberCmd c)

/-- One round of the loop of `edit_file`. -/
def editStep (s : Ed) : Option Ed := do
  let selected := s.viVisual
  let s ← s.callCmd
  -- no input pending, or a selection that just ended
  if !s.readbuffer ∨ (selected ∧ !s.viVisual) then s.refresh.showStatusLine else some s

/-- `n` rounds of the loop of `edit_file`. -/
def editLoop : Nat → Ed → Option Ed
  | 0, s => some s
  | n + 1, s => if s.editing > 0 then s.editStep.bind (editLoop n) else none

/-- The states in which the loop of `edit_file` waits for a key, from its first one on. -/
inductive Waits (s₀ : Ed) : Ed → Prop where
  | first : Waits s₀ s₀
  | next {s s' : Ed} : Waits s₀ s → s.editing > 0 → s.editStep = some s' → Waits s₀ s'

/-- Rounds of the loop lead from one waiting state to another. -/
theorem Waits.rounds {s₀ : Ed} : ∀ {n : Nat} {s s' : Ed},
    Waits s₀ s → editLoop n s = some s' → Waits s₀ s'
  | 0, _, _, hw, h => by
    cases h
    exact hw
  | n + 1, s, s', hw, h => by
    unfold editLoop at h
    split at h
    · rename_i he
      obtain ⟨s₁, h₁, h₂⟩ := Option.bind_eq_some_iff.mp h
      exact Waits.rounds (.next hw he h₁) h₂
    · cases h

end Evim.Ed
