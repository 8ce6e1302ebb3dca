import Ewokos.Evim.Lines

/-!
# evim: keys in, screen position out

The parts of `vim_input.c` and `vim_term.c` that feed back into the editor: `get_one_char`
(stdin, the `.` queue and its recording), `sync_cursor` and `refresh` (which scroll), the
status message, and the waits that consume keys (`Hit_Return`, reached from `show_status_line`
and `flash`).

A function that has to wait for a key returns `none` when the keys of the environment are used
up: the call is still blocked.
-/

set_option autoImplicit false

namespace Evim.Ed

open Cells
open CString hiding strchr

/-! ## Keys -/

/-- `readit`: the next key from stdin. -/
def readit (s : Ed) : Option (Int × Ed) :=
  match s.env.keys with
  | [] => none
  | k :: ks => some (k.code, { s with readbuffer := k.pending, env := { s.env with keys := ks } })

/-- `get_one_char`. -/
def getOneChar (s : Ed) : Option (Int × Ed) :=
  if s.adding2q then do
    let (c, s) ← s.readit
    if s.lastModifyingCmd.length ≥ MAX_INPUT_LEN - 2 then
      some (c, { s with adding2q := false, lastModifyingCmd := [] })
    else
      some (c, { s with lastModifyingCmd := s.lastModifyingCmd ++ [UInt8.ofInt c] })
  else
    match s.ioq with
    | some (c :: rest) => some (c.toNat, { s with ioq := some rest })
    | some [] => { s with ioq := none }.readit
    | none => s.readit

/-- A bound on the number of calls of `get_one_char` that do not block. -/
def inputLeft (s : Ed) : Nat := s.env.keys.length + (s.ioq.getD []).length

/-! ## Scrolling -/

/-- Label `sc1` of `sync_cursor`: put line `begCur`, `cnt` lines away, on the screen. -/
def scrollTo (s : Ed) (begCur cnt : Int) : Ed :=
  let s := { s with screenbegin := begCur }
  if cnt > ((s.rows - 1) / 2 : Nat) then
    { s with screenbegin := s.prevLine^[(s.rows - 1) / 2] s.screenbegin }
  else s

/-- The row loop of `sync_cursor`: row and start of the line reached. -/
def rowLoop (s : Ed) (begCur : Int) : Nat → Int → Int → Int × Int
  | 0, ro, tp => (ro, tp)
  | fuel + 1, ro, tp => if tp = begCur then (ro, tp) else rowLoop s begCur fuel (ro + 1) (s.nextLine tp)

/-- The column loop of `sync_cursor`. -/
def colLoop (s : Ed) (d : Int) : Nat → Int → Int → Int
  | 0, _, co => co
  | fuel + 1, tp, co =>
    if s.mem tp = NL then co
    else
      let co := s.nextColumn (s.mem tp) co - 1
      if s.cmdMode ≠ .command ∧ tp = d - 1 ∧ s.mem d = 9 then co + 1
      else if tp < d then colLoop s d fuel (tp + 1) (co + 1)
      else co

/-- `sync_cursor`: scroll so that `d` is on the screen and find its row and column. -/
def syncCursor (s : Ed) (d : Int) : Ed :=
  let begCur := s.beginLine d
  let s :=
    if begCur < s.screenbegin then s.scrollTo begCur (s.countLines begCur s.screenbegin)
    else
      let endScr := s.endScreen
      if begCur > endScr then
        let cnt := s.countLines endScr begCur
        if cnt > ((s.rows - 1) / 2 : Nat) then s.scrollTo begCur cnt
        else { s with screenbegin := s.nextLine^[(cnt - 1).toNat] s.screenbegin }
      else s
  let (ro, tp) := s.rowLoop begCur (s.rows - 1) 0 s.screenbegin
  let co := s.colLoop d ((d - tp).toNat + 1) tp 0
  let offset := if co < s.offset then co else s.offset
  let offset := if co ≥ s.columns + offset then co - s.columns + 1 else offset
  let offset := if d = begCur ∧ s.mem d = 9 then 0 else offset
  { s with offset := offset, crow := ro, ccol := co - offset }

/-- `refresh`: what it does to the editor state. -/
def refresh (s : Ed) : Ed :=
  let s := s.syncCursor s.dot
  if s.keepIndex then s else { s with cindex := some (s.ccol + s.offset) }

/-! ## Status line -/

/-- `status_line`. -/
def statusLine (s : Ed) (msg : List UInt8) : Ed :=
  { s with statusBuffer := msg.take (STATUS_BUFFER_LEN - 1), haveStatusMsg := 1 }

/-- `status_line_bold`: the text between the two escape sequences `ESC[7m` and `ESC[m`. -/
def statusLineBold (s : Ed) (msg : List UInt8) : Ed :=
  { s with
    statusBuffer := [27, 91, 55, 109] ++ msg.take (STATUS_BUFFER_LEN - 10) ++ [27, 91, 109]
    haveStatusMsg := 8 }

/-- `status_line_bold_errno`. -/
def statusLineBoldErrno (s : Ed) (fn : List UInt8) : Ed :=
  let (e, s) := s.ask (·.errno)
  s.statusLineBold (str "'" ++ fn ++ str "' " ++ e)

/-- The loop of `print_literal`. -/
def literalLoop : List UInt8 → List UInt8 → List UInt8
  | [], d => d
  | c :: rest, d =>
    let c := if c ≥ 128 then chr '?' else c
    let d :=
      if c < 32 ∨ c = 127 then
        let c := c ||| 64
        d ++ [chr '^', if c = 127 then chr '?' else c]
      else d ++ [c]
    if d.length > MAX_INPUT_LEN - 10 then d else literalLoop rest d

/-- `not_implemented` with `print_literal`. -/
def notImplemented (s : Ed) (cmd : List UInt8) : Ed :=
  let cmd := if cmd = [] then str "(NULL)" else cmd
  s.statusLineBold (str "'" ++ literalLoop cmd [] ++ str "' is not implemented")

/-- The loop of `Hit_Return`. -/
def hitLoop : Nat → Ed → Option Ed
  | 0, _ => none
  | fuel + 1, s => do
    let (c, s) ← s.getOneChar
    if c = 10 ∨ c = 13 then some s else hitLoop fuel s

/-- `Hit_Return`, with the `show_status_line` of its `redraw`. -/
def hitReturnWith (showStatus : Ed → Option Ed) (s : Ed) : Option Ed := do
  let s ← hitLoop (s.inputLeft + 1) s
  showStatus s.refresh

/-- `show_status_line`.  The inner call finds no message left. -/
def showStatusLine (s : Ed) : Option Ed :=
  if s.haveStatusMsg = 0 then some s
  else if (s.statusBuffer.length : Int) - (s.haveStatusMsg - 1) > s.columns - 1 then
    hitReturnWith some { s with haveStatusMsg := 0 }
  else some { s with haveStatusMsg := 0 }

/-- `Hit_Return`. -/
def hitReturn (s : Ed) : Option Ed := hitReturnWith showStatusLine s

/-- `redraw`. -/
def redraw (s : Ed) : Option Ed := s.refresh.showStatusLine

/-- `indicate_error`: beep, or redraw twice to flash. -/
def indicateError (s : Ed) : Option Ed :=
  let s := { s with cmdError := true }
  if s.errMethod then do
    let s ← s.redraw
    s.redraw
  else some s

end Evim.Ed
