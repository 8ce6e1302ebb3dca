import Ewokos.Evim.Edit

/-!
# evim: moving the cursor

The dot movement routines of `vim_text.c`, `skip_thing` and `at_eof` of `vim_cmd.c`,
`get_motion_char` of `vim_input.c`, and the counted loop of the commands.

* `cmdLoop` — `do … while (--cmdcnt > 0)` with the locals of the loop; a body answers `false` to
  leave the loop early.  Every motion with a count is an instance.
* `dot_left` … `dot_scroll` commit the undo queue first, as the source does.
-/

set_option autoImplicit false

namespace Evim.Ed

open Cells Word
open CString hiding strchr

/-! ## Counted loops -/

/-- `do body while (--cmdcnt > 0)`.  The `Bool` is `false` when the body left the loop. -/
def cmdLoop {σ : Type} (body : σ → Ed → Option (Bool × σ × Ed)) :
    Nat → σ → Ed → Option (Bool × σ × Ed)
  | 0, l, s => some (true, l, s)
  | fuel + 1, l, s => do
    let (go, l, s) ← body l s
    if !go then some (false, l, s)
    else
      let s := { s with cmdcnt := s.cmdcnt - 1 }
      if s.cmdcnt > 0 then cmdLoop body fuel l s else some (true, l, s)

/-- The number of rounds a count asks for. -/
def rounds (s : Ed) : Nat := if s.cmdcnt > 0 then s.cmdcnt.toNat else 1

/-- A counted loop without locals that is never left early. -/
def times (body : Ed → Ed) (s : Ed) : Option Ed :=
  (cmdLoop (fun _ s => some (true, (), body s)) s.rounds () s).map fun (_, _, s) => s

/-! ## Dot movement -/

/-- `dot_left`. -/
def dotLeft (s : Ed) : Ed :=
  let s := s.undoQueueCommit
  if s.dot > s.text ∧ s.mem (s.dot - 1) ≠ NL then { s with dot := s.dot - 1 } else s

/-- `dot_right`. -/
def dotRight (s : Ed) : Ed :=
  let s := s.undoQueueCommit
  if s.dot < s.end_ - 1 ∧ s.mem s.dot ≠ NL then { s with dot := s.dot + 1 } else s

/-- `dot_begin`. -/
def dotBegin (s : Ed) : Ed :=
  let s := s.undoQueueCommit
  { s with dot := s.beginLine s.dot }

/-- `dot_end`. -/
def dotEnd (s : Ed) : Ed :=
  let s := s.undoQueueCommit
  { s with dot := s.endLine s.dot }

/-- `dot_next`. -/
def dotNext (s : Ed) : Ed :=
  let s := s.undoQueueCommit
  { s with dot := s.nextLine s.dot }

/-- `dot_prev`. -/
def dotPrev (s : Ed) : Ed :=
  let s := s.undoQueueCommit
  { s with dot := s.prevLine s.dot }

/-- The loop of `dot_skip_over_ws`. -/
def wsLoop (s : Buf) : Nat → Int → Int
  | 0, p => p
  | fuel + 1, p =>
    if isspace (s.mem p) ∧ s.mem p ≠ NL ∧ p < s.end_ - 1 then wsLoop s fuel (p + 1) else p

/-- `dot_skip_over_ws`. -/
def dotSkipOverWs (s : Ed) : Ed :=
  { s with dot := wsLoop s.toBuf (s.end_ - 1 - s.dot).toNat s.dot }

/-- The inner loop of `dot_to_char`: the next `last_search_char`, on this line. -/
def seekChar (s : Ed) (forward : Bool) : Nat → Int → Option Int
  | 0, _ => none
  | fuel + 1, q =>
    let q := if forward then q + 1 else q - 1
    if (if forward then q > s.end_ - 1 else q < s.text) ∨ s.mem q = NL then none
    else if ((s.mem q).toNat : Int) ≠ s.lastSearchChar then seekChar s forward fuel q
    else some q

/-- One round of `dot_to_char`. -/
def seekRound (forward : Bool) (q : Int) (s : Ed) : Option (Bool × Int × Ed) :=
  let fuel := if forward then s.end_ - q else q - s.text + 1
  match s.seekChar forward fuel.toNat q with
  | none => s.indicateError.map fun s => (false, q, s)
  | some q => some (true, q, s)

/-- `dot_to_char`. -/
def dotToChar (s : Ed) (cmd : Int) : Option Ed :=
  let forward := islower cmd
  if s.lastSearchChar = 0 then some s
  else do
    let (found, q, s) ← cmdLoop (seekRound forward) s.rounds s.dot s
    if !found then some s
    else
      let s := { s with dot := q }
      if cmd = key 't' then some s.dotLeft
      else if cmd = key 'T' then some s.dotRight
      else some s

/-- `dot_scroll`. -/
def dotScroll (s : Ed) (cnt : Nat) (back : Bool) : Ed :=
  let s := s.undoQueueCommit
  let s := { s with
    screenbegin := (if back then s.prevLine else s.nextLine)^[cnt] s.screenbegin }
  let s := if s.dot < s.screenbegin then { s with dot := s.screenbegin } else s
  let q := s.endScreen
  let s := if s.dot > q then { s with dot := s.beginLine q } else s
  s.dotSkipOverWs

/-- `indicate_error()`, going on with the position `p`. -/
def errorAt (s : Ed) (p : Int) : Option (Int × Ed) := s.indicateError.map fun s => (p, s)

/-- `bound_dot`: make sure `text ≤ p < end`. -/
def boundDot (s : Ed) (p : Int) : Option (Int × Ed) := do
  let (p, s) ← (if p ≥ s.end_ ∧ s.end_ > s.text then s.errorAt (s.end_ - 1) else some (p, s))
  if p < s.text then s.errorAt s.text else some (p, s)

/-! ## Words -/

/-- What `skip_thing` skips. -/
inductive Thing where
  | beforeWs
  | toWs
  | overWs
  | endPunct
  | endAlnum
  deriving DecidableEq, Repr

/-- `st_test`: the test, and the char tested. -/
def stTest (s : Buf) (p : Int) (type : Thing) (dir : Int) : Bool × UInt8 :=
  let c₀ := s.mem p
  let ci := s.mem (p + dir)
  match type with
  | .beforeWs => (!isspace ci || ci == NL, ci)
  | .toWs => (!isspace c₀ || c₀ == NL, c₀)
  | .overWs => (isspace c₀, c₀)
  | .endPunct => (ispunct ci, ci)
  | .endAlnum => (isalnum ci || ci == 95, ci)

/-- The loop of `skip_thing`. -/
def skipLoop (s : Buf) (dir : Int) (type : Thing) : Nat → Int → Int → Int
  | 0, p, _ => p
  | fuel + 1, p, linecnt =>
    let (test, c) := stTest s p type dir
    if !test then p
    else
      let linecnt := if c = NL then linecnt - 1 else linecnt
      if c = NL ∧ linecnt < 1 then p
      else if dir ≥ 0 ∧ p ≥ s.end_ - 1 then p
      else if dir < 0 ∧ p ≤ s.text then p
      else skipLoop s dir type fuel (p + dir) linecnt

/-- `skip_thing`. -/
def skipThing (s : Buf) (p linecnt dir : Int) (type : Thing) : Int :=
  let fuel := if dir ≥ 0 then s.end_ - p else p - s.text + 1
  skipLoop s dir type (fuel.toNat + 1) p linecnt

/-- `at_eof`: does `p` point to the end of file, even with no terminating newline? -/
def atEof (s : Buf) (p : Int) : Bool :=
  (p == s.end_ - 2 && s.mem (p + 1) == NL) || p == s.end_ - 1

/-! ## Counts typed before a motion -/

/-- The digit loop of `get_motion_char`. -/
def countDigits : Nat → Int → Int → Ed → Option (Int × Int × Ed)
  | 0, _, _, _ => none
  | fuel + 1, c, cnt, s =>
    if isdigit c then do
      let (c', s) ← s.getOneChar
      countDigits fuel c' (i32 (cnt * 10 + (c - 48))) s
    else some (c, cnt, s)

/-- `get_motion_char`: the type of thing to operate on, with the count adjusted. -/
def getMotionChar (s : Ed) : Option (Int × Ed) := do
  let (c, s) ← s.getOneChar
  if isdigit c then
    if c ≠ 48 then do
      let (c, cnt, s) ← countDigits (s.inputLeft + 2) c 0 s
      some (c, { s with cmdcnt := i32 ((if s.cmdcnt = 0 then 1 else s.cmdcnt) * cnt) })
    else
      -- ensure standalone '0' works
      some (c, { s with cmdcnt := 0 })
  else some (c, s)

/-- The loop of `get_input_line`. -/
def inputLoop : Nat → List UInt8 → Ed → Option (List UInt8 × Ed)
  | 0, _, _ => none
  | fuel + 1, buf, s =>
    if buf.length < MAX_INPUT_LEN - 1 then do
      let (c, s) ← s.getOneChar
      if c = 10 ∨ c = 13 ∨ c = 27 then some (buf, s)
      else if c = 8 ∨ c = 127 then
        let buf := buf.dropLast
        if buf = [] then some (buf, s) else inputLoop fuel buf s
      else if c > 0 ∧ c < 256 then inputLoop fuel (buf ++ [UInt8.ofInt c]) s
      else inputLoop fuel buf s
    else some (buf, s)

/-- `get_input_line`. -/
def getInputLine (s : Ed) (prompt : List UInt8) : Option (List UInt8 × Ed) := do
  let (buf, s) ← inputLoop (s.inputLeft + 1) prompt s
  some (buf, s.refresh)

end Evim.Ed
