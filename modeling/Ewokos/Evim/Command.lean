import Ewokos.Evim.Ex

/-!
# evim: normal mode

`do_cmd` of `bin/evim/vim_dcmd.c` with `visual_operate` and `find_range`.

* Each label of the `switch` has its own definition; `caseOf` is the jump.
* `find_range` runs a motion by calling `do_cmd` again.  The commands take that inner call as a
  parameter `motion`; `doCmd` closes the recursion, whose depth is two: `find_range` calls
  `do_cmd` for the keys of `rangeMotion` only, and their labels do not reach `find_range`.
* `goto dc_i` is `startInsert`, `goto dc5` is `startReplace`, `goto dc6` is `endCmdQ`, and
  `goto dc1` is the return to `epilogue`.
-/

set_option autoImplicit false

namespace Evim.Ed

open Cells Word
open CString hiding strchr

/-! ## Mode changes -/

/-- Label `dc_i`: start inserting. -/
def startInsert (s : Ed) : Ed := { s with cmdMode := .insert }.undoQueueCommit

/-- Label `dc5`: start replacing. -/
def startReplace (s : Ed) : Ed := { s with cmdMode := .replace }.undoQueueCommit

/-- A key that is a char to put into the text. -/
def isTyped (c : Int) : Bool := 1 ≤ c || isAsciionly c

/-- A key in replace mode, on a char of the line. -/
def replaceKey (s : Ed) (c : Int) : Option Ed :=
  if isTyped c then
    let s := if c ≠ 27 then s.yankDeleteDot s.dot s.dot .part true .allow else s
    s.charInsertDot c .chain
  else some s

/-- A key in insert mode. -/
def insertKey (s : Ed) (c : Int) : Option Ed :=
  if c = KEYCODE_INSERT then some s.startReplace
  else if isTyped c then s.charInsertDot c .queued
  else some s

/-! ## Shifting -/

/-- The loop of a left shift over the blanks of a line. -/
def unindentLoop (p : Int) : Nat → Undo → Ed → Undo × Int × Ed
  | 0, undo, s => (undo, p, s)
  | n + 1, undo, s =>
    if s.mem p = 32 then
      let (_, s) := s.textHoleDelete p p undo
      unindentLoop p n .chain s
    else (undo, p, s)

/-- Shift left: remove a tab or `tabstop` spaces. -/
def shiftLeft (s : Ed) (p : Int) (undo : Undo) : Ed :=
  if s.mem p = 9 then (s.textHoleDelete p p undo).2
  else if s.mem p = 32 then (unindentLoop p s.tabstop.toNat undo s).2.2
  else s

/-- Shift right: add a tab or `tabstop` spaces on a non-empty line. -/
def shiftRight (s : Ed) (p : Int) (undo : Undo) : Option (Int × Ed) :=
  if p ≠ s.endLine p then s.charInsert p 9 undo else some (p, s)

/-- The line loop of `<` and `>`. -/
def shiftLines (left : Bool) : Nat → Int → Undo → Ed → Option Ed
  | 0, _, _, s => some s
  | n + 1, p, undo, s => do
    let s ← (if left then some (s.shiftLeft p undo) else (s.shiftRight p undo).map (·.2))
    shiftLines left n (s.nextLine p) .chain s

/-- The loop of a left shift in visual mode: `p` follows the deletions. -/
def visualUnindent : Nat → Int → Undo → Ed → Int × Ed
  | 0, p, _, s => (p, s)
  | n + 1, p, undo, s =>
    if s.mem p = 32 then
      let (p, s) := s.textHoleDelete p p undo
      visualUnindent n p .chain s
    else (p, s)

/-- One line of a visual shift. -/
def visualShift (s : Ed) (left : Bool) (p : Int) (undo : Undo) : Option (Int × Ed) :=
  if left then
    if s.mem p = 9 then some (s.textHoleDelete p p undo)
    else if s.mem p = 32 then some (visualUnindent s.tabstop.toNat p undo s)
    else some (p, s)
  else s.shiftRight p undo

/-- The line loop of a visual shift. -/
def visualLines (left : Bool) : Nat → Int → Undo → Ed → Option Ed
  | 0, _, _, s => some s
  | n + 1, p, undo, s => do
    let (p, s) ← s.visualShift left p undo
    visualLines left n (s.nextLine p) .chain s

/-! ## Visual mode -/

/-- `is_visual_motion`: keys that keep the selection alive. -/
def isVisualMotion (c : Int) : Bool :=
  c == KEYCODE_UP || c == KEYCODE_DOWN || c == KEYCODE_LEFT || c == KEYCODE_RIGHT ||
    c == KEYCODE_HOME || c == KEYCODE_END || c == KEYCODE_PAGEUP || c == KEYCODE_PAGEDOWN ||
    c == 2 || c == 4 || c == 5 || c == 6 || c == 8 || c == 127 || c == 12 || c == 18 ||
    c == 21 || c == 25 ||
    (decide (c > 0) &&
      strchr (str "hjkl \r\n+-0$^%|wWbBeE" ++ [123, 125] ++ str "gGHLMfFtT;,/?nNz\"123456789") c)

/-- The string of a register. -/
def regText (s : Ed) (r : Nat) : List UInt8 :=
  match s.reg r with
  | none => []
  | some b => b.body

/-- `if (reg[YDreg] != savereg) yank_status(…)`. -/
def yankedStatus (s : Ed) (op : String) (savereg : Option Reg) : Ed :=
  if s.reg s.ydreg ≠ savereg then s.yankStatus op (s.regText s.ydreg) 1 else s

/-- `visual_operate` for `<` and `>`. -/
def visualShiftLines (s : Ed) (left : Bool) (lo hi : Int) : Option Ed := do
  let li := s.countLines s.text lo
  let nlines := s.countLines lo hi
  let s ← visualLines left nlines.toNat (s.beginLine lo) .allow s
  some { s with dot := s.findLine li }.dotSkipOverWs

/-- What `cc` leaves behind: one empty line. -/
def emptyLine (s : Ed) : Option Ed := do
  let s ← s.charInsertDot 10 .chain
  some (if s.dot ≠ s.end_ - 1 then s.dotPrev else s)

/-- `visual_operate` for the operators that yank. -/
def visualYank (s : Ed) (c lo hi : Int) : Option Ed := do
  let linewise : Bool := c = key 'X' ∨ c = key 'Y' ∨ c = key 'D' ∨ c = key 'C'
  let yf : Bool := !(c = key 'y' ∨ c = key 'Y')
  let buftype := if linewise then BufType.whole
    else if s.beginLine lo = s.beginLine hi then .part else .multi
  let savereg := s.reg s.ydreg
  let s := s.yankDeleteDot lo hi buftype yf .allow
  let s ← (if !linewise then some s
    else if c = key 'C' then s.emptyLine
    else some s.dotBegin.dotSkipOverWs)
  let s := s.yankedStatus (if yf then "Delete" else "Yank") savereg
  some (if c = key 'c' ∨ c = key 'C' then s.startInsert else s)

/-- `visual_operate`: apply an operator to the selection and leave visual mode. -/
def visualOperate (s : Ed) (c : Int) : Option Ed := do
  let anchor := s.viVisualAnchor.getD 0
  let (lo, hi) := if anchor > s.dot then (s.dot, anchor) else (anchor, s.dot)
  let lo := if lo < s.text then s.text else lo
  let hi := if hi > s.end_ - 1 then s.end_ - 1 else hi
  let s := { s with viVisual := false }
  let s ← (if c = key '>' ∨ c = key '<' then s.visualShiftLines (c = key '<') lo hi
    else s.visualYank c lo hi)
  some s.endCmdQ

/-! ## Ranges -/

/-- The loop of a word motion over trailing white space: `dot` and `t`. -/
def trailLoop (s : Buf) (p : Int) : Nat → Int → Int → Int × Int
  | 0, dot, t => (dot, t)
  | fuel + 1, dot, t =>
    if dot > p ∧ isspace (s.mem dot) then
      trailLoop s p fuel (dot - 1) (if s.mem dot = NL then dot - 1 else t)
    else (dot, t)

/-- The end of a `w` or `W` range. -/
def wordEnd (s : Ed) (p c cmd : Int) : Ed :=
  let dot := if s.dot > p ∧ (!atEof s.toBuf s.dot ∨ (c = key 'w' ∧ ispunct (s.mem s.dot))) then
    s.dot - 1 else s.dot
  let (d, t) := trailLoop s.toBuf p (dot - p).toNat dot dot
  -- for non-change operations WS after NL is not part of word
  { s with dot := if cmd ≠ key 'c' ∧ d ≠ t ∧ s.mem d ≠ NL then t else d }

/-- The type of the range and the motion that finds its other end.  `none` is an invalid range. -/
def rangeMotion (motion : Int → Ed → Option Ed) (s : Ed) (p c cmd : Int) :
    Option (Option BufType × Ed) :=
  if (cmd = key 'Y' ∨ cmd = c) ∧ strchr (str "cdy><") c then
    let s := { s with cmdcnt := s.cmdcnt - 1 }
    if s.cmdcnt > 0 then do
      let s ← motion (key 'j') s
      some (if s.cmdError then none else some .whole, s)
    else some (some .whole, s)
  else if strchr (str "^%$0bBeEfFtThnN/?|" ++ [123, 125, 8, 127]) c then do
    let s ← motion c s
    some (if p = s.dot then none else if strchr (str "nN/?") c then some .multi else some .part, s)
  else if strchr (str "wW") c then do
    let s ← motion c s
    some (some .multi, s.wordEnd p c cmd)
  else if strchr (str "GHL+-gjk'\r\n") c then do
    let s ← motion c s
    some (if s.cmdError then none else some .whole, s)
  else if c = 32 ∨ c = key 'l' then do
    let tmpcnt := if s.cmdcnt = 0 then 1 else s.cmdcnt
    let s ← motion c s
    -- exclude last char unless we've hit EOL
    some (some .part, if tmpcnt = s.dot - p then { s with dot := s.dot - 1 } else s)
  else some (none, s)

/-- The range between two positions: motions that exclude its end. -/
def rangeEnds (s : Buf) (c : Int) (buftype : BufType) (p q : Int) : BufType × Int × Int :=
  let (p, q) := if q < p then (q, p) else (p, q)
  if q > p then
    if strchr (str "^0bBFThnN/?|" ++ [8, 127]) c then (buftype, p, q - 1)
    else if strchr [123, 125] c then
      let buftype := if p = s.beginLine p ∧ (s.mem q = NL ∨ atEof s q) then .whole else .multi
      if !atEof s q then
        let q := q - 1
        (buftype, p, if q > p ∧ p ≠ s.beginLine p then q - 1 else q)
      else (buftype, p, q)
    else (buftype, p, q)
  else (buftype, p, q)

/-- `find_range`: the range of an operator.  `none` is the return value -1. -/
def findRange (motion : Int → Ed → Option Ed) (s : Ed) (cmd : Int) :
    Option (Option (BufType × Int × Int) × Ed) := do
  let p := s.dot
  let (c, s) ← (if cmd = key 'Y' then some (key 'y', s) else s.getMotionChar)
  let (buftype, s) ← s.rangeMotion motion p c cmd
  match buftype with
  | none => (if c ≠ 27 then s.indicateError else some s).map fun s => (none, s)
  | some buftype => some (some (rangeEnds s.toBuf c buftype p s.dot), s)

/-! ## Motions -/

/-- One round of `j`, `+`, `k` and `-` over the local `q`. -/
def lineRound (down : Bool) (q : Int) (s : Ed) : Option (Bool × Int × Ed) :=
  let p := if down then s.nextLine q else s.prevLine q
  if p = (if down then s.endLine q else s.beginLine q) then
    s.indicateError.map fun s => (false, q, s)
  else some (true, p, s)

/-- Lines down or up; `ws` for the keys that go to the first non-blank. -/
def moveLines (s : Ed) (down ws : Bool) : Option Ed := do
  let (found, q, s) ← cmdLoop (lineRound down) s.rounds s.dot s
  if !found then some s
  else
    let s := { s with dot := q }
    if ws then some s.dotSkipOverWs
    else
      let dot := match s.cindex with
        | none => s.endLine s.dot
        | some col => s.moveToCol s.dot col
      some { s with dot := dot, keepIndex := true }

/-- The loop of `$`. -/
def dollarLoop : Nat → Ed → Ed
  | 0, s => s
  | fuel + 1, s =>
    let s := { s with dot := s.endLine s.dot, cmdcnt := s.cmdcnt - 1 }
    if s.cmdcnt ≤ 0 then s else dollarLoop fuel s.dotNext

/-- `$`: go to end of line. -/
def dollar (s : Ed) : Ed :=
  let s := dollarLoop s.rounds s
  { s with cindex := none, keepIndex := true }

/-- The scan of `%` for the first half of a pair. -/
def braceLoop (s : Buf) : Nat → Int → Bool × Int
  | 0, q => (false, q)
  | fuel + 1, q =>
    if q < s.end_ ∧ s.mem q ≠ NL then
      if strchr (str "()[]" ++ [123, 125]) (s.mem q).toNat then (true, q)
      else braceLoop s fuel (q + 1)
    else (false, q)

/-- Go to the other half of the pair at `q`. -/
def jumpPair (s : Ed) (q : Int) : Option Ed :=
  match s.findPair q (s.mem q) with
  | none => s.indicateError
  | some p => some { s with dot := p }

/-- `%`: find matching char of pair. -/
def percent (s : Ed) : Option Ed := do
  let (found, q) := braceLoop s.toBuf (s.end_ - s.dot).toNat s.dot
  let s ← (if found then s.jumpPair q else some s)
  if s.mem q = NL then s.indicateError else some s

/-- The scan of a paragraph motion.  `false` when it runs to an end of the text. -/
def paragraphLoop (s : Buf) (down : Bool) : Nat → Bool → Int → Bool × Int
  | 0, _, dot => (false, dot)
  | fuel + 1, skip, dot =>
    let dir : Int := if down then 1 else -1
    if if down then dot < s.end_ - 1 else dot > s.text then
      if s.mem dot = NL ∧ s.mem (dot + dir) = NL then
        if !skip then (true, if down then dot + 1 else dot)
        else paragraphLoop s down fuel skip (dot + dir)
      else paragraphLoop s down fuel false (dot + dir)
    else (false, dot)

/-- One round of a paragraph motion. -/
def paragraphRound (down : Bool) (s : Ed) : Bool × Ed :=
  let fuel := if down then s.end_ - 1 - s.dot else s.dot - s.text
  let (found, dot) := paragraphLoop s.toBuf down (fuel.toNat + 1) true s.dot
  (found, { s with dot := dot })

/-- Paragraph motions. -/
def paragraph (s : Ed) (down : Bool) : Option Ed := do
  let (found, _, s) ← cmdLoop (fun _ s =>
    let (found, s) := paragraphRound down s
    some (found, (), s)) s.rounds () s
  some (if found then s else s.endCmdQ)

/-- A word motion over blank-delimited words: `B`, `E` and `W`. -/
def bigWord (c : Int) (s : Ed) : Ed :=
  let dir : Int := if c = key 'B' then -1 else 1
  let s := if c = key 'W' ∨ isspace (s.mem (s.dot + dir)) then
      let dot := skipThing s.toBuf s.dot 1 dir .toWs
      { s with dot := skipThing s.toBuf dot 2 dir .overWs }
    else s
  if c ≠ key 'W' then { s with dot := skipThing s.toBuf s.dot 1 dir .beforeWs } else s

/-- The word the cursor is on: skip it in direction `dir`. -/
def skipWord (s : Ed) (dir : Int) : Ed :=
  if isalnum (s.mem s.dot) ∨ s.mem s.dot = 95 then
    { s with dot := skipThing s.toBuf s.dot 1 dir .endAlnum }
  else if ispunct (s.mem s.dot) then { s with dot := skipThing s.toBuf s.dot 1 dir .endPunct }
  else s

/-- One round of `b` and `e`. -/
def wordRound (c : Int) (s : Ed) : Bool × Ed :=
  let dir : Int := if c = key 'b' then -1 else 1
  if s.dot + dir < s.text ∨ s.dot + dir > s.end_ - 1 then (false, s)
  else
    let s := { s with dot := s.dot + dir }
    let s := if isspace (s.mem s.dot) then
        { s with dot := skipThing s.toBuf s.dot (if c = key 'e' then 2 else 1) dir .overWs }
      else s
    (true, s.skipWord dir)

/-- `b` and `e`. -/
def smallWord (s : Ed) (c : Int) : Option Ed := do
  let (_, _, s) ← cmdLoop (fun _ s =>
    let (go, s) := wordRound c s
    some (go, (), s)) s.rounds () s
  some s

/-- One round of `w`. -/
def nextWord (s : Ed) : Ed :=
  let s := s.skipWord 1
  let s := if s.dot < s.end_ - 1 then { s with dot := s.dot + 1 } else s
  if isspace (s.mem s.dot) then { s with dot := skipThing s.toBuf s.dot 2 1 .overWs } else s

/-- The end of the line motions that go to the first non-blank. -/
def firstNonBlank (s : Ed) : Ed := s.dotBegin.dotSkipOverWs

/-- `H` and `L`: a line of the screen, counted from `start` by `step`. -/
def screenLine (s : Ed) (start : Int) (step : Ed → Ed) : Ed :=
  let s := { s with dot := start }
  -- the comparison with `rows` is one of unsigned numbers
  let most : Int := s.rows - 1
  let cnt := if s.cmdcnt < 0 ∨ s.cmdcnt > most then most else s.cmdcnt
  let s := step^[(cnt - 1).toNat] s
  { s with cmdcnt := min (cnt - 1) 0 }.firstNonBlank

/-- `G`. -/
def gotoLine (s : Ed) : Ed :=
  { s with dot := if s.cmdcnt > 0 then s.findLine s.cmdcnt else s.end_ - 1 }.firstNonBlank

/-- `g`: a second `g` goes to a line number. -/
def gotoLineKey (s : Ed) : Option Ed := do
  let (c₁, s) ← s.getOneChar
  if c₁ ≠ key 'g' then
    let c₁ := if c₁ ≥ 0 then UInt8.ofInt c₁ else chr '*'
    some { (s.notImplemented ([chr 'g', c₁].takeWhile (· != 0))) with cmdError := true }
  else some { s with cmdcnt := if s.cmdcnt = 0 then 1 else s.cmdcnt }.gotoLine

/-- `M`: the middle line of the screen. -/
def screenMiddle (s : Ed) : Ed :=
  { s with dot := s.nextLine^[(s.rows - 1) / 2] s.screenbegin }.dotSkipOverWs

/-- `z`. -/
def zCommand (s : Ed) : Option Ed := do
  let (c₁, s) ← s.getOneChar
  let cnt := if c₁ = key '.' then (s.rows - 2) / 2 else if c₁ = key '-' then s.rows - 2 else 0
  some ({ s with screenbegin := s.beginLine s.dot }.dotScroll cnt true)

/-! ## Searching -/

/-- One round of `n`, `N`, `/` and `?`. -/
def searchRound (forward : Bool) (s : Ed) : Ed :=
  let pat := s.lastSearchPattern.drop 1
  match s.charSearch (if forward then s.dot + 1 else s.dot - 1) pat forward true with
  | some q => { s with dot := q }
  | none =>
    match s.charSearch (if forward then s.text else s.end_ - 1) pat forward true with
    | some q =>
      { s with dot := q }.statusLineBold (str (if forward then
        "search hit BOTTOM, continuing at TOP" else "search hit TOP, continuing at BOTTOM"))
    | none => { s with cmdcnt := 0 }.statusLineBold (str "Pattern not found")

/-- Label `dc4`: search in a direction. -/
def searchIn (s : Ed) (forward : Bool) : Option Ed :=
  if s.lastSearchPattern.drop 1 = [] then some (s.statusLineBold (str "No previous search"))
  else s.times (searchRound forward)

/-- Whether the last pattern was searched forward. -/
def lastForward (s : Ed) : Bool := s.lastSearchPattern.headD 0 == chr '/'

/-- `/` and `?`. -/
def searchFor (s : Ed) (c : Int) : Option Ed := do
  let (q, s) ← s.getInputLine [UInt8.ofInt c]
  match q with
  | [] => some s
  | [_] =>
    let s := match s.lastSearchPattern with
      | [] => s
      | _ :: pat => { s with lastSearchPattern := UInt8.ofInt c :: pat }
    s.searchIn s.lastForward
  | q =>
    let s := { s with lastSearchPattern := q }
    s.searchIn s.lastForward

/-- `x ^ 0x20` of a search command. -/
def otherCase (c : Int) : Int := (c.toNat ^^^ 32 : Nat)

/-! ## Marks and registers -/

/-- `c | 0x20`. -/
def orSpace (c : Int) : Int := if c / 32 % 2 = 1 then c else c + 32

/-- A key that names a register or mark `a`-`z`. -/
def letterIndex (c : Int) : Option Nat :=
  let c₁ := orSpace c - 97
  if 0 ≤ c₁ ∧ c₁ ≤ 25 then some c₁.toNat else none

/-- `"`: name a register to use for Delete/Yank. -/
def nameRegister (s : Ed) : Option Ed := do
  let (c, s) ← s.getOneChar
  match letterIndex c with
  | some r => some { s with ydreg := r }
  | none => s.indicateError

/-- `m`: mark a line. -/
def setMark (s : Ed) : Option Ed := do
  let (c, s) ← s.getOneChar
  match letterIndex c with
  | some m => some { s with mark := Function.update s.mark m (some s.dot) }
  | none => s.indicateError

/-- `'`: go to a mark, or to the previous context.  Returns `orig_dot`. -/
def gotoMark (s : Ed) (origDot : Int) : Option (Int × Ed) := do
  let (c, s) ← s.getOneChar
  match letterIndex c with
  | some m =>
    match s.mark m with
    | some q =>
      if s.text ≤ q ∧ q < s.end_ then some (origDot, { s with dot := q }.firstNonBlank)
      else s.errorAt origDot
    | none => s.errorAt origDot
  | none =>
    if orSpace c = key '\'' then
      let (dot, s) := s.swapContext s.dot
      let s := { s with dot := dot }.firstNonBlank
      -- this doesn't update stored contexts
      some (s.dot, s)
    else s.errorAt origDot

/-! ## Commands that change the text -/

/-- The loop of `p` and `P`. -/
def putRound (p : List UInt8) (undo : Undo) (s : Ed) : Option (Bool × Undo × Ed) :=
  some (true, .chain, (s.stringInsert s.dot p undo).2)

/-- Where `p` and `P` put a register, and how far the cursor moves over it. -/
def putPlace (s : Ed) (after : Bool) (p : List UInt8) : Int × Ed :=
  let i := if s.cmdcnt = 0 then 1 else s.cmdcnt
  if s.regtype s.ydreg = .whole then
    if !after then (0, s.dotBegin)
    else if s.endLine s.dot = s.end_ - 1 then (0, { s with dot := s.end_ })
    else (0, s.dotNext)
  else
    let s := if after then s.dotRight else s
    (if p.contains NL then 0 else i * p.length - 1, s)

/-- `p` and `P`: put a register. -/
def put (s : Ed) (after : Bool) : Option Ed :=
  match s.reg s.ydreg with
  | none => some (s.statusLineBold (str "Nothing in register " ++ [s.whatReg]))
  | some b => do
    let i := if s.cmdcnt = 0 then 1 else s.cmdcnt
    let (cnt, s) := s.putPlace after b.body
    let (_, _, s) ← cmdLoop (putRound b.body) s.rounds .allow s
    let s := { s with dot := s.dot + cnt }.dotSkipOverWs
    some (s.yankStatus "Put" b.body i).endCmdQ

/-- `U`: replace the current line with its original version. -/
def restoreLine (s : Ed) : Ed :=
  match s.reg Ureg with
  | none => s
  | some b =>
    let (p, s) := s.textHoleDelete (s.beginLine s.dot) (s.endLine s.dot) .allow
    let (bias, s) := s.stringInsert p b.body .chain
    let s := { s with dot := p + bias }.dotSkipOverWs
    s.yankStatus "Undo" b.body 1

/-- `.`: repeat the last modifying command. -/
def repeatLast (s : Ed) : Ed :=
  if s.lastModifyingCmd = [] then s
  else
    let s := if s.cmdcnt ≠ 0 then { s with dotcnt := s.cmdcnt } else s
    { s with
      ioq := some (dec (s.dotcnt % 4294967296) ++ s.lastModifyingCmd.takeWhile (· != 0)) }

/-- `<` and `>`. -/
def shift (motion : Int → Ed → Option Ed) (s : Ed) (c : Int) : Option Ed := do
  let cnt := s.countLines s.text s.dot
  let (range, s) ← s.findRange motion c
  match range with
  | none => some s.endCmdQ
  | some (_, p, q) => do
    let s ← shiftLines (c = key '<') (s.countLines p q).toNat (s.beginLine p) .allow s
    some { s with dot := s.findLine cnt }.dotSkipOverWs.endCmdQ

/-- `A` and `a`. -/
def append (s : Ed) (toEnd : Bool) : Ed :=
  let s := if toEnd then s.dotEnd else s
  (if s.mem s.dot ≠ NL then { s with dot := s.dot + 1 } else s).startInsert

/-- `C` and `D`. -/
def deleteToEol (s : Ed) (change : Bool) : Ed :=
  let s := s.yankDeleteDot s.dot (s.dollarLine s.dot) .part true .allow
  if change then s.startInsert else s.endCmdQ

/-- The loop of `J` over leading white space.  On bytes behind the end it never stops. -/
def joinBlanks : Nat → Ed → Option Ed
  | 0, s => if isblank (s.mem s.dot) then none else some s
  | fuel + 1, s =>
    if isblank (s.mem s.dot) then joinBlanks fuel (s.textHoleDelete s.dot s.dot .chain).2 else some s

/-- One round of `J`. -/
def joinRound (s : Ed) : Option Ed :=
  let s := s.dotEnd
  if s.dot < s.end_ - 1 then
    let s := s.undoPush s.dot 1 .del
    let s := { s with mem := store s.mem s.dot 32, dot := s.dot + 1 }
    let s := s.undoPush (s.dot - 1) 1 .insChain
    joinBlanks (s.end_ - s.dot).toNat s
  else some s

/-- `J`: join current and next lines together. -/
def join (s : Ed) : Option Ed := do
  let (_, _, s) ← cmdLoop (fun _ s => do
    let s ← s.joinRound
    some (true, (), s)) s.rounds () s
  some s.endCmdQ

/-- `O` and `o`: open an empty line. -/
def openLine (s : Ed) (above : Bool) : Option Ed := do
  let s := if above then { s.dotBegin with indentcol := -1 } else s.dotEnd
  let s ← s.charInsertDot 10 .allow
  let s := if above ∧ !s.autoindent then s.dotPrev else s
  some s.startInsert

/-- One round of `X`, `x` and `s`. -/
def deleteRound (before : Bool) (undo : Undo) (s : Ed) : Undo × Ed :=
  if s.mem (if before then s.dot - 1 else s.dot) ≠ NL then
    let s := if before then { s with dot := s.dot - 1 } else s
    (.chain, s.yankDeleteDot s.dot s.dot .part true undo)
  else (undo, s)

/-- `X`, `x` and `s`: delete chars. -/
def deleteChars (s : Ed) (before : Bool) : Option Ed := do
  let (_, _, s) ← cmdLoop (fun undo s =>
    let (undo, s) := deleteRound before undo s
    some (true, undo, s)) s.rounds .allow s
  some s.endCmdQ

/-- The write of `ZZ`, if the buffer is modified. -/
def saveBeforeExit (s : Ed) : Ed :=
  if s.modifiedCount ≠ 0 then
    let (cnt, s) := s.fileWrite s.currentFilename s.text (s.end_ - 1)
    if cnt < 0 then
      if cnt = -1 then
        let (e, s) := s.ask (·.errno)
        s.statusLineBold (str "Write error: " ++ e)
      else s
    else if cnt = s.end_ - 1 - s.text + 1 then { s with editing := 0 }
    else s
  else { s with editing := 0 }

/-- `ZZ`: write if modified, and exit. -/
def writeAndExit (s : Ed) : Option Ed := do
  let (c₁, s) ← s.getOneChar
  if c₁ ≠ key 'Z' then s.indicateError
  else
    let s := s.saveBeforeExit
    let j := s.argc - s.viOptind - 1
    some (if s.editing = 0 ∧ j > 0 then
      { s with editing := 1, modifiedCount := 0 }.statusLineBold
        (dec j ++ str " more file(s) to edit")
    else s)

/-- `c`, `d`, `y` and `Y`. -/
def operate (motion : Int → Ed → Option Ed) (s : Ed) (c : Int) : Option Ed := do
  let yf : Bool := !(c = key 'y' ∨ c = key 'Y')
  let savereg := s.reg s.ydreg
  let (range, s) ← s.findRange motion c
  match range with
  | none => some s.endCmdQ
  | some (buftype, p, q) => do
    let saveDot := p
    let p := if buftype = .whole then s.beginLine p else p
    let q := if buftype = .whole then s.endLine q else q
    let s := s.yankDeleteDot p q buftype yf .allow
    let s ← (if buftype ≠ .whole then some s
      else if c = key 'c' then s.emptyLine
      else if c = key 'd' then some s.firstNonBlank
      else some { s with dot := saveDot })
    if c = key 'c' then some s.startInsert
    else
      some (s.yankedStatus (if c = key 'd' then "Delete" else "Yank") savereg).endCmdQ

/-- One round of `r`. -/
def replaceRound (c₁ : Int) (undo : Undo) (s : Ed) : Option (Bool × Undo × Ed) := do
  let (dot, s) := s.textHoleDelete s.dot s.dot undo
  let s ← { s with dot := dot }.charInsertDot c₁ .chain
  some (true, .chain, s)

/-- `r`: replace chars with user input. -/
def replaceChars (s : Ed) : Option Ed := do
  let (c₁, s) ← s.getOneChar
  if c₁ = 27 then some s.endCmdQ
  else if s.endLine s.dot - s.dot < (if s.cmdcnt = 0 then 1 else s.cmdcnt) then
    s.indicateError.map endCmdQ
  else do
    let (_, _, s) ← cmdLoop (replaceRound c₁) s.rounds .allow s
    some s.dotLeft.endCmdQ

/-- One round of `~`. -/
def flipRound (undo : UndoType) (s : Ed) : UndoType × Ed :=
  let c := s.mem s.dot
  if isalpha c then
    let s := s.undoPush s.dot 1 undo
    let s := { s with mem := store s.mem s.dot (if islower c.toNat then toupper c else tolower c) }
    (.delChain, (s.undoPush s.dot 1 .insChain).dotRight)
  else (undo, s.dotRight)

/-- `~`: flip the case of letters. -/
def flipCase (s : Ed) : Option Ed := do
  let (_, _, s) ← cmdLoop (fun undo s =>
    let (undo, s) := flipRound undo s
    some (true, undo, s)) s.rounds .del s
  some s.endCmdQ

/-! ## The switch -/

/-- The labels of the `switch` of `do_cmd`. -/
inductive Label where
  | unknown | nul | pageUp | halfDown | lineDown | pageDown | status | left | down | downWs
  | redraw | halfUp | lineUp | escape | right | register | gotoMark | mark | put (after : Bool)
  | restoreLine | undo | visual | dollar | percent | findChar | findNext | dot | prevMatch
  | search | nextMatch | paragraph (down : Bool) | digit | colon | shift | append (toEnd : Bool)
  | bigWord | deleteToEol (change : Bool) | gotoKey | gotoLine | screenTop | insertFirst | insert
  | join | screenBottom | screenMiddle | openLine (above : Bool) | replace | delete
  | deleteChars (before : Bool) | substitute | exit | firstNonBlank | smallWord | operate
  | up | upWs | replaceChars | nextWord | z | column | flipCase | home
  deriving DecidableEq, Repr

/-- The keys of each label. -/
def labels : List (List Int × Label) := [
  ([0], .nul),
  ([2, KEYCODE_PAGEUP], .pageUp),
  ([4], .halfDown),
  ([5], .lineDown),
  ([6, KEYCODE_PAGEDOWN], .pageDown),
  ([7], .status),
  ([key 'h', KEYCODE_LEFT, 8, 127], .left),
  ([10, key 'j', KEYCODE_DOWN], .down),
  ([13, key '+'], .downWs),
  ([12, 18], .redraw),
  ([21], .halfUp),
  ([25], .lineUp),
  ([27], .escape),
  ([32, key 'l', KEYCODE_RIGHT], .right),
  ([key '"'], .register),
  ([key '\''], .gotoMark),
  ([key 'm'], .mark),
  ([key 'P'], .put false),
  ([key 'p'], .put true),
  ([key 'U'], .restoreLine),
  ([key 'u'], .undo),
  ([key 'v'], .visual),
  ([key '$', KEYCODE_END], .dollar),
  ([key '%'], .percent),
  ([key 'f', key 'F', key 't', key 'T'], .findChar),
  ([key ';', key ','], .findNext),
  ([key '.'], .dot),
  ([key 'N'], .prevMatch),
  ([key '?', key '/'], .search),
  ([key 'n'], .nextMatch),
  ([123], .paragraph false),
  ([125], .paragraph true),
  ([48, 49, 50, 51, 52, 53, 54, 55, 56, 57], .digit),
  ([key ':'], .colon),
  ([key '<', key '>'], .shift),
  ([key 'A'], .append true),
  ([key 'a'], .append false),
  ([key 'B', key 'E', key 'W'], .bigWord),
  ([key 'C'], .deleteToEol true),
  ([key 'D'], .deleteToEol false),
  ([key 'g'], .gotoKey),
  ([key 'G'], .gotoLine),
  ([key 'H'], .screenTop),
  ([key 'I'], .insertFirst),
  ([key 'i', KEYCODE_INSERT], .insert),
  ([key 'J'], .join),
  ([key 'L'], .screenBottom),
  ([key 'M'], .screenMiddle),
  ([key 'O'], .openLine true),
  ([key 'o'], .openLine false),
  ([key 'R'], .replace),
  ([KEYCODE_DELETE], .delete),
  ([key 'X'], .deleteChars true),
  ([key 'x'], .deleteChars false),
  ([key 's'], .substitute),
  ([key 'Z'], .exit),
  ([key '^'], .firstNonBlank),
  ([key 'b', key 'e'], .smallWord),
  ([key 'c', key 'd', key 'y', key 'Y'], .operate),
  ([key 'k', KEYCODE_UP], .up),
  ([key '-'], .upWs),
  ([key 'r'], .replaceChars),
  ([key 'w'], .nextWord),
  ([key 'z'], .z),
  ([key '|'], .column),
  ([key '~'], .flipCase),
  ([KEYCODE_HOME], .home)]

/-- The jump of the `switch`. -/
def caseOf (c : Int) : Label :=
  match labels.find? fun l => l.1.contains c with
  | some l => l.2
  | none => .unknown

/-- The cases that only read the text: motions, scrolling, marks, searches and registers. -/
def look (s : Ed) (c : Int) : Label → Option Ed
  | .unknown => some (s.notImplemented ([UInt8.ofInt c].takeWhile (· != 0))).endCmdQ
  | .pageUp => some (s.dotScroll (s.rows - 2) true)
  | .halfDown => some (s.dotScroll ((s.rows - 2) / 2) false)
  | .lineDown => some (s.dotScroll 1 false)
  | .pageDown => some (s.dotScroll (s.rows - 2) false)
  | .halfUp => some (s.dotScroll ((s.rows - 2) / 2) true)
  | .lineUp => some (s.dotScroll 1 true)
  | .left => s.times dotLeft
  | .right => s.times dotRight
  | .down => s.moveLines true false
  | .downWs => s.moveLines true true
  | .up => s.moveLines false false
  | .upWs => s.moveLines false true
  | .redraw => s.redraw
  | .register => s.nameRegister
  | .mark => s.setMark
  | .visual => some { s with viVisual := true, viVisualAnchor := some s.dot }
  | .dollar => some s.dollar
  | .percent => s.percent
  | .findChar => do
    let (c₁, s) ← s.getOneChar
    { s with lastSearchChar := c₁, lastSearchCmd := c }.dotToChar c
  | .findNext => s.dotToChar (if c ≠ key ',' then s.lastSearchCmd else otherCase s.lastSearchCmd)
  | .dot => some s.repeatLast
  | .prevMatch => s.searchIn !s.lastForward
  | .search => s.searchFor c
  | .nextMatch => s.searchIn s.lastForward
  | .paragraph down => s.paragraph down
  | .digit =>
    if c = 48 ∧ s.cmdcnt < 1 then some s.dotBegin
    else some { s with cmdcnt := i32 (s.cmdcnt * 10 + (c - 48)) }
  | .bigWord => s.times (bigWord c)
  | .gotoKey => s.gotoLineKey
  | .gotoLine => some s.gotoLine
  | .screenTop => some (s.screenLine s.screenbegin dotNext)
  | .screenBottom => some (s.screenLine s.endScreen dotPrev)
  | .screenMiddle => some s.screenMiddle
  | .firstNonBlank => some s.firstNonBlank
  | .smallWord => s.smallWord c
  | .nextWord => s.times nextWord
  | .z => s.zCommand
  | .column => some { s with dot := s.moveToCol s.dot (s.cmdcnt - 1) }
  | .home => some s.dotBegin
  | _ => some s

/-- The cases of the `switch`, except `'`. -/
def command (motion : Int → Ed → Option Ed) (s : Ed) (c : Int) : Label → Option Ed
  | .escape => do
    let s ← (if s.cmdMode = .command then s.indicateError else some s)
    some { s with cmdMode := .command }.undoQueueCommit.endCmdQ
  | .put after => s.put after
  | .restoreLine => some s.restoreLine
  | .undo => some s.undoPop
  | .colon => do
    let (p, s) ← s.getInputLine (str ":")
    let s ← s.colon p
    s.showStatusLine
  | .shift => s.shift motion c
  | .append toEnd => some (s.append toEnd)
  | .deleteToEol change => some (s.deleteToEol change)
  | .insertFirst => some s.firstNonBlank.startInsert
  | .insert => some s.startInsert
  | .join => s.join
  | .openLine above => s.openLine above
  | .replace => some s.startReplace
  | .delete =>
    some (if s.dot < s.end_ - 1 then s.yankDeleteDot s.dot s.dot .part true .allow else s)
  | .deleteChars before => s.deleteChars before
  | .substitute => (s.deleteChars false).map startInsert
  | .exit => s.writeAndExit
  | .operate => s.operate motion c
  | .replaceChars => s.replaceChars
  | .flipCase => s.flipCase
  | l => s.look c l

/-- The `switch`.  Returns `orig_dot`. -/
def switch (motion : Int → Ed → Option Ed) (s : Ed) (c origDot : Int) : Option (Int × Ed) :=
  match caseOf c with
  | .gotoMark => s.gotoMark origDot
  | l => (s.command motion c l).map fun s => (origDot, s)

/-! ## `do_cmd` -/

/-- Keys that skip the insert and replace modes. -/
def isCursorKey (c : Int) : Bool :=
  c == KEYCODE_UP || c == KEYCODE_DOWN || c == KEYCODE_LEFT || c == KEYCODE_RIGHT ||
    c == KEYCODE_HOME || c == KEYCODE_END || c == KEYCODE_PAGEUP || c == KEYCODE_PAGEDOWN ||
    c == KEYCODE_DELETE

/-- Label `key_cmd_mode`: the visual selection, then the `switch`. -/
def keyCommand (motion : Int → Ed → Option Ed) (s : Ed) (c origDot : Int) : Option (Int × Ed) :=
  if s.viVisual ∧ s.cmdMode = .command then
    if c = 27 ∨ c = key 'v' then some (origDot, { s with viVisual := false }.endCmdQ)
    else if c = KEYCODE_DELETE ∨ (c > 0 ∧ strchr (str "yYdDxXcC><") c) then
      (s.visualOperate c).map fun s => (origDot, s)
    else if !isVisualMotion c then { s with viVisual := false }.switch motion c origDot
    else s.switch motion c origDot
  else s.switch motion c origDot

/-- The part of `do_cmd` before label `dc1`.  Returns `orig_dot`. -/
def dispatch (motion : Int → Ed → Option Ed) (s : Ed) (c origDot : Int) : Option (Int × Ed) :=
  if isCursorKey c then s.keyCommand motion c origDot
  else match s.cmdMode with
    | .replace =>
      if c = KEYCODE_INSERT then some (origDot, s.startInsert)
      else if s.mem s.dot = NL then
        (s.startInsert.insertKey c).map fun s => (origDot, s)
      else (s.replaceKey c).map fun s => (origDot, s)
    | .insert => (s.insertKey c).map fun s => (origDot, s)
    | .command => s.keyCommand motion c origDot

/-- If `text[]` just became empty, add back an empty line. -/
def refill (s : Ed) : Option Ed :=
  if s.end_ = s.text then
    (s.charInsert s.text NL .no).map fun (_, s) => { s with dot := s.text }
  else some s

/-- Update the stored contexts; a cmd that was not a number resets `cmdcnt`. -/
def settle (s : Ed) (c origDot : Int) : Ed :=
  let s := if s.dot ≠ origDot then s.checkContext c else s
  if !isdigit c then { s with cmdcnt := 0 } else s

/-- Try to stay off of the Newline. -/
def offNewline (s : Ed) : Ed :=
  if s.mem s.dot = NL ∧ s.dot - s.beginLine s.dot > 0 ∧ s.cmdMode = .command then
    { s with dot := s.dot - 1 }
  else s

/-- Label `dc1` of `do_cmd`. -/
def epilogue (s : Ed) (c origDot : Int) : Option Ed := do
  let s ← s.refill
  -- it is OK for dot to exactly equal to end, otherwise check dot validity
  let s ← (if s.dot ≠ s.end_ then s.boundHere else some s)
  some (s.settle c origDot).offNewline

/-- `do_cmd`, with the `do_cmd` that `find_range` calls. -/
def doCmdWith (motion : Int → Ed → Option Ed) (c : Int) (s : Ed) : Option Ed := do
  let s' ← { s with keepIndex := false, cmdError := false }.showStatusLine
  let (origDot, s') ← s'.dispatch motion c s.dot
  s'.epilogue c origDot

/-- `do_cmd`. -/
def doCmd (c : Int) (s : Ed) : Option Ed := doCmdWith (doCmdWith fun _ _ => none) c s

end Evim.Ed
