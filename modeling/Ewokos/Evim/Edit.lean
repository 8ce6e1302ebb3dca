import Ewokos.Evim.Undo

/-!
# evim: registers, typed characters and files

The rest of `bin/evim/vim_text.c`: registers and contexts, the `.` recording, `yank_delete`,
`char_insert` with its branches, searching, and what moves text between the buffer and files.

* A function that may have to wait for a key (`indicate_error` may flash, which redraws)
  returns an `Option`, `none` when the keys are used up.
* `textYank` drops the pointer that `text_yank` returns: no caller reads it.
-/

set_option autoImplicit false

namespace Evim

open Cells
open CString hiding strchr

namespace Ed

/-! ## Registers and contexts -/

/-- `text_yank`: copy a span into a register. -/
def textYank (s : Ed) (p q : Int) (dest : Nat) (buftype : BufType) : Ed :=
  let (p, cnt) := if q - p < 0 then (q, p - q) else (p, q - p)
  -- strndup stops at a NUL
  let body := (slice s.mem p (cnt + 1).toNat).takeWhile (· != 0)
  { s with
    reg := Function.update s.reg dest (some ⟨body, s.regSerial⟩)
    regtype := Function.update s.regtype dest buftype
    regSerial := s.regSerial + 1 }

/-- `what_reg`. -/
def whatReg (s : Ed) : UInt8 :=
  if s.ydreg ≤ 25 then UInt8.ofNat (97 + s.ydreg) else if s.ydreg = 27 then chr 'U' else chr 'D'

/-- `check_context`: certain movement commands update the context. -/
def checkContext (s : Ed) (cmd : Int) : Ed :=
  if strchr (str ":%{}'GHLMz/?Nn") cmd then
    { s with mark := Function.update (Function.update s.mark 27 (s.mark 26)) 26 (some s.dot) }
  else s

/-- `swap_context`: go to the previous context, if it is valid. -/
def swapContext (s : Ed) (p : Int) : Int × Ed :=
  match s.mark 27 with
  | none => (p, s)
  | some m =>
    if s.text ≤ m ∧ m ≤ s.end_ - 1 then
      (m, { s with mark := Function.update (Function.update s.mark 27 (some p)) 26 (some m) })
    else (p, s)

/-- `yank_status`. -/
def yankStatus (s : Ed) (op : String) (p : List UInt8) (cnt : Int) : Ed :=
  s.statusLine (str op ++ str " " ++ dec ((p.filter (· == NL)).length * cnt) ++ str " lines (" ++
    dec (p.length * cnt) ++ str " chars) from [" ++ [s.whatReg] ++ str "]")

/-- `flush_undo_data`. -/
def flushUndoData (s : Ed) : Ed := { s with undoStack := [] }

/-- `yank_delete`: copy text into a register, then delete it when `yf` is `YANKDEL`. -/
def yankDelete (s : Ed) (start stop : Int) (buftype : BufType) (yf : Bool) (undo : Undo) :
    Int × Ed :=
  let (start, stop) := if start > stop then (stop, start) else (start, stop)
  if buftype = .part ∧ s.mem start = NL then (start, s)
  else
    let s := s.textYank start stop s.ydreg buftype
    if yf then s.textHoleDelete start stop undo else (start, s)

/-- `dot = yank_delete(start, stop, …)`. -/
def yankDeleteDot (s : Ed) (start stop : Int) (buftype : BufType) (yf : Bool) (undo : Undo) : Ed :=
  let (dot, s) := s.yankDelete start stop buftype yf undo
  { s with dot := dot }

/-! ## The `.` recording -/

/-- `start_new_cmd_q`. -/
def startNewCmdQ (s : Ed) (c : Int) : Ed :=
  { s with
    dotcnt := if s.cmdcnt = 0 then 1 else s.cmdcnt
    lastModifyingCmd := [UInt8.ofInt c]
    adding2q := true }

/-- `end_cmd_q`. -/
def endCmdQ (s : Ed) : Ed := { s with ydreg := 26, adding2q := false }

/-! ## Pairs -/

/-- The loop of `find_pair`. -/
def pairLoop (s : Ed) (c m : UInt8) (dir : Int) : Nat → Int → Nat → Option Int
  | 0, _, _ => none
  | fuel + 1, p, level =>
    let p := p + dir
    if p < s.text ∨ p ≥ s.end_ then none
    else
      let level := if s.mem p = c then level + 1 else level
      if s.mem p = m then
        if level - 1 = 0 then some p else pairLoop s c m dir fuel p (level - 1)
      else pairLoop s c m dir fuel p level

/-- `find_pair`: the matching char of a pair `()`, `[]`, `{}`. -/
def findPair (s : Ed) (p : Int) (c : UInt8) : Option Int :=
  let braces := str "()[]" ++ [123, 125]
  let i := (braces.findIdx? (· == c)).getD braces.length ^^^ 1
  let dir : Int := if i % 2 = 1 then 1 else -1
  let fuel := if dir = 1 then s.end_ - p else p - s.text + 1
  s.pairLoop c (braces.getD i 0) dir fuel.toNat p 1

/-- `showmatching`: visit the matching char and come back. -/
def showmatching (s : Ed) (p : Int) : Option Ed :=
  match s.findPair p (s.mem p) with
  | none => s.indicateError
  | some q =>
    let saveDot := s.dot
    let s := { s with dot := q }.refresh
    some { s with dot := saveDot }.refresh

/-! ## Typed characters -/

/-- `stupid_insert`: insert the char `c` at `p`, unrecorded.  Returns `bias`. -/
def stupidInsert (s : Ed) (p : Int) (c : UInt8) : Int × Ed :=
  let (bias, s) := s.textHoleMake p 1
  (bias, { s with mem := store s.mem (p + bias) c })

/-- `char_insert` of ctrl-V: the next key is taken literally. -/
def insertLiteral (s : Ed) (p : Int) (undo : Undo) : Option (Int × Ed) := do
  -- use ^ to indicate literal next
  let (bias, s) := s.stupidInsert p (chr '^')
  let p := p + bias
  let s := s.refresh
  let (c, s) ← s.getOneChar
  let s := { s with mem := store s.mem p (UInt8.ofInt c) }
  let s := s.undoPushInsert p 1 undo
  some (p + 1, s)

/-- `char_insert` of ESC: back to command mode. -/
def stopInsert (s : Ed) (bol p : Int) (undo : Undo) : Int × Ed :=
  let s := { s with cmdMode := .command }.undoQueueCommit
  let s := { s with cmdcnt := 0 }.endCmdQ
  let p := if s.dot > s.text ∧ s.mem (p - 1) ≠ NL then p - 1 else p
  let len := s.indentLen bol
  if s.autoindent ∧ len ≠ 0 ∧ s.getColumn (bol + len) = s.indentcol ∧ s.mem (bol + len) = NL then
    (bol, (s.textHoleDelete bol (bol + len - 1) undo).2)
  else (p, s)

/-- The loop of ctrl-D: positions `p` and `r` move down together with the indentation. -/
def outdentLoop (bol prev : Int) : Nat → Ed → Int → Int → (Int × Int) × Ed
  | 0, s, p, r => ((p, r), s)
  | fuel + 1, s, p, r =>
    if r > bol ∧ s.getColumn r > prev then
      let p := if p > bol then p - 1 else p
      let (r, s) := s.textHoleDelete (r - 1) (r - 1) .queued
      outdentLoop bol prev fuel s p r
    else ((p, r), s)

/-- `char_insert` of ctrl-D: reduce the indentation. -/
def outdent (s : Ed) (bol p : Int) : Int × Ed :=
  let r := bol + s.indentLen bol
  let prev := s.prevTabstop (s.getColumn r)
  let ((p, r), s) := outdentLoop bol prev (r - bol).toNat s p r
  if s.autoindent ∧ s.indentcol ≠ 0 ∧ r = s.endLine p then
    (p, { s with indentcol := s.getColumn p })
  else (p, { s with indentcol := 0 })

/-- The loop of an expanded tab: `col` blanks, each recorded on its own. -/
def expandLoop (undo : Undo) : Nat → Ed → Int → Int × Ed
  | 0, s, p => (p, s)
  | col + 1, s, p =>
    let s := s.undoPushInsert p 1 undo
    let (bias, s) := s.stupidInsert p 32
    expandLoop undo col s (p + 1 + bias)

/-- `char_insert` of a tab with `expandtab`. -/
def expandTab (s : Ed) (p : Int) (undo : Undo) : Int × Ed :=
  let col := s.getColumn p
  expandLoop undo (s.nextTabstop col - col + 1).toNat s p

/-- `char_insert` of a backspace. -/
def eraseChar (s : Ed) (p : Int) : Int × Ed :=
  if p > s.text then s.textHoleDelete (p - 1) (p - 1) .queued else (p, s)

/-- Insert `ntab` tabs and `nspc` spaces at `p`. -/
def indentWith (s : Ed) (p ntab nspc : Int) (undo : Undo) : Int × Ed :=
  let (bias, s) := s.textHoleMake p (ntab + nspc)
  let p := p + bias
  let s := s.undoPushInsert p (ntab + nspc).toNat undo
  (p + ntab + nspc, { s with mem := memset (memset s.mem p 9 ntab) (p + ntab) 32 nspc })

/-- The autoindent of `char_insert` behind a fresh newline, `p` being the char after it. -/
def autoIndent (s : Ed) (p : Int) (undo : Undo) : Int × Ed :=
  let bol := if s.indentcol < 0 then p else s.prevLine p
  let len := s.indentLen bol
  let col := s.getColumn (bol + len)
  if len ≠ 0 ∧ col = s.indentcol then
    -- previous line was empty except for autoindent: move the indent to the current line
    (p, { s with mem := store (memmove s.mem (bol + 1) bol len) bol NL })
  else
    -- open above, indent before newly inserted NL
    let p := if s.indentcol < 0 then p - 1 else p
    if len ≠ 0 then
      let ntab := if s.expandtab then 0 else col / s.tabstop
      let nspc := if s.expandtab then col else col % s.tabstop
      { s with indentcol := col }.indentWith p ntab nspc undo
    else (p, { s with indentcol := 0 })

/-- The last branch of `char_insert`: insert the char itself. -/
def insertPlain (s : Ed) (p : Int) (c : UInt8) (undo : Undo) : Option (Int × Ed) := do
  let c := if c = 13 then NL else c
  let s := if c = NL then s.undoQueueCommit else s
  let (bias, s) := s.stupidInsert p c
  let p := p + 1 + bias
  let s ← (if s.showmatch ∧ strchr (str ")]" ++ [125]) c.toNat then s.showmatching (p - 1)
    else some s)
  if s.autoindent ∧ c = NL then some (s.autoIndent p undo)
  else some (p, { s with indentcol := 0 })

/-- A branch of `char_insert` that runs to its end. -/
def leaveIndent (r : Int × Ed) : Int × Ed := (r.1, { r.2 with indentcol := 0 })

/-- `char_insert`: insert the char `c` at `p`.  Returns where the next char goes. -/
def charInsert (s : Ed) (p : Int) (c : UInt8) (undo : Undo) : Option (Int × Ed) :=
  let bol := s.beginLine p
  if c = 22 then (s.insertLiteral p undo).map leaveIndent
  else if c = 27 then some (leaveIndent (s.stopInsert bol p undo))
  else if c = 4 then some (s.outdent bol p)
  else if c = 9 ∧ s.expandtab then some (leaveIndent (s.expandTab p undo))
  else if c = 8 ∨ c = 127 then some (leaveIndent (s.eraseChar p))
  else s.insertPlain p c undo

/-- `dot = char_insert(dot, c, undo)`. -/
def charInsertDot (s : Ed) (c : Int) (undo : Undo) : Option Ed := do
  let (dot, s) ← s.charInsert s.dot (UInt8.ofInt c) undo
  some { s with dot := dot }

/-! ## Files -/

/-- `init_filename`. -/
def initFilename (s : Ed) (fn : List UInt8) : Ed :=
  match s.currentFilename with
  | none => { s with currentFilename := some fn }
  | some _ => s

/-- `update_filename`. -/
def updateFilename (s : Ed) (fn : Option (List UInt8)) : Ed :=
  match fn with
  | none => s
  | some fn => { s with currentFilename := some fn }

/-- The failure exits of `file_insert` before anything is read. -/
def noFile (s : Ed) (fn : List UInt8) (initial : Bool) : Int × Ed :=
  (-1, if initial then s else s.statusLineBoldErrno fn)

/-- The second half of `file_insert`: open the file and read it into a hole of `size` at `p`. -/
def readInto (s : Ed) (fn : List UInt8) (p size : Int) (initial : Bool) : Int × Ed :=
  let (fd, s) := s.ask (·.opened)
  if !fd then s.noFile fn initial
  else
    -- read answers at most `size` bytes
    let ((cnt, content), s) := s.ask fun e t => (min (e.count t) size, e.content t)
    let s := { s with mem := memcpy s.mem p ((List.range cnt.toNat).map content) }
    if cnt < 0 then
      (cnt, ((s.statusLineBoldErrno fn).textHoleDelete p (p + size - 1) .no).2)
    else if cnt < size then
      let s := (s.textHoleDelete (p + cnt) (p + size - 1) .no).2
      (cnt, s.statusLineBold (str "can't read '" ++ fn ++ str "'"))
    else (cnt, s.undoPushInsert p size.toNat .allow)

/-- `file_insert`: read a file into the buffer at `p`.  Returns `cnt`. -/
def fileInsert (s : Ed) (fn : Option (List UInt8)) (p : Int) (initial : Bool) : Int × Ed :=
  match fn with
  | none => (-1, s)
  | some fn =>
    let p := if p < s.text then s.text else p
    let p := if p > s.end_ then s.end_ else p
    let (st, s) := s.ask (·.stat)
    match st with
    | none => s.noFile fn initial
    | some stSize =>
      let size : Int := if stSize < 0x7fffffff then stSize else 0x7fffffff
      let (bias, s) := s.textHoleMake p size
      s.readInto fn (p + bias) size initial

/-- The fresh `text[]` of `init_text_buffer`. -/
def newText (s : Ed) : Ed :=
  let (block, s) := s.ask fun e t => (e.blocks t, e.junk t)
  { s with
    mem := memset block.2 block.1 0 10240
    textSize := 10240
    text := block.1
    end_ := block.1
    dot := block.1
    screenbegin := block.1 }

/-- `init_text_buffer`: read text from a file or create an empty buffer.  Returns `rc`. -/
def initTextBuffer (s : Ed) (fn : Option (List UInt8)) : Option (Int × Ed) := do
  let s := s.newText.updateFilename fn
  let (rc, s) := s.fileInsert fn s.text true
  let s ← (if rc < 0 then (s.charInsert s.text NL .no).map (·.2) else some s)
  let s := s.flushUndoData
  some (rc, { s with modifiedCount := 0, mark := fun _ => none })

/-- `file_write`: write `first` through `last`.  Returns the bytes written, or an error. -/
def fileWrite (s : Ed) (fn : Option (List UInt8)) (first last : Int) : Int × Ed :=
  match fn with
  | none => (-2, s.statusLineBold (str "No current filename"))
  | some _ =>
    let (fd, s) := s.ask (·.opened)
    if !fd then (-1, s)
    else
      let cnt := last - first + 1
      let (charcnt, s) := s.ask (·.count)
      (if charcnt = cnt then charcnt else 0, s)

/-! ## Searching -/

/-- `mycmp(p, pat, strlen(pat)) == 0`. -/
def mycmp (s : Ed) (p : Int) (pat : List UInt8) : Bool :=
  let l := slice s.mem p pat.length
  if s.ignorecase then lower l == lower pat else l == pat

/-- The forward loop of `char_search`. -/
def searchForward (s : Ed) (pat : List UInt8) : Nat → Int → Option Int
  | 0, _ => none
  | fuel + 1, p => if s.mycmp p pat then some p else searchForward s pat fuel (p + 1)

/-- The backward loop of `char_search`. -/
def searchBack (s : Ed) (pat : List UInt8) : Nat → Int → Option Int
  | 0, _ => none
  | fuel + 1, p => if s.mycmp p pat then some p else searchBack s pat fuel (p - 1)

/-- `char_search`: search from `p` to the end of the line or, with `full`, of the text. -/
def charSearch (s : Ed) (p : Int) (pat : List UInt8) (forward full : Bool) : Option Int :=
  if forward then
    let stop := if full then s.end_ - 1 else s.nextLine p
    s.searchForward pat (stop - p).toNat p
  else
    let stop := if full then s.text else s.prevLine p
    s.searchBack pat (p - pat.length - stop + 1).toNat (p - pat.length)

end Ed

end Evim
