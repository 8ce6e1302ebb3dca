import Ewokos.Lib.Cells
import Ewokos.Lib.CString
import Ewokos.Lib.Word

/-!
# evim: the editor state

The globals of `bin/evim/vim_util.c` that the editing code reads, as one record.

* Pointers are addresses (`Int`), as in the source: `text ≤ p < end_` for a position in the
  buffer; `mem` is the whole memory, so bytes before `text` and from `end_` on exist and are
  arbitrary.  Pointers that may be `NULL` are `Option Int`.
* Plain `char` is unsigned (the port's ARM targets).  Signed overflow is undefined in C, so
  counters are unbounded; where the source computes with wrapping numbers typed by the user,
  `i32` of `Ewokos.Lib.Word` is applied.
* What the outside world answers (keys, files, where `realloc` puts a block) is the stream
  part `Env` of the state, so a statement about every state is one about every environment.
* The terminal output, the virtual screen and the status-line checksum are not part of it.
-/

set_option autoImplicit false

namespace Evim

open Cells
open CString hiding strchr

/-! ## Characters -/

/-- A literal character as a key. -/
abbrev key (c : Char) : Int := c.toNat

/-- `'\n'`. -/
abbrev NL : UInt8 := 10

def isspace (c : UInt8) : Bool := c == 32 || (9 ≤ c && c ≤ 13)
def isblank (c : UInt8) : Bool := c == 32 || c == 9
def isdigit (c : Int) : Bool := 48 ≤ c && c ≤ 57
def islower (c : Int) : Bool := 97 ≤ c && c ≤ 122
def isalpha (c : UInt8) : Bool := (65 ≤ c && c ≤ 90) || (97 ≤ c && c ≤ 122)
def isalnum (c : UInt8) : Bool := isalpha c || (48 ≤ c && c ≤ 57)
def ispunct (c : UInt8) : Bool := 33 ≤ c && c ≤ 126 && !isalnum c

/-- `is_asciionly`. -/
def isAsciionly (c : Int) : Bool := 32 ≤ c && c ≤ 126

/-- `strchr(s, c) != NULL`: the argument is converted to `char`, and the terminator matches. -/
def strchr (s : List UInt8) (c : Int) : Bool :=
  let b := UInt8.ofInt c
  b == 0 || s.contains b

/-! ## Key codes -/

def KEYCODE_UP : Int := -2
def KEYCODE_DOWN : Int := -3
def KEYCODE_RIGHT : Int := -4
def KEYCODE_LEFT : Int := -5
def KEYCODE_HOME : Int := -6
def KEYCODE_END : Int := -7
def KEYCODE_INSERT : Int := -8
def KEYCODE_DELETE : Int := -9
def KEYCODE_PAGEUP : Int := -10
def KEYCODE_PAGEDOWN : Int := -11

/-! ## Constants -/

def MAX_TABSTOP : Int := 32
def MAX_INPUT_LEN : Nat := 128
def MAX_SCR_COLS : Nat := 4096
def MAX_SCR_ROWS : Nat := 4096
def STATUS_BUFFER_LEN : Nat := 200
def VI_UNDO_QUEUE_MAX : Nat := 32
/-- The register of the `U` command. -/
def Ureg : Nat := 27

/-- `cmd_mode`: 0=command 1=insert 2=replace. -/
inductive CmdMode where
  | command
  | insert
  | replace
  deriving DecidableEq, Repr

/-- Register and range types. -/
inductive BufType where
  /-- `PARTIAL`: part of a line. -/
  | part
  /-- `WHOLE`: whole lines. -/
  | whole
  /-- `MULTI`: may include newlines. -/
  | multi
  deriving DecidableEq, Repr

/-! ## Undo objects -/

/-- `u_type` of an undo object; `UNDO_EMPTY` is only left there by a commit in that state. -/
inductive UndoType where
  | ins
  | del
  | insChain
  | delChain
  | insQueued
  | delQueued
  | empty
  deriving DecidableEq, Repr

/-- `undo_queue_state`. -/
inductive QueueState where
  | empty
  | ins
  | del
  deriving DecidableEq, Repr

/-- The `undo` flag passed through the editing functions. -/
inductive Undo where
  | no
  | allow
  | chain
  | queued
  deriving DecidableEq, Repr

/-- `struct undo_object`; `start` is an offset from `text`. -/
structure UndoObject where
  start : Int
  length : Nat
  uType : UndoType
  undoText : List UInt8
  deriving DecidableEq, Repr

/-! ## The environment -/

/-- A key as `read_key` reports it, and whether bytes are left in `readbuffer` afterwards. -/
structure Key where
  code : Int
  pending : Bool
  deriving DecidableEq, Repr

/-- What the outside world will answer.  The streams are read at index `tick`, which every
external call advances. -/
structure Env where
  /-- the keys still to come on stdin -/
  keys : List Key
  tick : Nat
  /-- how far a growing `realloc` moves the block -/
  moves : Nat → Int
  /-- the address of a fresh `zalloc` block -/
  blocks : Nat → Int
  /-- what is in memory outside a new block -/
  junk : Nat → Memory UInt8
  /-- `st_size` of a successful `stat` -/
  stat : Nat → Option Nat
  /-- whether `open` succeeds -/
  opened : Nat → Bool
  /-- the result of `read` and `write` -/
  count : Nat → Int
  /-- the bytes a `read` delivers -/
  content : Nat → Nat → UInt8
  /-- `strerror(errno)` -/
  errno : Nat → List UInt8

/-- A register's text.  `serial` stands for the address of the string: a fresh one for every
`text_yank`. -/
structure Reg where
  body : List UInt8
  serial : Nat
  deriving DecidableEq, Repr

/-! ## The globals -/

/-- The text buffer: the memory and the pointers that bound the text. -/
structure Buf where
  mem : Memory UInt8
  text : Int
  end_ : Int
  textSize : Int

/-- The undo stack, the undo queue and the modification counter. -/
structure Undos where
  /-- `undo_stack_tail` and its `prev` links, newest object first -/
  undoStack : List UndoObject
  undoQueueState : QueueState
  undoQueueSpos : Int
  undoQ : Nat
  undoQueue : Nat → UInt8
  modifiedCount : Int

/-- The registers. -/
structure Regs where
  reg : Nat → Option Reg
  regtype : Nat → BufType
  ydreg : Nat
  regSerial : Nat

/-- The `.` queue and its recording. -/
structure CmdQueue where
  adding2q : Bool
  /-- the first `lmc_len` bytes of `last_modifying_cmd` -/
  lastModifyingCmd : List UInt8
  dotcnt : Int
  /-- what is left of the string at `ioq`; `none` when `ioq_start` is `NULL` -/
  ioq : Option (List UInt8)
  /-- whether `readbuffer[0]` is not 0 -/
  readbuffer : Bool

/-- `vi_setops` and `tabstop`. -/
structure Options where
  autoindent : Bool
  expandtab : Bool
  errMethod : Bool
  ignorecase : Bool
  showmatch : Bool
  tabstop : Int
  deriving DecidableEq, Repr

/-- The files being edited. -/
structure Files where
  editing : Int
  currentFilename : Option (List UInt8)
  argc : Int
  viOptind : Int

/-- The screen position and the status message. -/
structure Screen where
  screenbegin : Int
  rows : Nat
  columns : Nat
  crow : Int
  ccol : Int
  offset : Int
  haveStatusMsg : Nat
  statusBuffer : List UInt8

/-- The editor's globals. -/
structure Ed extends Buf, Undos, Regs, CmdQueue, Options, Files, Screen where
  dot : Int
  mark : Nat → Option Int
  viVisual : Bool
  viVisualAnchor : Option Int
  cmdMode : CmdMode
  cmdcnt : Int
  cmdError : Bool
  keepIndex : Bool
  /-- saved column for up/down; `none` is `C_END` -/
  cindex : Option Int
  indentcol : Int
  lastSearchChar : Int
  lastSearchCmd : Int
  lastSearchPattern : List UInt8
  editFileCurLine : Option Int
  env : Env

/-- A still environment: no keys, no files, and `realloc` extends a block where it is. -/
def Env.still : Env where
  keys := []
  tick := 0
  moves _ := 0
  blocks _ := 4096
  junk _ _ := 0
  stat _ := none
  opened _ := false
  count _ := -1
  content _ _ := 0
  errno _ := []

/-- The globals before `main` sets the first of them: all zero. -/
def Ed.zeroed (env : Env) : Ed where
  mem _ := 0
  text := 0
  end_ := 0
  textSize := 0
  undoStack := []
  undoQueueState := .ins
  undoQueueSpos := 0
  undoQ := 0
  undoQueue _ := 0
  modifiedCount := 0
  reg _ := none
  regtype _ := .part
  ydreg := 0
  regSerial := 0
  adding2q := false
  lastModifyingCmd := []
  dotcnt := 0
  ioq := none
  readbuffer := false
  autoindent := false
  expandtab := false
  errMethod := false
  ignorecase := false
  showmatch := false
  tabstop := 0
  editing := 0
  currentFilename := none
  argc := 0
  viOptind := 0
  screenbegin := 0
  rows := 0
  columns := 0
  crow := 0
  ccol := 0
  offset := 0
  haveStatusMsg := 0
  statusBuffer := []
  dot := 0
  mark _ := none
  viVisual := false
  viVisualAnchor := none
  cmdMode := .command
  cmdcnt := 0
  cmdError := false
  keepIndex := false
  cindex := some 0
  indentcol := 0
  lastSearchChar := 0
  lastSearchCmd := 0
  lastSearchPattern := []
  editFileCurLine := none
  env := env

/-- The bytes of the buffer, `text` up to `end`. -/
def Buf.bytes (b : Buf) : List UInt8 := slice b.mem b.text (b.end_ - b.text).toNat

theorem Buf.length_bytes (b : Buf) : b.bytes.length = (b.end_ - b.text).toNat := by
  simp [Buf.bytes]

/-- One external call: the answer of the environment now, and the clock moved on. -/
def Ed.ask {α : Type} (s : Ed) (answer : Env → Nat → α) : α × Ed :=
  (answer s.env s.env.tick, { s with env := { s.env with tick := s.env.tick + 1 } })

end Evim
