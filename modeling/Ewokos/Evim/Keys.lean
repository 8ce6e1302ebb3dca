import Ewokos.Evim.State

/-!
# evim: decoding keys

`safe_poll`, the table `esccmds` and `read_key` of `bin/evim/vim_input.c`.

* A terminal answers polls: `Tty σ` maps a timeout and its state to a byte or none, or does not
  return.  Arrival times are whatever the answers say.  `Stdin` counts the bytes it delivered.
* `readbuffer` is a count and the bytes behind it; `buffer[-1]` of the source is `count`.
* `scanSeq` compares one sequence of the table, `scanTable` all of them, `readKey` is the whole.
  Its fuel bounds the jumps to `start_over`.
-/

set_option autoImplicit false

namespace Evim.Keys

/-- `ESC_SEQ_TIMEOUT_MS`. -/
def ESC_SEQ_TIMEOUT_MS : Int := 50

def KEYCODE_CTRL_RIGHT : Int := -68
def KEYCODE_CTRL_LEFT : Int := -69
def KEYCODE_ALT_RIGHT : Int := -36
def KEYCODE_ALT_LEFT : Int := -37
def KEYCODE_ALT_BACKSPACE : Int := -44
def KEYCODE_ALT_D : Int := -45

/-- `KEYCODE_BUFFER_SIZE`. -/
def KEYCODE_BUFFER_SIZE : Nat := 16

/-- The last char of a sequence, `c | 0x80`. -/
def final (c : Char) : UInt8 := c.val.toUInt8 ||| 0x80

/-- A char of a sequence. -/
def plain (c : Char) : UInt8 := c.val.toUInt8

/-- `esccmds`: the sequences, each with its keycode behind it, and a 0. -/
def esccmds : List UInt8 := [
  127 ||| 0x80, UInt8.ofInt KEYCODE_ALT_BACKSPACE, 8 ||| 0x80, UInt8.ofInt KEYCODE_ALT_BACKSPACE,
  final 'd', UInt8.ofInt KEYCODE_ALT_D,
  final 'f', UInt8.ofInt KEYCODE_ALT_RIGHT, final 'b', UInt8.ofInt KEYCODE_ALT_LEFT,
  plain 'O', final 'A', UInt8.ofInt KEYCODE_UP, plain 'O', final 'B', UInt8.ofInt KEYCODE_DOWN,
  plain 'O', final 'C', UInt8.ofInt KEYCODE_RIGHT, plain 'O', final 'D', UInt8.ofInt KEYCODE_LEFT,
  plain 'O', final 'H', UInt8.ofInt KEYCODE_HOME, plain 'O', final 'F', UInt8.ofInt KEYCODE_END,
  plain '[', final 'A', UInt8.ofInt KEYCODE_UP, plain '[', final 'B', UInt8.ofInt KEYCODE_DOWN,
  plain '[', final 'C', UInt8.ofInt KEYCODE_RIGHT, plain '[', final 'D', UInt8.ofInt KEYCODE_LEFT,
  plain '[', final 'H', UInt8.ofInt KEYCODE_HOME, plain '[', final 'F', UInt8.ofInt KEYCODE_END,
  plain '[', plain '1', final '~', UInt8.ofInt KEYCODE_HOME,
  plain '[', plain '2', final '~', UInt8.ofInt KEYCODE_INSERT,
  plain '[', plain '3', final '~', UInt8.ofInt KEYCODE_DELETE,
  plain '[', plain '4', final '~', UInt8.ofInt KEYCODE_END,
  plain '[', plain '5', final '~', UInt8.ofInt KEYCODE_PAGEUP,
  plain '[', plain '6', final '~', UInt8.ofInt KEYCODE_PAGEDOWN,
  plain '[', plain '7', final '~', UInt8.ofInt KEYCODE_HOME,
  plain '[', plain '8', final '~', UInt8.ofInt KEYCODE_END,
  plain '[', plain '1', plain ';', plain '5', final 'C', UInt8.ofInt KEYCODE_CTRL_RIGHT,
  plain '[', plain '1', plain ';', plain '5', final 'D', UInt8.ofInt KEYCODE_CTRL_LEFT,
  plain '[', plain '1', plain ';', plain '3', final 'C', UInt8.ofInt KEYCODE_ALT_RIGHT,
  plain '[', plain '1', plain ';', plain '3', final 'D', UInt8.ofInt KEYCODE_ALT_LEFT,
  0]

/-- `(signed char)c`. -/
def signedChar (c : UInt8) : Int := if c < 128 then c.toNat else (c.toNat : Int) - 256

/-! ## The terminal -/

/-- What a terminal answers to a poll: a byte or none within the time limit, and its next state;
`none` when a blocking read never returns. -/
abbrev Tty (σ : Type) := Int → σ → Option (Option UInt8 × σ)

/-- The state of the terminal and the number of bytes read from stdin so far. -/
structure Stdin (σ : Type) where
  tty : σ
  got : Nat
  deriving DecidableEq, Repr

variable {σ : Type}

/-- `safe_poll`: a byte, or `none` for the results 0 and -1. -/
def safePoll (poll : Tty σ) (timeout : Int) (i : Stdin σ) : Option (Option UInt8 × Stdin σ) :=
  (poll timeout i.tty).map fun r =>
    (r.1, ⟨r.2, if r.1.isSome then i.got + 1 else i.got⟩)

/-- `readbuffer`: the saved chars counter and the chars behind it. -/
structure ReadBuffer where
  count : Nat
  buffer : List UInt8
  deriving DecidableEq, Repr

/-- `readbuffer` at the start. -/
def ReadBuffer.zeroed : ReadBuffer := ⟨0, List.replicate (KEYCODE_BUFFER_SIZE - 1) 0⟩

/-! ## The table -/

/-- How the comparison with one sequence ends: the time is up, the whole sequence matched, or the
scan goes on with the table behind it.  `n` is the number of bytes read. -/
inductive Scan (σ : Type) where
  | silence (n : Nat) (buffer : List UInt8) (i : Stdin σ)
  | matched (code : Int) (buffer : List UInt8) (i : Stdin σ)
  | mismatch (seq : List UInt8) (n : Nat) (buffer : List UInt8) (i : Stdin σ)
  deriving DecidableEq, Repr

/-- Forward to the last char of the sequence, and over it and the keycode. -/
def skipSeq : List UInt8 → List UInt8
  | [] => []
  | c :: seq => if c &&& 0x80 = 0 then skipSeq seq else seq.drop 1

/-- The inner loop of `read_key`, from position `k` of a sequence on. -/
def scanSeq (poll : Tty σ) : List UInt8 → Nat → Nat → List UInt8 → Stdin σ → Option (Scan σ)
  | [], _, n, buffer, i => some (.mismatch [] n buffer i)
  | c :: seq, k, n, buffer, i =>
    let compare (n : Nat) (buffer : List UInt8) (i : Stdin σ) : Option (Scan σ) :=
      if buffer.getD k 0 ≠ c &&& 0x7f then some (.mismatch (skipSeq (c :: seq)) n buffer i)
      else if c &&& 0x80 ≠ 0 then some (.matched (signedChar (seq.headD 0)) buffer i)
      else scanSeq poll seq (k + 1) n buffer i
    if n ≤ k then
      match safePoll poll ESC_SEQ_TIMEOUT_MS i with
      | none => none
      | some (none, i) => some (.silence n buffer i)
      | some (some b, i) => compare (n + 1) (buffer.set n b) i
    else compare n buffer i

/-- The outer loop of `read_key`: the sequences of the table in order. -/
def scanTable (poll : Tty σ) : Nat → List UInt8 → Nat → List UInt8 → Stdin σ → Option (Scan σ)
  | 0, seq, n, buffer, i => some (.mismatch seq n buffer i)
  | fuel + 1, seq, n, buffer, i =>
    if seq.headD 0 = 0 then some (.mismatch [] n buffer i)
    else
      match scanSeq poll seq 0 n buffer i with
      | some (.mismatch seq n buffer i) => scanTable poll fuel seq n buffer i
      | r => r

/-! ## `read_key` -/

/-- `read_key` from `start_over` on.  `none` when it does not return. -/
def readKey (poll : Tty σ) (timeout : Int) :
    Nat → ReadBuffer → Stdin σ → Option (Int × ReadBuffer × Stdin σ)
  | 0, _, _ => none
  | fuel + 1, rb, i =>
    let first : Option (Option (Nat × List UInt8) × Stdin σ) :=
      if rb.count = 0 then
        (safePoll poll timeout i).map fun r => (r.1.map fun b => (1, rb.buffer.set 0 b), r.2)
      else some (some (rb.count, rb.buffer), i)
    match first with
    | none => none
    | some (none, i) => some (-1, rb, i)
    | some (some (n, buffer), i) =>
      let c := buffer.getD 0 0
      let n := n - 1
      let buffer := if n = 0 then buffer else (buffer.drop 1).take n ++ buffer.drop n
      if c ≠ 27 then some (c.toNat, ⟨n, buffer⟩, i)
      else
        match scanTable poll esccmds.length esccmds n buffer i with
        | none => none
        -- `buffer[-1]` keeps its value
        | some (.silence n buffer i) => some (if n = 0 then 27 else -1, ⟨rb.count, buffer⟩, i)
        | some (.matched code buffer i) => some (code, ⟨0, buffer⟩, i)
        | some (.mismatch _ n buffer i) =>
          -- Alt-x is usually returned as ESC x
          if n ≤ 1 then some (27, ⟨n, buffer⟩, i)
          else readKey poll timeout fuel ⟨0, buffer⟩ i

end Evim.Keys
