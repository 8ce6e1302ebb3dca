import Ewokos.Evim.State

/-!
# evim: line navigation and columns

The pure position functions of `bin/evim/vim_text.c` (`begin_line` … `get_column`,
`move_to_col`, `indent_len`), each with the facts later proofs use instead of its definition:
where its result lies, and which bytes were scanned on the way.
-/

set_option autoImplicit false

namespace Evim.Buf

open Cells

variable (s : Buf)

/-! ## Text movement -/

/-- `begin_line`: first char of the line. -/
def beginLine (p : Int) : Int :=
  if p > s.text then
    match memrchr s.mem s.text NL (p - s.text).toNat with
    | none => s.text
    | some q => q + 1
  else p

/-- `end_line`: the newline of the line, or the last byte. -/
def endLine (p : Int) : Int :=
  if p < s.end_ - 1 then
    match memchr s.mem p NL (s.end_ - p - 1).toNat with
    | none => s.end_ - 1
    | some q => q
  else p

/-- `dollar_line`: just before the newline. -/
def dollarLine (p : Int) : Int :=
  let p := s.endLine p
  if s.mem p = NL ∧ p - s.beginLine p > 0 then p - 1 else p

/-- `prev_line`: first char of the previous line. -/
def prevLine (p : Int) : Int :=
  let p := s.beginLine p
  let p := if p > s.text ∧ s.mem (p - 1) = NL then p - 1 else p
  s.beginLine p

/-- `next_line`: first char of the next line. -/
def nextLine (p : Int) : Int :=
  let p := s.endLine p
  if p < s.end_ - 1 ∧ s.mem p = NL then p + 1 else p

/-! ## Text information -/

/-- The loop of `count_lines`; every round moves `start` up, so the distance bounds the rounds. -/
def countLoop (stop : Int) : Nat → Int → Int → Int
  | 0, _, cnt => cnt
  | fuel + 1, start, cnt =>
    if start ≤ stop ∧ start ≤ s.end_ - 1 then
      let start := s.endLine start
      let cnt := if s.mem start = NL then cnt + 1 else cnt
      countLoop stop fuel (start + 1) cnt
    else cnt

/-- `count_lines`: the number of lines from `start` to `stop`. -/
def countLines (start stop : Int) : Int :=
  let (start, stop) := if stop < start then (stop, start) else (start, stop)
  let stop := s.endLine stop
  s.countLoop stop (stop + 1 - start).toNat start 0

/-- `find_line`: first char of line number `li`. -/
def findLine (li : Int) : Int := s.nextLine^[(li - 1).toNat] s.text

/-- The loop of `indent_len`. -/
def blankRun : Nat → Int → Int
  | 0, r => r
  | fuel + 1, r => if r < s.end_ - 1 ∧ isblank (s.mem r) then blankRun fuel (r + 1) else r

/-- `indent_len`: number of blanks from the beginning of a line on. -/
def indentLen (p : Int) : Int := s.blankRun (s.end_ - 1 - p).toNat p - p

/-! ## Where the results lie -/

theorem beginLine_of_le {p : Int} (h : p ≤ s.text) : s.beginLine p = p := by
  unfold beginLine
  rw [if_neg (by omega)]

theorem beginLine_le (p : Int) : s.beginLine p ≤ p := by
  unfold beginLine
  split
  · split
    · omega
    · rename_i q hq
      have := (memrchr_some hq).2.1
      omega
  · exact Int.le_refl p

theorem text_le_beginLine {p : Int} (h : s.text ≤ p) : s.text ≤ s.beginLine p := by
  unfold beginLine
  split
  · split
    · exact Int.le_refl _
    · rename_i q hq
      have := (memrchr_some hq).1
      omega
  · exact h

/-- A line starts at the start of the buffer or behind a newline. -/
theorem beginLine_start {p : Int} (h : s.text ≤ p) :
    s.beginLine p = s.text ∨ s.text < s.beginLine p ∧ s.mem (s.beginLine p - 1) = NL := by
  unfold beginLine
  split
  · split
    · exact Or.inl rfl
    · rename_i q hq
      obtain ⟨h₁, _, h₃, _⟩ := memrchr_some hq
      exact Or.inr ⟨by omega, by simpa using h₃⟩
  · exact Or.inl (by omega)

/-- No newline between the beginning of the line and `p`. -/
theorem beginLine_noNL {p i : Int} (h₁ : s.beginLine p ≤ i) (h₂ : i < p) : s.mem i ≠ NL := by
  unfold beginLine at h₁
  split at h₁
  · split at h₁
    · rename_i hn
      exact memrchr_none hn i h₁ (by omega)
    · rename_i q hq
      exact (memrchr_some hq).2.2.2 i (by omega) (by omega)
  · omega

theorem le_endLine (p : Int) : p ≤ s.endLine p := by
  unfold endLine
  split
  · split
    · omega
    · rename_i q hq
      exact (memchr_some hq).1
  · exact Int.le_refl p

theorem endLine_of_ge {p : Int} (h : s.end_ - 1 ≤ p) : s.endLine p = p := by
  unfold endLine
  rw [if_neg (by omega)]

theorem endLine_lt {p : Int} (h : p < s.end_) : s.endLine p < s.end_ := by
  unfold endLine
  split
  · split
    · omega
    · rename_i q hq
      have := (memchr_some hq).2.1
      omega
  · exact h

/-- No newline from `p` up to the end of its line. -/
theorem endLine_noNL {p i : Int} (h₁ : p ≤ i) (h₂ : i < s.endLine p) : s.mem i ≠ NL := by
  unfold endLine at h₂
  split at h₂
  · split at h₂
    · rename_i hn
      exact memchr_none hn i h₁ (by omega)
    · rename_i q hq
      exact (memchr_some hq).2.2.2 i h₁ h₂
  · omega

/-- A line ends with a newline or with the buffer. -/
theorem endLine_stop {p : Int} (h : p < s.end_) :
    s.mem (s.endLine p) = NL ∨ s.endLine p = s.end_ - 1 := by
  unfold endLine
  split
  · split
    · exact Or.inr rfl
    · rename_i q hq
      exact Or.inl (memchr_some hq).2.2.1
  · exact Or.inr (by omega)

theorem le_nextLine (p : Int) : p ≤ s.nextLine p := by
  have := s.le_endLine p
  unfold nextLine
  dsimp only
  split <;> omega

theorem text_le_prevLine {p : Int} (h : s.text ≤ p) : s.text ≤ s.prevLine p := by
  have := s.text_le_beginLine h
  unfold prevLine
  dsimp only
  split
  · exact s.text_le_beginLine (by omega)
  · exact s.text_le_beginLine this

theorem prevLine_le (p : Int) : s.prevLine p ≤ p := by
  have := s.beginLine_le p
  unfold prevLine
  dsimp only
  split
  · have := s.beginLine_le (s.beginLine p - 1)
    omega
  · have := s.beginLine_le (s.beginLine p)
    omega

theorem le_iterate_nextLine (p : Int) (n : Nat) : p ≤ s.nextLine^[n] p := by
  induction n with
  | zero => exact Int.le_refl p
  | succ n ih =>
    rw [Function.iterate_succ_apply']
    exact Int.le_trans ih (s.le_nextLine _)

theorem le_blankRun (n : Nat) (r : Int) : r ≤ s.blankRun n r := by
  induction n generalizing r with
  | zero => exact Int.le_refl r
  | succ n ih =>
    unfold blankRun
    split
    · have := ih (r + 1)
      omega
    · exact Int.le_refl r

theorem indentLen_nonneg (p : Int) : 0 ≤ s.indentLen p := by
  have := s.le_blankRun (s.end_ - 1 - p).toNat p
  unfold indentLen
  omega

end Evim.Buf

namespace Evim.Ed

open Cells

variable (s : Ed)

/-! ## Columns -/

/-- `end_screen`: last char of the bottom line of the screen. -/
def endScreen : Int := s.endLine (s.nextLine^[s.rows - 2] s.screenbegin)

/-- `next_tabstop`: the last column of the tab cell at `col`. -/
def nextTabstop (col : Int) : Int := col + ((s.tabstop - 1) - col % s.tabstop)

/-- `prev_tabstop`. -/
def prevTabstop (col : Int) : Int :=
  col - (if col % s.tabstop ≠ 0 then col % s.tabstop else s.tabstop)

/-- `next_column`: the column behind a char drawn at column `co`. -/
def nextColumn (c : UInt8) (co : Int) : Int :=
  if c = 9 then s.nextTabstop co + 1
  else if c < 32 ∨ c = 127 then co + 2
  else co + 1

/-- `get_column`: the column of `p` on its line. -/
def getColumn (p : Int) : Int :=
  let r := s.beginLine p
  (slice s.mem r (p - r).toNat).foldl (fun co c => s.nextColumn c co) 0

/-- The loop of `move_to_col`.  `p` may run to `end_` and one beyond. -/
def moveLoop (l : Int) : Nat → Int → Int → Int
  | 0, p, _ => p
  | fuel + 1, p, co =>
    if s.mem p = NL then p
    else
      let co := s.nextColumn (s.mem p) co
      if co ≤ l then if p < s.end_ then moveLoop l fuel (p + 1) co else p + 1
      else p

/-- `move_to_col`. -/
def moveToCol (p l : Int) : Int :=
  let p := s.beginLine p
  s.moveLoop l ((s.end_ - p).toNat + 1) p 0

end Evim.Ed
