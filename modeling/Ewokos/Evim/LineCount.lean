import Ewokos.Lib.Runs
import Ewokos.Evim.Lines

/-!
# evim: line numbers

`count_lines` and `find_line` against the lines of the buffer, the runs ended by a newline or by
`end`.

* `countLines_eq` — `count_lines(p, q)` counts the newlines up to the end of the line of `q`.
* `iterate_nextLine` — `next_line` goes from line start to line start.
* `findLine_lineNumber` — `find_line` finds the first byte of a line from its number.

Main result: `lineNumbers_consistent_iff` — `count_lines` is the number of the line for every
position, and of the lines for the last one, exactly when the buffer ends with a newline.
-/

set_option autoImplicit false

namespace Evim.Buf

open Cells Runs

variable (s : Buf)

/-- The lines of the buffer. -/
def lines : List (List UInt8) := runs NL s.bytes

/-- The number of the line that holds the byte at `p`. -/
def lineNumber (p : Int) : Nat := runIndex s.lines (p - s.text).toNat

/-- The newlines from `p` up to `q`. -/
def newlines (p q : Int) : Nat := (slice s.mem p (q - p).toNat).count NL

theorem newlines_self (p : Int) : s.newlines p p = 0 := by simp [newlines]

theorem newlines_add {p q r : Int} (h₁ : p ≤ q) (h₂ : q ≤ r) :
    s.newlines p r = s.newlines p q + s.newlines q r := by
  unfold newlines
  rw [show (r - p).toNat = (q - p).toNat + (r - q).toNat by omega, slice_add, List.count_append]
  rw [show p + ((q - p).toNat : Int) = q by omega]

theorem newlines_one (p : Int) : s.newlines p (p + 1) = if s.mem p = NL then 1 else 0 := by
  unfold newlines
  rw [show (p + 1 - p).toNat = 0 + 1 by omega, slice_succ]
  by_cases h : s.mem p = NL <;> simp [h]

theorem newlines_none {p q : Int} (h : ∀ i, p ≤ i → i < q → s.mem i ≠ NL) :
    s.newlines p q = 0 := by
  unfold newlines
  rw [List.count_eq_zero]
  intro hm
  obtain ⟨i, hi, e⟩ := mem_slice.mp hm
  exact h (p + i) (by omega) (by omega) e

theorem lineNumber_eq {p : Int} (h₀ : s.text ≤ p) (h₁ : p < s.end_) :
    s.lineNumber p = s.newlines s.text p + 1 := by
  unfold lineNumber lines
  rw [runIndex_runs NL (by rw [length_bytes]; omega)]
  unfold newlines bytes
  rw [take_slice _ _ (by omega)]

theorem length_lines (h : s.text < s.end_) :
    s.lines.length = s.newlines s.text (s.end_ - 1) + 1 := by
  have hl := s.length_bytes
  unfold lines
  rw [length_runs NL (by intro e; rw [e] at hl; simp at hl; omega), hl]
  unfold newlines bytes
  rw [take_slice _ _ (by omega)]
  congr 2
  congr 1
  omega

/-! ## `count_lines` -/

/-- From a position to the end of its line there is at most the newline that ends it. -/
theorem newlines_endLine (p : Int) :
    s.newlines p (s.endLine p + 1) = if s.mem (s.endLine p) = NL then 1 else 0 := by
  have h := s.le_endLine p
  rw [newlines_add s h (by omega), newlines_none s fun i h₁ h₂ => s.endLine_noNL h₁ h₂,
    newlines_one, Nat.zero_add]

/-- The end of a line is not before the stop, if that is the end of a line. -/
theorem endLine_le_stop {start stop : Int} (hs : start ≤ stop)
    (h : s.mem stop = NL ∨ stop = s.end_ - 1) : s.endLine start ≤ stop := by
  by_contra hc
  rcases h with h | h
  · exact s.endLine_noNL hs (by omega) h
  · have := s.endLine_lt (p := start) (by omega)
    omega

theorem countLoop_eq {stop : Int} (hlt : stop < s.end_)
    (h : s.mem stop = NL ∨ stop = s.end_ - 1) :
    ∀ (n : Nat) (start cnt : Int), start ≤ stop + 1 → stop + 1 - start ≤ n →
      s.countLoop stop n start cnt = cnt + s.newlines start (stop + 1)
  | 0, start, cnt, h₁, h₂ => by
    obtain rfl : start = stop + 1 := by omega
    rw [newlines_self]
    simp [countLoop]
  | n + 1, start, cnt, h₁, h₂ => by
    unfold countLoop
    by_cases hs : start ≤ stop
    · rw [if_pos ⟨hs, by omega⟩]
      have hle := s.endLine_le_stop hs h
      have hge := s.le_endLine start
      dsimp only
      rw [countLoop_eq hlt h n _ _ (by omega) (by omega),
        newlines_add s (p := start) (q := s.endLine start + 1) (by omega) (by omega),
        newlines_endLine]
      split
      · push_cast
        omega
      · push_cast
        omega
    · obtain rfl : start = stop + 1 := by omega
      rw [if_neg (by omega), newlines_self]
      simp

/-- `count_lines` counts the newlines up to the end of the line of its second argument. -/
theorem countLines_eq {p q : Int} (h₀ : p ≤ q) (h₁ : q < s.end_) :
    s.countLines p q = s.newlines p (s.endLine q + 1) := by
  have hle := s.le_endLine q
  have hlt := s.endLine_lt h₁
  unfold countLines
  rw [if_neg (by omega)]
  dsimp only
  rw [countLoop_eq s hlt (s.endLine_stop h₁) _ _ _ (by omega) (by omega), Int.zero_add]

/-- It is the number of the line if that is terminated, and one less if not. -/
theorem countLines_lineNumber {p : Int} (h₀ : s.text ≤ p) (h₁ : p < s.end_) :
    s.countLines s.text p = s.lineNumber p - if s.mem (s.endLine p) = NL then 0 else 1 := by
  have hle := s.le_endLine p
  rw [countLines_eq s h₀ h₁, lineNumber_eq s h₀ h₁, newlines_add s h₀ (by omega),
    newlines_endLine]
  split <;> push_cast <;> omega

/-! ## From line to line -/

/-- With a line start `q` behind `p`, `next_line` goes over one newline and not beyond `q`. -/
theorem nextLine_step {p q : Int} (hpq : p < q) (hq : q < s.end_) (hnl : s.mem (q - 1) = NL) :
    s.nextLine p ≤ q ∧ s.newlines p q = s.newlines (s.nextLine p) q + 1 := by
  have hge := s.le_endLine p
  have hle : s.endLine p ≤ q - 1 := s.endLine_le_stop (by omega) (.inl hnl)
  have hend : s.mem (s.endLine p) = NL := by
    rcases s.endLine_stop (p := p) (by omega) with h | h
    · exact h
    · omega
  have hnext : s.nextLine p = s.endLine p + 1 := by
    unfold nextLine
    dsimp only
    rw [if_pos ⟨by omega, hend⟩]
  have hone := s.newlines_endLine p
  rw [if_pos hend] at hone
  rw [hnext, newlines_add s (q := s.endLine p + 1) (by omega) (by omega), hone]
  exact ⟨by omega, Nat.add_comm _ _⟩

/-- `next_line` comes to a line start after as many steps as there are newlines before it. -/
theorem iterate_nextLine : ∀ {n : Nat} {p q : Int}, p ≤ q → q < s.end_ →
    (p < q → s.mem (q - 1) = NL) → n ≤ s.newlines p q →
    s.nextLine^[n] p ≤ q ∧ s.newlines (s.nextLine^[n] p) q = s.newlines p q - n
  | 0, _, _, hpq, _, _, _ => ⟨hpq, rfl⟩
  | n + 1, p, q, hpq, hq, hnl, hn => by
    rcases Int.lt_or_eq_of_le hpq with hlt | rfl
    · obtain ⟨hle, hcount⟩ := s.nextLine_step hlt hq (hnl hlt)
      obtain ⟨h₁, h₂⟩ := iterate_nextLine (n := n) hle hq (fun _ => hnl hlt) (by omega)
      rw [Function.iterate_succ_apply]
      exact ⟨h₁, by omega⟩
    · rw [newlines_self] at hn
      omega

/-- Between two places without a newline there is no line start but the first. -/
theorem eq_of_newlines {p q : Int} (hpq : p ≤ q) (hnl : p < q → s.mem (q - 1) = NL)
    (h : s.newlines p q = 0) : p = q := by
  rcases Int.lt_or_eq_of_le hpq with hlt | he
  · have hone := s.newlines_one (q - 1)
    rw [if_pos (hnl hlt), Int.sub_add_cancel] at hone
    have := s.newlines_add (p := p) (q := q - 1) (r := q) (by omega) (by omega)
    omega
  · exact he

theorem iterate_nextLine_eq {p q : Int} (hpq : p ≤ q) (hq : q < s.end_)
    (hnl : p < q → s.mem (q - 1) = NL) : s.nextLine^[s.newlines p q] p = q := by
  obtain ⟨hle, h⟩ := s.iterate_nextLine hpq hq hnl (Nat.le_refl _)
  exact s.eq_of_newlines hle (fun hlt => hnl (Int.lt_of_le_of_lt (s.le_iterate_nextLine p _) hlt))
    (by omega)

/-- `find_line` finds the first byte of a line from its number. -/
theorem findLine_newlines {p : Int} (h₀ : s.text ≤ p) (h₁ : p < s.end_) :
    s.nextLine^[s.newlines s.text p] s.text = s.beginLine p := by
  have hle := s.beginLine_le p
  have hge := s.text_le_beginLine h₀
  have hno : s.newlines (s.beginLine p) p = 0 :=
    s.newlines_none fun i h₁ h₂ => s.beginLine_noNL h₁ h₂
  rw [newlines_add s hge hle, hno, Nat.add_zero]
  refine s.iterate_nextLine_eq hge (by omega) fun hlt => ?_
  rcases s.beginLine_start h₀ with hb | hb
  · omega
  · exact hb.2

theorem findLine_lineNumber {p : Int} (h₀ : s.text ≤ p) (h₁ : p < s.end_) :
    s.findLine (s.lineNumber p) = s.beginLine p := by
  unfold findLine
  rw [lineNumber_eq s h₀ h₁]
  rw [show ((s.newlines s.text p + 1 : Nat) - 1 : Int).toNat = s.newlines s.text p by omega]
  exact s.findLine_newlines h₀ h₁

/-! ## Line numbers -/

/-- Line numbers as `:$`, `:%`, `.,$` and the shift commands need them. -/
def Numbered : Prop :=
  (∀ p, s.text ≤ p → p < s.end_ → s.countLines s.text p = s.lineNumber p ∧
    s.findLine (s.countLines s.text p) = s.beginLine p) ∧
  s.countLines s.text (s.end_ - 1) = s.lines.length

/-- **Line numbers are consistent exactly when the buffer ends with a newline.** -/
theorem lineNumbers_consistent_iff (h : s.text < s.end_) :
    s.Numbered ↔ s.mem (s.end_ - 1) = NL := by
  have hlast : s.endLine (s.end_ - 1) = s.end_ - 1 := s.endLine_of_ge (Int.le_refl _)
  constructor
  · intro hn
    obtain ⟨hc, -⟩ := hn.1 (s.end_ - 1) (by omega) (by omega)
    rw [countLines_lineNumber s (by omega) (by omega), hlast] at hc
    by_contra hne
    rw [if_neg hne] at hc
    omega
  · intro hnl
    have hterm (p : Int) (h₁ : p < s.end_) : s.mem (s.endLine p) = NL := by
      rcases s.endLine_stop h₁ with e | e
      · exact e
      · rw [e]
        exact hnl
    have hcount (p : Int) (h₀ : s.text ≤ p) (h₁ : p < s.end_) :
        s.countLines s.text p = s.lineNumber p := by
      rw [countLines_lineNumber s h₀ h₁, if_pos (hterm p h₁), Int.sub_zero]
    refine ⟨fun p h₀ h₁ => ⟨hcount p h₀ h₁, ?_⟩, ?_⟩
    · rw [hcount p h₀ h₁]
      exact s.findLine_lineNumber h₀ h₁
    · rw [hcount _ (by omega) (by omega), lineNumber_eq s (by omega) (by omega), length_lines s h]

/-- A buffer with these bytes. -/
def ofBytes (l : List UInt8) : Buf := ⟨memcpy (fun _ => 0) 0 l, 0, l.length, l.length + 1⟩

/-- Three lines, of one byte, none and two: the last byte is in line 3, which begins at 3. -/
theorem lineNumbers_consistent_two :
    (ofBytes [97, NL, NL, 98, 99, NL]).Numbered ∧
      (ofBytes [97, NL, NL, 98, 99, NL]).lines.length = 3 ∧
      (ofBytes [97, NL, NL, 98, 99, NL]).countLines 0 5 = 3 ∧
      (ofBytes [97, NL, NL, 98, 99, NL]).findLine 3 = 3 :=
  ⟨(lineNumbers_consistent_iff (ofBytes [97, NL, NL, 98, 99, NL]) (by decide)).mpr (by decide),
    by decide, by decide, by decide⟩

/-- A file `a` without a newline has one line, and `count_lines` finds none. -/
theorem unterminated_not_numbered :
    (ofBytes [97]).lines.length = 1 ∧ (ofBytes [97]).countLines 0 0 = 0 ∧
      ¬(ofBytes [97]).Numbered := by
  refine ⟨by decide, by decide, ?_⟩
  intro h
  have := h.2
  revert this
  decide

end Evim.Buf
