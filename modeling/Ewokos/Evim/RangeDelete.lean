import Ewokos.Evim.DeleteAll

/-!
# evim: deleting a range of lines

* `getAddress_range` — the addresses of `:b,e` are read as they were written.
* `findLine_offset`, `endLine_offset` — where line `b` starts and line `e` ends, as offsets in the
  list of the lines.
* `rangeDelete_part` — lines are left: the object holds the deleted ones.  When none is left, this
  is `Emptied`.

Main result: `rangeDelete_undone`.
-/

set_option autoImplicit false

namespace Evim

open Cells UndoLog Runs Word
open CString hiding strchr

namespace Ed

/-! ## The addresses -/

/-- A digit as a byte. -/
theorem isDigit_byte {c : Char} (h : c.isDigit = true) :
    (UInt8.ofNat c.toNat).toNat = c.toNat ∧ 48 ≤ c.toNat ∧ c.toNat ≤ 57 := by
  have hc : 48 ≤ c.toNat ∧ c.toNat ≤ 57 := by
    simp only [Char.isDigit, Bool.and_eq_true, decide_eq_true_eq] at h
    exact h
  refine ⟨?_, hc⟩
  rw [UInt8.toNat_ofNat']
  omega

theorem le_ofDigitChars : ∀ (l : List Char) (n : Nat), n ≤ Nat.ofDigitChars 10 l n
  | [], n => by simp
  | c :: l, n => by
    rw [Nat.ofDigitChars_cons]
    have := le_ofDigitChars l (10 * n + (c.toNat - '0'.toNat))
    omega

/-- The digit loop reads a numeral, as long as its value is an `int`. -/
theorem number_digits : ∀ (l : List Char) (n : Nat) (rest : List UInt8),
    (∀ c ∈ l, c.isDigit = true) → Nat.ofDigitChars 10 l n ≤ 2147483647 →
    number (l.map (fun c => UInt8.ofNat c.toNat) ++ rest) n =
      number rest (Nat.ofDigitChars 10 l n : Nat)
  | [], _, _, _, _ => by simp
  | c :: l, n, rest, hd, hle => by
    obtain ⟨hbyte, h₁, h₂⟩ := isDigit_byte (hd c List.mem_cons_self)
    rw [Nat.ofDigitChars_cons, show '0'.toNat = 48 from rfl] at hle ⊢
    have hmono := le_ofDigitChars l (10 * n + (c.toNat - 48))
    have hdigit : isdigit (UInt8.ofNat c.toNat).toNat = true := by
      rw [hbyte]
      simp only [isdigit, Bool.and_eq_true, decide_eq_true_eq]
      omega
    have hval : i32 ((n : Int) * 10 + ((UInt8.ofNat c.toNat).toNat : Nat) - 48) =
        ((10 * n + (c.toNat - 48) : Nat) : Int) := by
      rw [hbyte, ← i32_of_nat (n := 10 * n + (c.toNat - 48)) (by omega)]
      congr 1
      omega
    rw [List.map_cons, List.cons_append, number, if_pos hdigit, hval]
    exact number_digits l _ rest (fun c hc => hd c (List.mem_cons_of_mem _ hc)) hle

theorem dec_nat (n : Nat) : dec n = (Nat.toDigits 10 n).map fun c => UInt8.ofNat c.toNat := by
  unfold dec
  rw [if_neg (by omega), Int.natAbs_natCast]
  unfold str
  rw [String.toList_ofList]

/-- A numeral is read as the number. -/
theorem number_dec {n : Nat} (h : n ≤ 2147483647) {rest : List UInt8}
    (hrest : isdigit (head rest).toNat = false) : number (dec n ++ rest) 0 = ((n : Int), rest) := by
  have hd : ∀ c ∈ Nat.toDigits 10 n, c.isDigit = true := fun c hc =>
    Nat.isDigit_of_mem_toDigits (by decide) (by decide) hc
  have hval : Nat.ofDigitChars 10 (Nat.toDigits 10 n) 0 = n := Nat.ofDigitChars_ten_toDigits
  have hnum := number_digits (Nat.toDigits 10 n) 0 rest hd (by rw [hval]; exact h)
  rw [dec_nat]
  rw [hval] at hnum
  refine hnum.trans ?_
  cases rest with
  | nil => rfl
  | cons c rest =>
    change isdigit c.toNat = false at hrest
    rw [number, if_neg (by rw [hrest]; decide)]

/-- A numeral starts with a digit. -/
theorem dec_cons (n : Nat) : ∃ c l, dec n = c :: l ∧ isdigit c.toNat = true := by
  rw [dec_nat]
  cases h : Nat.toDigits 10 n with
  | nil => exact absurd h Nat.toDigits_ne_nil
  | cons c l =>
    have hc : c.isDigit = true :=
      Nat.isDigit_of_mem_toDigits (b := 10) (n := n) (by decide) (by decide)
        (by rw [h]; exact List.mem_cons_self)
    obtain ⟨hbyte, h₁, h₂⟩ := isDigit_byte hc
    refine ⟨_, _, rfl, ?_⟩
    rw [hbyte]
    simp only [isdigit, Bool.and_eq_true, decide_eq_true_eq]
    omega

/-- A digit is none of the bytes with a meaning of their own. -/
theorem digit_ne {c d : UInt8} (h : isdigit c.toNat = true) (hd : isdigit d.toNat = false) : c ≠ d := by
  rintro rfl
  rw [h] at hd
  cases hd

theorem digit_not_blank {c : UInt8} (h : isdigit c.toNat = true) : isblank c = false := by
  simp only [isblank, Bool.or_eq_false_iff, beq_eq_false_iff_ne]
  exact ⟨digit_ne h (by decide), digit_ne h (by decide)⟩

/-- A byte that ends an address. -/
structure EndsAddress (c : UInt8) : Prop where
  blank : isblank c = false
  digit : isdigit c.toNat = false
  minus : c ≠ chr '-'
  plus : c ≠ chr '+'

/-- `get_one_address` of a line number. -/
theorem getOneAddress_dec (s : Ed) {n : Nat} (hn : n ≤ 2147483647) {rest : List UInt8}
    (hrest : EndsAddress (head rest)) :
    s.getOneAddress (dec n ++ rest) = (some ((n : Int), true, rest), s) := by
  obtain ⟨c, l, hdec, hc⟩ := dec_cons n
  have hnum := number_dec hn hrest.digit
  have hhead : head (dec n ++ rest) = c := by rw [hdec]; rfl
  obtain ⟨fuel, hfuel⟩ : ∃ fuel, (dec n ++ rest).length + 1 = fuel + 2 :=
    ⟨l.length + rest.length, by rw [hdec]; simp⟩
  have h₁ : ∀ a : Addr, a.gotAddr = false → addressLoop (fuel + 2) a (dec n ++ rest) s =
      addressLoop (fuel + 1) ⟨n, 0, true⟩ rest s := by
    intro a ha
    rw [addressLoop]
    simp only [hhead, digit_not_blank hc, ha, Bool.false_eq_true, if_false, Bool.not_false, true_and,
      digit_ne (d := chr '.') hc (by decide), digit_ne (d := chr '$') hc (by decide),
      digit_ne (d := chr '\'') hc (by decide), digit_ne (d := chr '/') hc (by decide),
      digit_ne (d := chr '?') hc (by decide), or_self, hc, if_true, hnum]
  have h₂ : addressLoop (fuel + 1) ⟨n, 0, true⟩ rest s = (some (⟨n, 0, true⟩, rest), s) := by
    rw [addressLoop]
    simp only [hrest.blank, hrest.digit, hrest.minus, hrest.plus, Bool.false_eq_true, if_false,
      Bool.not_true, false_and, or_self, Int.add_zero, i32_of_nat hn]
  unfold getOneAddress
  dsimp only
  rw [hfuel, h₁ _ rfl, h₂]
  rfl

/-- An address in front of a separator or the command. -/
theorem rangeLoop_dec (s : Ed) {n : Nat} (hn : n ≤ 2147483647) {rest : List UInt8}
    (hrest : EndsAddress (head rest)) (fuel : Nat) (g : Range) :
    rangeLoop (fuel + 1) false g (dec n ++ rest) s =
      rangeLoop fuel true ⟨g.e, n, g.got * 2 + 1⟩ rest s := by
  obtain ⟨c, l, hdec, hc⟩ := dec_cons n
  have hhead : head (dec n ++ rest) = c := by rw [hdec]; rfl
  rw [rangeLoop]
  simp only [hhead, digit_not_blank hc, Bool.false_eq_true, if_false, Bool.not_false, true_and,
    digit_ne (d := chr '%') hc (by decide), if_true, getOneAddress_dec s hn hrest, Bool.true_or,
    Bool.not_true]

/-- The first byte of a command ends the addresses in front of it. -/
structure StartsCommand (c : UInt8) : Prop extends EndsAddress c where
  comma : c ≠ chr ','
  semicolon : c ≠ chr ';'

/-- The addresses of `:b,e` are `b` and `e`. -/
theorem getAddress_range (s : Ed) {b e : Nat} (hb : b ≤ 2147483647) (he : e ≤ 2147483647)
    {cmd : List UInt8} (hcmd : StartsCommand (head cmd)) :
    s.getAddress (dec b ++ (chr ',' :: (dec e ++ cmd))) = (some (⟨b, e, 3⟩, cmd), s) := by
  obtain ⟨fuel, hfuel⟩ :
      ∃ fuel, 2 * (dec b ++ (chr ',' :: (dec e ++ cmd))).length + 2 = fuel + 4 := by
    simp only [List.length_append, List.length_cons]
    exact ⟨2 * ((dec b).length + ((dec e).length + cmd.length + 1)) - 2, by omega⟩
  have hcomma : EndsAddress (chr ',') := ⟨by decide, by decide, by decide, by decide⟩
  have h₁ := rangeLoop_dec s hb (show EndsAddress (head (chr ',' :: (dec e ++ cmd))) from hcomma)
    (fuel + 3) ⟨-1, -1, 0⟩
  have h₂ : rangeLoop (fuel + 3) true ⟨-1, b, 1⟩ (chr ',' :: (dec e ++ cmd)) s =
      rangeLoop (fuel + 2) false ⟨-1, b, 1⟩ (dec e ++ cmd) s := by
    rw [rangeLoop]
    simp only [List.headD_cons, hcomma.blank, Bool.false_eq_true, if_false, Bool.not_true, false_and,
      true_or, if_true, show chr ',' ≠ chr ';' by decide, List.drop_succ_cons, List.drop_zero]
  have h₃ := rangeLoop_dec s he hcmd.toEndsAddress (fuel + 1) ⟨-1, b, 1⟩
  have h₄ : rangeLoop (fuel + 1) true ⟨b, e, 3⟩ cmd s = (some (⟨b, e, 3⟩, cmd), s) := by
    rw [rangeLoop]
    simp only [hcmd.blank, Bool.false_eq_true, if_false, Bool.not_true, false_and, hcmd.comma,
      hcmd.semicolon, or_self]
  have hloop : rangeLoop (fuel + 4) false ⟨-1, -1, 0⟩ (dec b ++ (chr ',' :: (dec e ++ cmd))) s =
      (some (⟨b, e, 3⟩, cmd), s) := h₁.trans (h₂.trans (h₃.trans h₄))
  unfold getAddress
  dsimp only
  rw [hfuel, hloop]

end Ed

/-! ## Where the lines are -/

namespace Buf

variable {s : Buf}

/-- How many bytes there are before line `k`, counted from 0. -/
def lineOffset (s : Buf) (k : Nat) : Nat := (s.lines.take k).flatten.length

theorem bytes_lines (s : Buf) (k : Nat) :
    s.bytes = (s.lines.take k).flatten ++ (s.lines.drop k).flatten := by
  rw [← List.flatten_append, List.take_append_drop]
  exact (runs_flatten NL s.bytes).symm

theorem take_lineOffset (s : Buf) (k : Nat) :
    s.bytes.take (s.lineOffset k) = (s.lines.take k).flatten := by
  conv_lhs => rw [s.bytes_lines k]
  exact List.take_left' rfl

theorem drop_lineOffset (s : Buf) (k : Nat) :
    s.bytes.drop (s.lineOffset k) = (s.lines.drop k).flatten := by
  conv_lhs => rw [s.bytes_lines k]
  exact List.drop_left' rfl

theorem lineOffset_le (s : Buf) (k : Nat) : s.lineOffset k ≤ s.bytes.length := by
  rw [s.bytes_lines k, List.length_append]
  exact Nat.le_add_right ..

theorem lineOffset_all (s : Buf) : s.lineOffset s.lines.length = s.bytes.length := by
  unfold lineOffset
  rw [List.take_length]
  exact congrArg List.length (runs_flatten NL s.bytes)

/-- A text put together from lines has these lines, and is not empty. -/
theorem lines_of_pieces {rs : List (List UInt8)} (h : s.bytes = rs.flatten)
    (hp : ∀ r ∈ rs, Piece NL r) (hne : rs ≠ []) : s.lines = rs ∧ s.text ≠ s.end_ := by
  constructor
  · unfold lines
    rw [h]
    exact runs_of_pieces hp
  · have hlast := getLast?_pieces hp hne
    refine text_ne_end fun hnil => ?_
    rw [← h, hnil] at hlast
    cases hlast

theorem lineOffset_add {k : Nat} (hk : k < s.lines.length) :
    s.lineOffset (k + 1) = s.lineOffset k + s.lines[k].length := by
  unfold lineOffset
  rw [List.take_succ_eq_append_getElem hk, List.flatten_append, List.length_append,
    List.flatten_singleton]

section Terminated

variable (hnl : s.bytes.getLast? = some NL)

include hnl

theorem ne_nil_of_newline : s.bytes ≠ [] := by
  intro h
  rw [h] at hnl
  cases hnl

theorem lines_pieces : ∀ r ∈ s.lines, Piece NL r := runs_terminated hnl

/-- A line has at least its newline. -/
theorem lineOffset_succ {k : Nat} (hk : k < s.lines.length) : s.lineOffset k < s.lineOffset (k + 1) := by
  obtain ⟨pre, hpre, -⟩ := lines_pieces hnl _ (List.getElem_mem hk)
  rw [lineOffset_add hk, hpre]
  simp

theorem lineOffset_lt {j k : Nat} (hjk : j < k) (hk : k ≤ s.lines.length) :
    s.lineOffset j < s.lineOffset k := by
  induction k with
  | zero => omega
  | succ k ih =>
    have hstep := lineOffset_succ hnl (k := k) (by omega)
    rcases Nat.lt_or_eq_of_le (Nat.le_of_lt_succ hjk) with h | rfl
    · exact (ih h (by omega)).trans hstep
    · exact hstep

theorem le_lineOffset : ∀ {k : Nat}, k ≤ s.lines.length → k ≤ s.lineOffset k
  | 0, _ => Nat.zero_le _
  | k + 1, hk => by
    have ih := le_lineOffset (k := k) (by omega)
    have hstep := lineOffset_succ hnl (k := k) (by omega)
    omega

theorem newlines_offset {k : Nat} (hk : k ≤ s.lines.length) :
    s.newlines s.text (s.text + s.lineOffset k) = k := by
  have hle := s.lineOffset_le k
  have hlen := s.length_bytes
  unfold newlines
  rw [show (s.text + (s.lineOffset k : Int) - s.text).toNat = s.lineOffset k by omega]
  have htake := s.take_lineOffset k
  unfold bytes at htake
  rw [take_slice _ _ (by omega)] at htake
  rw [htake, count_pieces fun r hr => lines_pieces hnl r (List.mem_of_mem_take hr), List.length_take]
  exact Nat.min_eq_left hk

/-- The byte before a line is a newline. -/
theorem mem_before_line {k : Nat} (hk : k < s.lines.length) :
    s.mem (s.text + s.lineOffset (k + 1) - 1) = NL := by
  have hlt := lineOffset_succ hnl hk
  have hle := s.lineOffset_le (k + 1)
  have hlast : (s.lines.take (k + 1)).flatten.getLast? = some NL :=
    getLast?_pieces (fun r hr => lines_pieces hnl r (List.mem_of_mem_take hr))
      (List.ne_nil_of_length_pos (by rw [List.length_take]; omega))
  rw [← s.take_lineOffset (k + 1), List.getLast?_eq_getElem?, List.length_take,
    Nat.min_eq_left hle, List.getElem?_take_of_lt (by omega)] at hlast
  obtain ⟨hi, hget⟩ := List.getElem?_eq_some_iff.mp hlast
  have hmem := getElem_slice s.mem s.text _ _ hi
  rw [← hget, show s.text + (s.lineOffset (k + 1) : Int) - 1 =
    s.text + ((s.lineOffset (k + 1) - 1 : Nat) : Int) by omega]
  exact hmem.symm

/-- `find_line` goes to the line. -/
theorem findLine_offset {k : Nat} (hk : k < s.lines.length) :
    s.findLine ((k + 1 : Nat) : Int) = s.text + s.lineOffset k := by
  have hlt := lineOffset_succ hnl hk
  have hle := s.lineOffset_le (k + 1)
  have hlen := s.length_bytes
  have hcount := newlines_offset hnl hk.le
  have hstart : s.text < s.text + s.lineOffset k → s.mem (s.text + s.lineOffset k - 1) = NL := by
    intro h
    obtain ⟨j, rfl⟩ : ∃ j, k = j + 1 := Nat.exists_eq_succ_of_ne_zero (by
      rintro rfl
      simp [lineOffset] at h)
    exact mem_before_line hnl (by omega)
  have := s.iterate_nextLine_eq (p := s.text) (q := s.text + s.lineOffset k) (by omega) (by omega) hstart
  rw [hcount] at this
  unfold findLine
  rw [show (((k + 1 : Nat) : Int) - 1).toNat = k by omega]
  exact this

/-- The line ends before the next one. -/
theorem endLine_offset {k : Nat} (hk : k < s.lines.length) :
    s.endLine (s.text + s.lineOffset k) = s.text + s.lineOffset (k + 1) - 1 := by
  have hlt := lineOffset_succ hnl hk
  have hle := s.lineOffset_le (k + 1)
  have hlen := s.length_bytes
  have h₀ := newlines_offset hnl hk.le
  have h₁ := newlines_offset hnl (k := k + 1) (by omega)
  have hlast := mem_before_line hnl hk
  generalize hp : s.text + (s.lineOffset k : Int) = p at h₀ ⊢
  generalize hq : s.text + (s.lineOffset (k + 1) : Int) - 1 = q at hlast ⊢
  rw [show s.text + (s.lineOffset (k + 1) : Int) = q + 1 by omega] at h₁
  have hstop : s.endLine p ≤ q := s.endLine_le_stop (by omega) (.inl hlast)
  by_contra hne
  have hge := s.le_endLine p
  have hnewline : s.mem (s.endLine p) = NL := by
    rcases s.endLine_stop (p := p) (by omega) with h | h
    · exact h
    · omega
  have hone := s.newlines_endLine p
  rw [if_pos hnewline] at hone
  have hadd₁ := s.newlines_add (p := s.text) (q := p) (r := q + 1) (by omega) (by omega)
  have hadd₂ := s.newlines_add (p := p) (q := s.endLine p + 1) (r := q + 1) (by omega) (by omega)
  have hadd₃ := s.newlines_add (p := s.endLine p + 1) (q := q) (r := q + 1) (by omega) (by omega)
  have hq₁ := s.newlines_one q
  rw [if_pos hlast] at hq₁
  omega

/-- All lines are counted. -/
theorem countLines_all : s.countLines s.text (s.end_ - 1) = s.lines.length := by
  have hlen := s.length_bytes
  have hne := List.length_pos_of_ne_nil (ne_nil_of_newline hnl)
  have hall := newlines_offset hnl (Nat.le_refl _)
  rw [lineOffset_all, show s.text + (s.bytes.length : Int) = s.end_ by omega] at hall
  rw [countLines_eq s (by omega) (by omega), s.endLine_of_ge (Int.le_refl _), Int.sub_add_cancel, hall]

end Terminated

end Buf

namespace Ed

/-! ## The deletion -/

/-- The lines from `b` to `e`, counted from 1. -/
def linesRange (s : Ed) (b e : Nat) : List UInt8 := ((s.lines.take e).drop (b - 1)).flatten

/-- `:b,e`. -/
theorem resolve_range {s : Ed} (hnl : s.bytes.getLast? = some NL) {b e : Nat} (hb : 1 ≤ b)
    (hbe : b ≤ e) (he : e ≤ s.lines.length) :
    s.resolve ⟨b, e, 3⟩ =
      some ⟨⟨b, e, 3⟩, s.text + s.lineOffset (b - 1), s.text + s.lineOffset e - 1⟩ := by
  have hall := Buf.countLines_all hnl
  have hb' := Buf.findLine_offset hnl (k := b - 1) (by omega)
  have he' := Buf.findLine_offset hnl (k := e - 1) (by omega)
  have hend := Buf.endLine_offset hnl (k := e - 1) (by omega)
  rw [show b - 1 + 1 = b by omega] at hb'
  rw [show e - 1 + 1 = e by omega] at he' hend
  unfold resolve
  dsimp only
  rw [if_neg (by decide), if_neg (by omega), if_neg (by decide), if_neg (by omega), hb', he', hend]

/-- The lines between two offsets. -/
theorem slice_lines {s : Ed} {b e : Nat} (hbe : b ≤ e) :
    slice s.mem (s.text + s.lineOffset (b - 1)) (s.lineOffset e - s.lineOffset (b - 1)) =
      s.linesRange b e := by
  have hle := s.lineOffset_le e
  have hlen := s.length_bytes
  have htake := s.take_lineOffset e
  have hsplit : (s.lines.take e).flatten = (s.lines.take (b - 1)).flatten ++ s.linesRange b e := by
    unfold linesRange
    conv_lhs => rw [← List.take_append_drop (b - 1) (s.lines.take e)]
    rw [List.flatten_append, List.take_take, Nat.min_eq_left (by omega)]
  have hoff : s.lineOffset (b - 1) ≤ s.lineOffset e := by
    have := congrArg List.length hsplit
    rw [List.length_append] at this
    unfold Buf.lineOffset
    omega
  unfold Buf.bytes at htake
  rw [take_slice _ _ (by omega), hsplit] at htake
  rw [← drop_slice _ _ hoff, htake]
  exact List.drop_left' rfl

/-- `yank_delete` of lines: the yank, then the deletion. -/
theorem yankDeleteDot_whole {s : Ed} {p q : Int} (h : p ≤ q) :
    s.yankDeleteDot p q .whole true .allow =
      { ((s.textYank p q s.ydreg .whole).textHoleDelete p q .allow).2 with
        dot := ((s.textYank p q s.ydreg .whole).textHoleDelete p q .allow).1 } := by
  unfold yankDeleteDot yankDelete
  simp only [show ¬ p > q by omega, reduceCtorEq, false_and, if_false, if_true]

/-- What `yank_delete` yanks. -/
theorem yankDeleteDot_reg {s : Ed} {p q : Int} (h₀ : s.text ≤ p) (h₁ : p ≤ q) (h₂ : q < s.end_) :
    (s.yankDeleteDot p q .whole true .allow).reg s.ydreg =
        some ⟨(slice s.mem p (q - p + 1).toNat).takeWhile (· != 0), s.regSerial⟩ ∧
      (s.yankDeleteDot p q .whole true .allow).regtype s.ydreg = .whole := by
  have hst := textHoleDelete_state (s.textYank p q s.ydreg .whole) h₀ h₁ h₂ .allow
  rw [yankDeleteDot_whole h₁, hst]
  simp only [textYank, show ¬ q - p < 0 by omega, if_false, Function.update_self, and_self]

/-- Lines are left: the object on top takes the deletion back. -/
theorem rangeDelete_part {s : Ed} (hf : s.Fits) (hnl : s.bytes.getLast? = some NL) {b e : Nat}
    (hb : 1 ≤ b) (hbe : b ≤ e) (he : e ≤ s.lines.length) (hpart : ¬ (b = 1 ∧ e = s.lines.length)) :
    (s.yankDeleteDot (s.text + s.lineOffset (b - 1)) (s.text + s.lineOffset e - 1) .whole true
        .allow).bytes = (s.lines.take (b - 1) ++ s.lines.drop e).flatten ∧
      ∃ x, EditOp.Recorded s (.delete (s.lineOffset (b - 1)) (s.lineOffset e - 1) false) x
        (s.yankDeleteDot (s.text + s.lineOffset (b - 1)) (s.text + s.lineOffset e - 1) .whole true
          .allow) := by
  have hlt := Buf.lineOffset_lt hnl (j := b - 1) (k := e) (by omega) he
  have hle := s.lineOffset_le e
  have hlen := s.length_bytes
  have hall := s.lineOffset_all
  have hfirst : s.lineOffset 0 = 0 := rfl
  have hpart' : s.lineOffset e - s.lineOffset (b - 1) < s.bytes.length := by
    rcases Nat.lt_or_eq_of_le hb with h | rfl
    · have := Buf.lineOffset_lt hnl (j := 0) (k := b - 1) (by omega) (by omega)
      omega
    · have := Buf.lineOffset_lt hnl (j := e) (k := s.lines.length) (by omega) (Nat.le_refl _)
      omega
  have h₀ : s.text ≤ s.text + s.lineOffset (b - 1) := by omega
  have h₁ : s.text + s.lineOffset (b - 1) ≤ s.text + (s.lineOffset e : Int) - 1 := by omega
  have h₂ : s.text + (s.lineOffset e : Int) - 1 < s.end_ := by omega
  have hq : s.text + ((s.lineOffset e - 1 : Nat) : Int) = s.text + (s.lineOffset e : Int) - 1 := by
    omega
  have hyank := yankDeleteDot_whole (s := s) h₁
  generalize hs' : s.textYank (s.text + s.lineOffset (b - 1)) (s.text + s.lineOffset e - 1) s.ydreg
    .whole = s' at hyank
  have hbuf : s'.toBuf = s.toBuf := by rw [← hs']; rfl
  have hundos : s'.toUndos = s.toUndos := by rw [← hs']; rfl
  have hf' : s'.Fits := by rw [hbuf]; exact hf
  have hin : EditOp.InRange s' (.delete (s.lineOffset (b - 1)) (s.lineOffset e - 1) false) :=
    ⟨by omega, by rw [hbuf]; omega, by rw [hbuf]; omega⟩
  obtain ⟨x, hx⟩ := EditOp.delete_recorded hf' hin
  have htext : s'.text = s.text := congrArg Buf.text hbuf
  have hend : s'.end_ = s.end_ := congrArg Buf.end_ hbuf
  have happly : EditOp.apply s' (.delete (s.lineOffset (b - 1)) (s.lineOffset e - 1) false) =
      (s'.textHoleDelete (s.text + s.lineOffset (b - 1)) (s.text + s.lineOffset e - 1) .allow).2 := by
    unfold EditOp.apply
    dsimp only
    rw [htext, hq]
    rfl
  have hbytes := textHoleDelete_bytes s' (by rw [htext]; exact h₀) h₁ (by rw [hend]; exact h₂) .allow
  rw [hbuf, show (s.text + (s.lineOffset (b - 1) : Int) - s.text).toNat = s.lineOffset (b - 1) by omega,
    show (s.text + (s.lineOffset e : Int) - 1 + 1 - s.text).toNat = s.lineOffset e by omega,
    s.take_lineOffset, s.drop_lineOffset, ← List.flatten_append] at hbytes
  rw [happly] at hx
  rw [hyank]
  refine ⟨hbytes, x, ?_⟩
  refine ⟨hx.stack.trans (by rw [hundos]), hx.chained, hx.sound, hx.revert.trans (by rw [hbuf]),
    ⟨hx.fits.1, hx.fits.2⟩, ?_, hx.queue.trans (by rw [hundos])⟩
  have hsize := hx.size
  rw [hbuf] at hsize
  exact hsize

/-- A command with the addresses `b,e`. -/
theorem colon_addressed {s : Ed} (hnl : s.bytes.getLast? = some NL)
    (hsize : s.bytes.length ≤ 2147483647) {b e : Nat} (hb : 1 ≤ b) (hbe : b ≤ e)
    (he : e ≤ s.lines.length) {cmd : List UInt8} (hcmd : StartsCommand (head cmd)) :
    s.colon (str ":" ++ dec b ++ str "," ++ dec e ++ cmd) =
      (s.colonCommand cmd ⟨⟨b, e, 3⟩, s.text + s.lineOffset (b - 1),
        s.text + s.lineOffset e - 1⟩).bind fun x => if x.1 then x.2.boundHere else some x.2 := by
  have hlines := Buf.le_lineOffset hnl (Nat.le_refl s.lines.length)
  rw [s.lineOffset_all] at hlines
  obtain ⟨c, l, hdec, hc⟩ := dec_cons b
  have hline : str ":" ++ dec b ++ str "," ++ dec e ++ cmd =
      chr ':' :: (dec b ++ (chr ',' :: (dec e ++ cmd))) := by
    simp only [show str ":" = [chr ':'] from rfl, show str "," = [chr ','] from rfl,
      List.append_assoc, List.nil_append, List.cons_append]
  have hbuf : ((str ":" ++ dec b ++ str "," ++ dec e ++ cmd).dropWhile (· == chr ':')).dropWhile
      isblank = dec b ++ (chr ',' :: (dec e ++ cmd)) := by
    have hcolon : (c == chr ':') = false := by simpa using digit_ne hc (by decide)
    rw [hline, List.dropWhile_cons_of_pos (by decide), hdec, List.cons_append,
      List.dropWhile_cons_of_neg (by rw [hcolon]; decide),
      List.dropWhile_cons_of_neg (by rw [digit_not_blank hc]; decide)]
  have hhead : ¬ (dec b ++ (chr ',' :: (dec e ++ cmd)) = [] ∨
      head (dec b ++ (chr ',' :: (dec e ++ cmd))) = chr '"') := by
    rw [hdec]
    rintro (h | h)
    · cases h
    · exact digit_ne hc (by decide) h
  unfold colon
  rw [hbuf, if_neg hhead]
  simp only [getAddress_range s (show b ≤ 2147483647 by omega) (show e ≤ 2147483647 by omega) hcmd,
    resolve_range hnl hb hbe he, Option.bind_eq_bind]

/-- `:b,ed` up to its end. -/
theorem colon_range {s t : Ed} (hnl : s.bytes.getLast? = some NL) (hsize : s.bytes.length ≤ 2147483647)
    {b e : Nat} (hb : 1 ≤ b) (hbe : b ≤ e) (he : e ≤ s.lines.length)
    (h : s.colon (str ":" ++ dec b ++ str "," ++ dec e ++ str "d") = some t) :
    Glanced (s.yankDeleteDot (s.text + s.lineOffset (b - 1)) (s.text + s.lineOffset e - 1) .whole true
      .allow) t := by
  have hcmd : StartsCommand (head (str "d")) :=
    ⟨⟨by decide, by decide, by decide, by decide⟩, by decide, by decide⟩
  have hdelete : ∀ T : Target, s.colonCommand (str "d") T = some (true, s.colonDelete T) :=
    colonCommand_delete s
  rw [colon_addressed hnl hsize hb hbe he hcmd, hdelete, Option.bind_some, if_pos rfl,
    colonDelete_range (by simp [Target.gotAddress])] at h
  exact (dotSkipOverWs_looked _).trans (boundHere_looked h)

/-- Popping one recorded operation. -/
theorem undoPop_recorded {s t : Ed} {op : EditOp} {x : UndoObject} (hr : EditOp.Recorded s op x t)
    (hf : s.Fits) (hq : s.undoQ = 0) (hop : op.chained = false) : t.undoPop.bytes = s.bytes := by
  have hlen := Buf.length_bytes s.toBuf
  have hlt := hf.lt_size
  have hpop := undoPop_single (hr.queue.trans hq) hr.stack (hr.chained.trans hop)
  have hsize : ((x.entry.change.revert t.bytes).length : Int) < t.textSize := by
    rw [hr.revert]
    have := hr.size
    have := hf.text_le_end
    omega
  rw [hpop, popObject_buf]
  exact (undoApply_reverted hr.fits hr.sound hsize).bytes.trans hr.revert

/-- Looking does not matter. -/
theorem Recorded.looked {s t u : Ed} {op : EditOp} {x : UndoObject} (hr : EditOp.Recorded s op x t)
    (hq : s.undoQ = 0) (hl : Glanced t u) : EditOp.Recorded s op x u := by
  have hu := hl.toUndos_eq (hr.queue.trans hq)
  have hbytes := hl.bytes
  have hsize := hr.size
  rw [← congrArg Buf.textSize hl.buf] at hsize
  exact ⟨(congrArg Undos.undoStack hu).trans hr.stack, hr.chained, by rw [hbytes]; exact hr.sound,
    by rw [hbytes]; exact hr.revert, by rw [hl.buf]; exact hr.fits, hsize,
    (congrArg Undos.undoQ hu).trans hr.queue⟩

/-- One `u` behind one recorded operation. -/
theorem undo_recorded {s t u : Ed} {op : EditOp} {x : UndoObject} (hr : EditOp.Recorded s op x t)
    (hf : s.Fits) (hne : s.bytes ≠ []) (hq : s.undoQ = 0) (hop : op.chained = false)
    (hm : t.cmdMode = .command) (hu : doCmd (key 'u') t = some u) : u.bytes = s.bytes := by
  refine doCmd_undo_bytes hm hne (fun v hl => ?_) hu
  exact undoPop_recorded (Recorded.looked hr hq hl) hf hq hop

/-- Deleting changes neither the mode nor the queue. -/
theorem yankDeleteDot_cmdMode {s : Ed} {p q : Int} (h₀ : s.text ≤ p) (h₁ : p ≤ q) (h₂ : q < s.end_) :
    (s.yankDeleteDot p q .whole true .allow).cmdMode = s.cmdMode ∧
      (s.yankDeleteDot p q .whole true .allow).undoQ = s.undoQ := by
  have hst := textHoleDelete_state (s.textYank p q s.ydreg .whole) h₀ h₁ h₂ .allow
  rw [yankDeleteDot_whole h₁, hst]
  exact ⟨rfl, rfl⟩

/-- The bytes of a range of lines are bytes of the text. -/
theorem mem_linesRange {s : Ed} {b e : Nat} {x : UInt8} (h : x ∈ s.linesRange b e) : x ∈ s.bytes := by
  obtain ⟨l, hl, hx⟩ := List.mem_flatten.mp h
  have hmem : l ∈ s.lines := List.mem_of_mem_take (List.mem_of_mem_drop hl)
  have hflat : s.lines.flatten = s.bytes := runs_flatten NL s.bytes
  rw [← hflat]
  exact List.mem_flatten.mpr ⟨l, hmem, hx⟩

/-- What the command and one `u` behind it do. -/
structure RangeDeleted (s : Ed) (b e : Nat) (t : Ed) : Prop where
  lines : t.lines = if b = 1 ∧ e = s.lines.length then [[NL]]
    else s.lines.take (b - 1) ++ s.lines.drop e
  body : ∃ r, t.reg s.ydreg = some r ∧ r.body = s.linesRange b e
  whole : t.regtype s.ydreg = .whole
  undone : ∀ u, doCmd (key 'u') t = some u → u.bytes = s.bytes

/-- From the deletion to the end of `do_cmd`. -/
theorem rangeDelete_end {s w t : Ed} {b e : Nat} {c o : Int} (hf : s.Fits) (hnul : 0 ∉ s.bytes)
    (hnl : s.bytes.getLast? = some NL) (hq : s.undoQ = 0) (hm : s.cmdMode = .command) (hb : 1 ≤ b)
    (hbe : b ≤ e) (he : e ≤ s.lines.length)
    (hl : Glanced (s.yankDeleteDot (s.text + s.lineOffset (b - 1)) (s.text + s.lineOffset e - 1) .whole
      true .allow) w) (ht : w.epilogue c o = some t) : RangeDeleted s b e t := by
  have hlt := Buf.lineOffset_lt hnl (j := b - 1) (k := e) (by omega) he
  have hle := s.lineOffset_le e
  have hlen := s.length_bytes
  have hne := Buf.ne_nil_of_newline hnl
  have h₀ : s.text ≤ s.text + s.lineOffset (b - 1) := by omega
  have h₁ : s.text + s.lineOffset (b - 1) ≤ s.text + (s.lineOffset e : Int) - 1 := by omega
  have h₂ : s.text + (s.lineOffset e : Int) - 1 < s.end_ := by omega
  obtain ⟨hreg, htype⟩ := yankDeleteDot_reg h₀ h₁ h₂
  obtain ⟨hmode, hyq⟩ := yankDeleteDot_cmdMode h₀ h₁ h₂
  rw [hq] at hyq
  generalize hy : s.yankDeleteDot (s.text + s.lineOffset (b - 1)) (s.text + s.lineOffset e - 1) .whole
    true .allow = y at hl hreg htype hmode hyq
  have hwq : w.undoQ = 0 := (congrArg Undos.undoQ (hl.toUndos_eq hyq)).trans hyq
  obtain ⟨hreg', htype'⟩ := epilogue_reg hwq ht
  have hbody : (slice s.mem (s.text + s.lineOffset (b - 1)) (s.text + (s.lineOffset e : Int) - 1 -
      (s.text + s.lineOffset (b - 1)) + 1).toNat).takeWhile (· != 0) = s.linesRange b e := by
    rw [show (s.text + (s.lineOffset e : Int) - 1 - (s.text + s.lineOffset (b - 1)) + 1).toNat =
      s.lineOffset e - s.lineOffset (b - 1) by omega, slice_lines hbe, List.takeWhile_eq_self_iff]
    intro x hx
    rw [bne_iff_ne]
    rintro rfl
    exact hnul (mem_linesRange hx)
  have hlines : t.lines = (if b = 1 ∧ e = s.lines.length then [[NL]]
      else s.lines.take (b - 1) ++ s.lines.drop e) ∧
        ∀ u, doCmd (key 'u') t = some u → u.bytes = s.bytes := by
    by_cases hall : b = 1 ∧ e = s.lines.length
    · obtain ⟨rfl, rfl⟩ := hall
      have hall := s.lineOffset_all
      have hfirst : s.lineOffset (1 - 1) = 0 := rfl
      have hemptied := yankDeleteDot_all (t := .whole) hf (by omega) hq (by simp)
      rw [show s.text + (s.lineOffset (1 - 1) : Int) = s.text by omega,
        show s.text + (s.lineOffset s.lines.length : Int) - 1 = s.end_ - 1 by omega] at hy
      rw [hy] at hemptied
      have hrefilled := epilogue_emptied (hemptied.looked hl) ht
      refine ⟨?_, fun u hu => ?_⟩
      · rw [if_pos ⟨rfl, rfl⟩]
        unfold Buf.lines
        rw [hrefilled.bytes]
        rfl
      · rw [undo_refilled hf (by omega) hrefilled hm hu]
        exact List.dropLast_append_getLast? NL hnl
    · obtain ⟨hbytes, x, hr⟩ := rangeDelete_part hf hnl hb hbe he hall
      rw [hy] at hbytes hr
      have hpieces : ∀ r ∈ s.lines.take (b - 1) ++ s.lines.drop e, Piece NL r := by
        intro r hr
        rcases List.mem_append.mp hr with h | h
        · exact Buf.lines_pieces hnl r (List.mem_of_mem_take h)
        · exact Buf.lines_pieces hnl r (List.mem_of_mem_drop h)
      have hsome : s.lines.take (b - 1) ++ s.lines.drop e ≠ [] := List.ne_nil_of_length_pos (by
        rw [List.length_append, List.length_take, List.length_drop]
        omega)
      obtain ⟨hwlines, hwne⟩ := Buf.lines_of_pieces (hl.bytes.trans hbytes) hpieces hsome
      have hlook := epilogue_looked hwne ht
      refine ⟨?_, fun u hu => ?_⟩
      · rw [if_neg hall, hlook.buf]
        exact hwlines
      · exact undo_recorded (Recorded.looked hr hq (hl.trans hlook)) hf hne hq rfl
          (hlook.cmdMode.trans (hl.cmdMode.trans (hmode.trans hm))) hu
  exact ⟨hlines.1, ⟨_, by rw [hreg', hl.reg, hreg], hbody⟩, by rw [htype', hl.regtype, htype], hlines.2⟩

/-- **Deleting a range of lines.**  `:b,ed` leaves the other lines, or an empty one; it yanks the
lines, and one `u` puts them back. -/
theorem rangeDelete_undone {s t : Ed} {b e : Nat} (hf : s.Fits) (hsize : s.textSize ≤ 2147483647)
    (hnul : 0 ∉ s.bytes) (hnl : s.bytes.getLast? = some NL) (hq : s.undoQ = 0)
    (hm : s.cmdMode = .command) (hb : 1 ≤ b) (hbe : b ≤ e) (he : e ≤ s.lines.length)
    (typed : s.TypesLine (str ":" ++ dec b ++ str "," ++ dec e ++ str "d"))
    (run : doCmd (key ':') s = some t) : RangeDeleted s b e t := by
  have hlen := s.length_bytes
  have hlt := hf.lt_size
  obtain ⟨s₁, v, w, o, hl, ⟨hyd, -⟩, hcolon, hstatus, ht⟩ := doCmd_colon hm typed run
  have hbuf := hl.buf
  have hbytes := hl.bytes
  have hlines : s₁.lines = s.lines := by rw [hbuf]
  have hlook := colon_range (s := s₁) (by rw [hbytes]; exact hnl) (by rw [hbytes]; omega) hb hbe
    (by rw [hlines]; exact he) hcolon
  obtain ⟨h₁, h₂, h₃, h₄⟩ := rangeDelete_end (s := s₁) (by rw [hbuf]; exact hf)
    (by rw [hbytes]; exact hnul) (by rw [hbytes]; exact hnl)
    ((congrArg Undos.undoQ (hl.toUndos_eq hq)).trans hq) (hl.cmdMode.trans hm) hb hbe
    (by rw [hlines]; exact he) (hlook.trans (showStatusLine_looked hstatus)) ht
  unfold linesRange at h₂
  rw [hlines] at h₁ h₂
  rw [hyd] at h₂ h₃
  rw [hbytes] at h₄
  exact ⟨h₁, h₂, h₃, h₄⟩

/-- Two lines, with `1,1d` to come. -/
def twoLines : Ed :=
  { EditOp.holding [97, NL, 98, NL] with
    rows := 24
    columns := 80
    tabstop := 8
    env := { Env.still with keys := ['1', ',', '1', 'd', '\n'].map fun c => ⟨key c, false⟩ } }

/-- `:1,1d` on two lines. -/
theorem rangeDelete_undone_first :
    ∃ t, doCmd (key ':') twoLines = some t ∧ RangeDeleted twoLines 1 1 t := by
  have hrun : (doCmd (key ':') twoLines).isSome := by decide +kernel
  obtain ⟨t, ht⟩ := Option.isSome_iff_exists.mp hrun
  refine ⟨t, ht, rangeDelete_undone ⟨by decide, by decide⟩ (by decide) (by decide) (by decide) rfl rfl
    (Nat.le_refl 1) (Nat.le_refl 1) (by decide +kernel) (.of_map ?_) ht⟩
  decide +kernel

/-- A line with a tab in front, `autoindent` being set, and the keys behind a `:` to come. -/
def tabLine (line : List Char) : Ed :=
  { EditOp.holding [9, 97, NL] with
    rows := 24
    columns := 80
    tabstop := 8
    autoindent := true
    env := { Env.still with keys := line.map fun c => ⟨key c, false⟩ } }

theorem tabLine_loaded (line : List Char) : (tabLine line).Loaded := by
  refine ⟨⟨?_, ?_⟩, rfl, rfl, rfl⟩
  · show (4096 : Int) ≤ 4096 + 3
    decide
  · show (4096 : Int) + 3 - 4096 < 10240
    decide

/-- Behind `o` and ESC the tab that was taken out of the new line is still queued. -/
theorem rangeDelete_queued :
    ¬ ∀ (r s t : Ed) (b e : Nat), r.Loaded → (doCmd (key 'o') r).bind (doCmd 27) = some s → s.Fits →
      s.textSize ≤ 2147483647 → 0 ∉ s.bytes → s.bytes.getLast? = some NL → s.cmdMode = .command →
      1 ≤ b → b ≤ e → e ≤ s.lines.length →
      s.TypesLine (str ":" ++ dec b ++ str "," ++ dec e ++ str "d") → doCmd (key ':') s = some t →
      RangeDeleted s b e t := by
  intro h
  obtain ⟨r, hr⟩ : ∃ r, tabLine ['1', ',', '1', 'd', '\n'] = r := ⟨_, rfl⟩
  have h₁ : ((doCmd (key 'o') r).bind (doCmd 27)).isSome := by
    rw [← hr]
    decide +kernel
  have h₂ : ∀ s ∈ (doCmd (key 'o') r).bind (doCmd 27), (s.text ≤ s.end_ ∧ s.end_ - s.text < s.textSize ∧
      s.textSize ≤ 2147483647 ∧ s.bytes = [9, 97, NL, NL] ∧ s.cmdMode = .command ∧
      s.lines.length = 2) ∧ (s.statusOff.bind fun s₀ =>
        ({ s₀ with viVisual := false } : Ed).getInputLine (str ":")).map Prod.fst = some (str ":1,1d") ∧
      (doCmd (key ':') s).isSome ∧ ∀ t ∈ doCmd (key ':') s, (doCmd (key 'u') t).isSome ∧
        ∀ u ∈ doCmd (key 'u') t, u.bytes = [NL] := by
    rw [← hr]
    decide +kernel
  obtain ⟨s, hs⟩ := Option.isSome_iff_exists.mp h₁
  obtain ⟨⟨hle, hlt, hsize, hbytes, hmode, hlines⟩, hline, hrun, h₃⟩ := h₂ s hs
  obtain ⟨t, ht⟩ := Option.isSome_iff_exists.mp hrun
  obtain ⟨hundo, hbad⟩ := h₃ t ht
  obtain ⟨u, hu⟩ := Option.isSome_iff_exists.mp hundo
  have hloaded : r.Loaded := by
    rw [← hr]
    exact tabLine_loaded _
  have hgood := h r s t 1 1 hloaded hs ⟨hle, hlt⟩ hsize (by rw [hbytes]; decide) (by rw [hbytes]; rfl)
    hmode (Nat.le_refl 1) (Nat.le_refl 1) (by omega) (.of_map hline) ht
  have := hgood.undone u hu
  rw [hbad u hu, hbytes] at this
  exact absurd this (by decide)

end Ed

end Evim
