import Ewokos.Evim.Newline
import Ewokos.Evim.Onscreen
import Ewokos.Lib.Columns

/-!
# evim: the newline under `autoindent`

What `char_insert` of a newline does to the text when `autoindent` looks at the leading blanks of
the line that it ends, or of the line that `O` opens a line above.

* `autoIndent_cases` — nothing more, blanks on the new line, or the blanks pushed over the byte
  behind them.
* `autoIndent_column` — the blanks put on the new line reach the column of those they are taken from.
* `enter_harmless_iff` — when the newline leaves the other bytes alone.
-/

set_option autoImplicit false

namespace Evim

open Cells Columns
open CString hiding strchr

namespace Buf

variable {s u : Buf} {p a b : Int} {n : Nat}

/-! ## Lines and their leading blanks -/

theorem beginLine_unique {q : Int} (h : s.LineStart q) (hle : q ≤ p)
    (hno : ∀ i, q ≤ i → i < p → s.mem i ≠ NL) : s.beginLine p = q := by
  have htext := h.text_le
  have hbe := s.beginLine_le p
  have hge := s.text_le_beginLine (p := p) (by omega)
  rcases Int.lt_trichotomy (s.beginLine p) q with hlt | heq | hgt
  · exact absurd (h.newline (by omega)) (s.beginLine_noNL (p := p) (by omega) (by omega))
  · exact heq
  · rcases s.beginLine_start (p := p) (by omega) with hs | hs
    · omega
    · exact absurd hs.2 (hno _ (by omega) (by omega))

/-- The first `n` bytes of `[a, b)` are its leading blanks. -/
structure Leading (s : Buf) (a b : Int) (n : Nat) : Prop where
  le : a + n ≤ b
  blank : ∀ i, a ≤ i → i < a + n → isblank (s.mem i) = true
  stop : a + n < b → isblank (s.mem (a + n)) = false

theorem isblank_ne_newline {c : UInt8} (h : isblank c = true) : c ≠ NL := by
  rintro rfl
  exact absurd h (by decide)

theorem blankRun_leading : ∀ {k : Nat} {r : Int} {m : Nat}, s.end_ - 1 - r ≤ k →
    s.Leading r (s.end_ - 1) m → s.blankRun k r = r + m
  | 0, r, m, hk, h => by
    have := h.le
    unfold blankRun
    omega
  | k + 1, r, m, hk, h => by
    unfold blankRun
    cases m with
    | zero =>
      rw [if_neg, Nat.cast_zero, Int.add_zero]
      rintro ⟨hlt, hblank⟩
      have hstop := h.stop (by simpa using hlt)
      rw [Nat.cast_zero, Int.add_zero, hblank] at hstop
      cases hstop
    | succ m =>
      have hle := h.le
      rw [if_pos ⟨by omega, h.blank r (Int.le_refl r) (by omega)⟩]
      have hrest : s.Leading (r + 1) (s.end_ - 1) m := by
        refine ⟨by omega, fun i h₁ h₂ => h.blank i (by omega) (by omega), fun hlt => ?_⟩
        have hstop := h.stop (by omega)
        rw [show r + ((m + 1 : Nat) : Int) = r + 1 + m by omega] at hstop
        exact hstop
      rw [blankRun_leading (by omega) hrest]
      omega

theorem Leading.unique {m : Nat} (h : s.Leading a b n) (h' : s.Leading a b m) : n = m := by
  have hle := h.le
  have hle' := h'.le
  rcases Nat.lt_trichotomy n m with hlt | heq | hgt
  · have hstop := h.stop (by omega)
    rw [h'.blank _ (by omega) (by omega)] at hstop
    cases hstop
  · exact heq
  · have hstop := h'.stop (by omega)
    rw [h.blank _ (by omega) (by omega)] at hstop
    cases hstop

/-- `indent_len` counts the leading blanks, but not the last byte of the text. -/
theorem indentLen_leading (h : s.Leading a (s.end_ - 1) n) : s.indentLen a = n := by
  unfold indentLen
  rw [blankRun_leading (by omega) h]
  omega

end Buf

namespace Ed

variable {s t u : Ed} {p a : Int} {n : Nat}

/-! ## Columns -/

theorem columnAt_slice (s : Ed) (a : Int) (n : Nat) :
    s.columnAt a n = (slice s.mem a n).foldl (fun co c => s.nextColumn c co) 0 := by
  induction n with
  | zero => rfl
  | succ n ih =>
    rw [columnAt, ih, slice_add s.mem a n 1, List.foldl_append, slice_succ, slice_zero]
    rfl

theorem getColumn_columnAt (h : s.LineStart a) (hno : ∀ i, a ≤ i → i < a + n → s.mem i ≠ NL) :
    s.getColumn (a + n) = s.columnAt a n := by
  have hbegin := Buf.beginLine_unique h (by omega) hno
  unfold getColumn
  simp only [hbegin, columnAt_slice, show (a + (n : Int) - a).toNat = n by omega]

theorem lt_nextColumn (hts : 1 ≤ s.tabstop) (c : UInt8) (co : Int) : co < s.nextColumn c co := by
  have hlt := lt_tab (w := s.tabstop) (by omega) co
  unfold nextColumn
  split
  · exact hlt
  · split <;> omega

theorem columnAt_pos (hts : 1 ≤ s.tabstop) (a : Int) : ∀ n : Nat, (n : Int) ≤ s.columnAt a n
  | 0 => Int.le_refl 0
  | n + 1 => by
    have ih := columnAt_pos hts a n
    have hlt := lt_nextColumn hts (s.mem (a + n)) (s.columnAt a n)
    rw [columnAt]
    push_cast
    omega

/-- The blanks that `char_insert` puts on a line to reach a column. -/
def indentation (s : Ed) (col : Int) : List UInt8 :=
  List.replicate (if s.expandtab then 0 else col / s.tabstop).toNat 9 ++
    List.replicate (if s.expandtab then col else col % s.tabstop).toNat 32

theorem foldl_tabs (s : Ed) (n : Nat) (co : Int) :
    (List.replicate n (9 : UInt8)).foldl (fun co c => s.nextColumn c co) co =
      (tab s.tabstop)^[n] co := by
  induction n generalizing co with
  | zero => rfl
  | succ n ih => exact ih _

theorem foldl_spaces (s : Ed) (n : Nat) (co : Int) :
    (List.replicate n (32 : UInt8)).foldl (fun co c => s.nextColumn c co) co = co + n := by
  induction n generalizing co with
  | zero => simp
  | succ n ih =>
    have hstep : s.nextColumn 32 co = co + 1 := rfl
    rw [List.replicate_succ, List.foldl_cons, ih, hstep]
    push_cast
    omega

/-- They reach it. -/
theorem foldl_indentation (hts : 1 ≤ s.tabstop) {col : Int} (hcol : 0 ≤ col) :
    (s.indentation col).foldl (fun co c => s.nextColumn c co) 0 = col := by
  unfold indentation
  rw [List.foldl_append, foldl_tabs, foldl_spaces]
  split
  · simp only [Int.toNat_zero, Function.iterate_zero, id]
    omega
  · have hmod := Int.emod_nonneg col (by omega : s.tabstop ≠ 0)
    rw [Int.toNat_of_nonneg hmod, tabs_spaces (by omega) hcol]

theorem isblank_indentation (col : Int) : ∀ c ∈ s.indentation col, isblank c = true := by
  intro c hc
  rcases List.mem_append.mp hc with h | h
  · rw [List.eq_of_mem_replicate h]
    rfl
  · rw [List.eq_of_mem_replicate h]
    rfl

/-- The hole and its blanks are those of a string. -/
theorem indentWith_eq (s : Ed) (p : Int) (ntab nspc : Nat) (undo : Undo) {ws : List UInt8}
    (hws : List.replicate ntab 9 ++ List.replicate nspc 32 = ws) :
    (s.indentWith p ntab nspc undo).2.toBuf = (s.stringInsert p ws .no).2.toBuf ∧
      (s.indentWith p ntab nspc undo).1 = p + (s.stringInsert p ws .no).1 + ws.length ∧
      (s.indentWith p ntab nspc undo).2.toOptions = s.toOptions := by
  have hlen : (ws.length : Int) = ntab + nspc := by
    rw [← hws, List.length_append, List.length_replicate, List.length_replicate]
    push_cast
    rfl
  have hmem (m : Memory UInt8) (x : Int) :
      memset (memset m x 9 ntab) (x + ntab) 32 nspc = memcpy m x ws := by
    rw [memset_eq_memcpy, memset_eq_memcpy, Int.toNat_natCast, Int.toNat_natCast, ← hws,
      ← memcpy_append, List.length_replicate]
  have hopts := congrArg Ed.toOptions (textHoleMake_frame s p (ntab + nspc))
  unfold indentWith stringInsert undoPushInsert
  simp only [hlen, hmem]
  generalize s.textHoleMake p (ntab + nspc) = r at hopts ⊢
  have hundo := undoPushInsert_eq r.2 (p + r.1) ((ntab : Int) + nspc).toNat undo
  unfold undoPushInsert at hundo
  rw [hundo]
  refine ⟨rfl, by omega, hopts⟩

end Ed

/-! ## The text with its new newline -/

namespace Buf

variable {s u : Buf} {p a b : Int} {n : Nat}

theorem mem_of_bytes {k : Nat} {c : UInt8} (h : s.bytes[k]? = some c) : s.mem (s.text + k) = c := by
  obtain ⟨hk, hc⟩ := List.getElem?_eq_some_iff.mp h
  rw [← hc, getElem_bytes hk]

theorem mem_of_append {pre post : List UInt8} {c : UInt8} (h : s.bytes = pre ++ c :: post) :
    s.mem (s.text + pre.length) = c := by
  refine mem_of_bytes ?_
  rw [h, List.getElem?_append_right (Nat.le_refl _), Nat.sub_self]
  rfl

theorem mem_last (hnl : s.bytes.getLast? = some NL) : s.mem (s.end_ - 1) = NL := by
  have hlen := s.length_bytes
  rw [List.getLast?_eq_getElem?] at hnl
  obtain ⟨hlt, -⟩ := List.getElem?_eq_some_iff.mp hnl
  have hmem := mem_of_bytes hnl
  rwa [show s.text + ((s.bytes.length - 1 : Nat) : Int) = s.end_ - 1 by omega] at hmem

/-- `u` is `s` with a newline in front of `p`; the block has moved by `bias`. -/
structure NewlineAt (s u : Buf) (p bias : Int) : Prop where
  text : u.text = s.text + bias
  end_ : u.end_ = s.end_ + 1 + bias
  front : ∀ i, s.text ≤ i → i < p → u.mem (i + bias) = s.mem i
  here : u.mem (p + bias) = NL
  behind : ∀ i, p ≤ i → i < s.end_ → u.mem (i + 1 + bias) = s.mem i

theorem NewlineAt.of_bytes {bias : Int} (h₀ : s.text ≤ p) (h₁ : p ≤ s.end_)
    (htext : u.text = s.text + bias) (hend : u.end_ = s.end_ + 1 + bias)
    (hbytes : u.bytes = s.bytes.take (p - s.text).toNat ++ [NL] ++
      s.bytes.drop (p - s.text).toNat) : s.NewlineAt u p bias := by
  obtain ⟨k, hk⟩ : ∃ k : Nat, p = s.text + k := ⟨(p - s.text).toNat, by omega⟩
  have hlen := s.length_bytes
  have htake : (s.bytes.take k).length = k := by
    rw [List.length_take]
    omega
  rw [show (p - s.text).toNat = k by omega, List.append_assoc] at hbytes
  have hold {j : Nat} (hj : j < s.bytes.length) : s.bytes[j]? = some (s.mem (s.text + j)) := by
    rw [List.getElem?_eq_getElem hj, getElem_bytes hj]
  refine ⟨htext, hend, fun i hi₁ hi₂ => ?_, ?_, fun i hi₁ hi₂ => ?_⟩
  · obtain ⟨j, hj⟩ : ∃ j : Nat, i = s.text + j := ⟨(i - s.text).toNat, by omega⟩
    have hget := mem_of_bytes (s := u) (k := j) (c := s.mem i) (by
      rw [hbytes, List.getElem?_append_left (by omega), List.getElem?_take_of_lt (by omega),
        hold (by omega), hj])
    rw [← hget, htext, hj]
    congr 1
    omega
  · have hget := mem_of_bytes (s := u) (k := k) (c := NL) (by
      rw [hbytes, List.getElem?_append_right (by omega), htake, Nat.sub_self]
      rfl)
    rw [← hget, htext, hk]
    congr 1
    omega
  · obtain ⟨j, hj⟩ : ∃ j : Nat, i = s.text + k + j := ⟨(i - p).toNat, by omega⟩
    have hget := mem_of_bytes (s := u) (k := k + (j + 1)) (c := s.mem i) (by
      rw [hbytes, List.getElem?_append_right (by omega), htake, Nat.add_sub_cancel_left,
        List.singleton_append, List.getElem?_cons_succ, List.getElem?_drop, hold (by omega), hj]
      congr 2
      push_cast
      omega)
    rw [← hget, htext, hj]
    congr 1
    push_cast
    omega

variable {bias : Int}

/-- The line in front of the new newline starts where it did. -/
theorem NewlineAt.prevLine (h : s.NewlineAt u p bias) (h₀ : s.text ≤ p) :
    u.prevLine (p + 1 + bias) = s.beginLine p + bias ∧ u.LineStart (s.beginLine p + bias) := by
  have htext := h.text
  have hge := s.text_le_beginLine h₀
  have hbe := s.beginLine_le p
  have hback : p + 1 + bias - 1 = p + bias := by omega
  have hstart : u.LineStart (s.beginLine p + bias) := by
    refine ⟨by omega, fun hlt => ?_⟩
    rw [show s.beginLine p + bias - 1 = s.beginLine p - 1 + bias by omega,
      h.front _ (by omega) (by omega)]
    exact ((s.beginLine_start h₀).resolve_left (by omega)).2
  have hself := beginLine_of_lineStart (s := u) (p := p + 1 + bias)
    ⟨by omega, fun _ => by rw [hback]; exact h.here⟩
  refine ⟨?_, hstart⟩
  unfold Buf.prevLine
  simp only [hself, hback, h.here, and_true]
  rw [if_pos (by omega)]
  refine beginLine_unique hstart (by omega) fun i h₁ h₂ => ?_
  have hmem := h.front (i - bias) (by omega) (by omega)
  rw [Int.sub_add_cancel] at hmem
  rw [hmem]
  exact s.beginLine_noNL (p := p) (by omega) (by omega)

/-- The leading blanks, seen behind the newline: of the line it ends, or of the rest of the line. -/
theorem NewlineAt.indentLen (h : s.NewlineAt u p bias) (h₀ : s.text ≤ p) (h₁ : p ≤ s.end_)
    (hn : s.Leading (s.beginLine p) p n) :
    u.indentLen (s.beginLine p + bias) = n ∧ u.mem (s.beginLine p + n + bias) =
      if s.beginLine p + n = p then NL else s.mem (s.beginLine p + n) := by
  have hend := h.end_
  have hle := hn.le
  have hge := s.text_le_beginLine h₀
  have hstop : u.mem (s.beginLine p + n + bias) =
      if s.beginLine p + n = p then NL else s.mem (s.beginLine p + n) := by
    split
    · rename_i heq
      rw [heq]
      exact h.here
    · exact h.front _ (by omega) (by omega)
  refine ⟨indentLen_leading ⟨by omega, fun i h₁ h₂ => ?_, fun _ => ?_⟩, hstop⟩
  · have hfront := h.front (i - bias) (by omega) (by omega)
    rw [Int.sub_add_cancel] at hfront
    rw [hfront]
    exact hn.blank _ (by omega) (by omega)
  · rw [show s.beginLine p + bias + n = s.beginLine p + n + bias by omega, hstop]
    split
    · rfl
    · exact hn.stop (by omega)

theorem NewlineAt.indentLen_behind (h : s.NewlineAt u p bias) (h₁ : p ≤ s.end_)
    (hn : s.Leading p (max p (s.end_ - 1)) n) : u.indentLen (p + 1 + bias) = n := by
  have hend := h.end_
  have hle := hn.le
  by_cases hlast : p = s.end_
  · rw [Ed.indentLen_of_ge (by omega)]
    omega
  · refine indentLen_leading ⟨by omega, fun i h₁ h₂ => ?_, fun hlt => ?_⟩
    · have hbehind := h.behind (i - 1 - bias) (by omega) (by omega)
      rw [show i - 1 - bias + 1 + bias = i by omega] at hbehind
      rw [hbehind]
      exact hn.blank _ (by omega) (by omega)
    · rw [show p + 1 + bias + n = p + n + 1 + bias by omega, h.behind _ (by omega) (by omega)]
      exact hn.stop (by omega)

/-- The bytes that are neither blanks nor newlines, in their order. -/
def content (s : Buf) : List UInt8 := s.bytes.filter fun c => !isblank c && c != NL

end Buf

namespace Ed

variable {s t u : Ed} {p q : Int} {n : Nat}

theorem columnAt_shift {a b : Int} (hts : u.tabstop = s.tabstop)
    (hmem : ∀ i : Nat, i < n → u.mem (b + i) = s.mem (a + i)) : u.columnAt b n = s.columnAt a n := by
  rw [columnAt_slice, columnAt_slice, slice_congr hmem]
  unfold nextColumn nextTabstop
  rw [hts]

/-- The bytes whose leading blanks are copied. -/
def indentFrom (s : Ed) (p : Int) : Int × Int :=
  if s.indentcol < 0 then (p, max p (s.end_ - 1)) else (s.beginLine p, p)

/-- What `autoindent` finds behind the newline. -/
theorem autoIndent_scan {bias : Int} (h : s.NewlineAt u.toBuf p bias) (h₀ : s.text ≤ p)
    (h₁ : p ≤ s.end_) (hind : u.indentcol = s.indentcol) (hts : u.tabstop = s.tabstop)
    (hn : s.Leading (s.indentFrom p).1 (s.indentFrom p).2 n) :
    ∃ bol, (if u.indentcol < 0 then p + 1 + bias else u.prevLine (p + 1 + bias)) = bol ∧
      bol = (s.indentFrom p).1 + bias + (if s.indentcol < 0 then 1 else 0) ∧
      u.indentLen bol = n ∧ u.getColumn (bol + n) = s.columnAt (s.indentFrom p).1 n := by
  have htext := h.text
  have hend := h.end_
  unfold indentFrom at hn ⊢
  rw [hind]
  by_cases hneg : s.indentcol < 0
  · simp only [hneg, if_true] at hn ⊢
    have hle := hn.le
    have hstart : u.LineStart (p + 1 + bias) :=
      ⟨by omega, fun _ => by rw [show p + 1 + bias - 1 = p + bias by omega]; exact h.here⟩
    have hshift (i : Nat) (hi : i < n) : u.mem (p + 1 + bias + i) = s.mem (p + i) := by
      rw [show p + 1 + bias + i = p + i + 1 + bias by omega, h.behind _ (by omega) (by omega)]
    refine ⟨_, rfl, by omega, h.indentLen_behind h₁ hn, ?_⟩
    rw [getColumn_columnAt hstart fun i hi₁ hi₂ => ?_, columnAt_shift hts hshift]
    obtain ⟨j, rfl⟩ : ∃ j : Nat, i = p + 1 + bias + j := ⟨(i - (p + 1 + bias)).toNat, by omega⟩
    rw [hshift j (by omega)]
    exact Buf.isblank_ne_newline (hn.blank _ (by omega) (by omega))
  · simp only [hneg, if_false] at hn ⊢
    have hle := hn.le
    have hge := s.text_le_beginLine h₀
    obtain ⟨hprev, hstart⟩ := h.prevLine h₀
    obtain ⟨hlen, -⟩ := h.indentLen h₀ h₁ hn
    have hshift (i : Nat) (hi : i < n) :
        u.mem (s.beginLine p + bias + i) = s.mem (s.beginLine p + i) := by
      rw [show s.beginLine p + bias + i = s.beginLine p + i + bias by omega,
        h.front _ (by omega) (by omega)]
    refine ⟨_, hprev, by omega, hlen, ?_⟩
    rw [getColumn_columnAt hstart fun i hi₁ hi₂ => ?_, columnAt_shift hts hshift]
    obtain ⟨j, rfl⟩ : ∃ j : Nat, i = s.beginLine p + bias + j :=
      ⟨(i - (s.beginLine p + bias)).toNat, by omega⟩
    rw [hshift j (by omega)]
    exact Buf.isblank_ne_newline (hn.blank _ (by omega) (by omega))

/-- The newline itself. -/
theorem newline_typed (hf : s.Fits) (h₀ : s.text ≤ p) (h₁ : p ≤ s.end_)
    (hai : s.autoindent = true) {undo : Undo} (h : s.charInsert p 10 undo = some (q, t)) :
    ∃ (u : Ed) (bias : Int), s.NewlineAt u.toBuf p bias ∧ u.Fits ∧ u.indentcol = s.indentcol ∧
      u.toOptions = s.toOptions ∧ u.bytes = s.bytes.take (p - s.text).toNat ++ [NL] ++
        s.bytes.drop (p - s.text).toNat ∧ u.autoIndent (p + 1 + bias) undo = (q, t) := by
  have hcommit := s.undoQueueCommit_eq
  have hbuf : s.undoQueueCommit.toBuf = s.toBuf := by rw [hcommit]
  have hframe := stringInsert_frame s.undoQueueCommit p [NL] .no
  have hins := charInsert_newline s p undo rfl
  have hbytes := stringInsert_bytes s.undoQueueCommit (p := p) (by rw [hbuf]; exact hf)
    (by rw [hbuf]; exact h₀) (by rw [hbuf]; exact h₁) [NL] .no
  have htext := stringInsert_text s.undoQueueCommit p [NL] .no
  have hend := stringInsert_end s.undoQueueCommit p [NL] .no
  rw [hbuf] at hbytes htext hend
  rw [hai, if_pos rfl, h] at hins
  refine ⟨_, _, .of_bytes h₀ h₁ htext hend hbytes, stringInsert_fits _ (by rw [hbuf]; exact hf) _ _ _,
    ?_, ?_, hbytes, (Option.some.inj hins).symm⟩
  · rw [hframe, hcommit]
  · rw [hframe, hcommit]

/-- `autoindent` behind the newline, with what it has found. -/
theorem autoIndent_found {bol col : Int} (undo : Undo)
    (hbol : (if u.indentcol < 0 then p else u.prevLine p) = bol) (hlen : u.indentLen bol = n)
    (hcol : u.getColumn (bol + n) = col) :
    u.autoIndent p undo =
      if n ≠ 0 ∧ col = u.indentcol then
        (p, { u with mem := store (memmove u.mem (bol + 1) bol n) bol NL })
      else if n ≠ 0 then
        { u with indentcol := col }.indentWith (if u.indentcol < 0 then p - 1 else p)
          (if u.expandtab then 0 else col / u.tabstop)
          (if u.expandtab then col else col % u.tabstop) undo
      else (if u.indentcol < 0 then p - 1 else p, { u with indentcol := 0 }) := by
  have hzero : (n : Int) ≠ 0 ↔ n ≠ 0 := by omega
  unfold autoIndent
  simp only [hbol, hlen, hcol, hzero]

/-! ## The indenting branch -/

theorem slice_bytes (s : Buf) {k m : Nat} (h : k + m ≤ s.bytes.length) :
    slice s.mem (s.text + k) m = (s.bytes.drop k).take m := by
  have hlen := s.length_bytes
  unfold Buf.bytes at h ⊢
  rw [length_slice] at h
  rw [drop_slice _ _ (by omega), take_slice _ _ (by omega)]

/-- Bytes that end in a newline are followed by the start of a line. -/
theorem lineStart_of_bytes {s : Buf} {a : Nat} {pre post : List UInt8} (ht : s.bytes = pre ++ post)
    (ha : pre.length = a) (hlast : pre ≠ [] → pre.getLast? = some NL) :
    s.LineStart (s.text + a) := by
  refine ⟨by omega, fun hlt => ?_⟩
  have hne : pre ≠ [] := List.ne_nil_of_length_pos (by omega)
  have hget := Buf.mem_of_bytes (s := s) (k := a - 1) (c := NL) (by
    rw [ht, List.getElem?_append_left (by omega), ← ha, ← List.getLast?_eq_getElem?, hlast hne])
  rw [← hget]
  congr 1
  omega

/-- Blanks put on a line, and the column behind them. -/
theorem getColumn_inserted {a k : Nat} {pre ws post : List UInt8} (ht : t.bytes = pre ++ ws ++ post)
    (ha : pre.length = a) (hk : ws.length = k) (hstart : t.LineStart (t.text + a))
    (hblank : ∀ c ∈ ws, isblank c = true) :
    t.getColumn (t.text + a + k) = ws.foldl (fun co c => t.nextColumn c co) 0 ∧
      t.beginLine (t.text + a + k) = t.text + a := by
  have hws : slice t.mem (t.text + a) k = ws := by
    rw [slice_bytes t.toBuf (by rw [ht]; simp only [List.length_append]; omega), ht,
      List.append_assoc, List.drop_left' ha, List.take_left' hk]
  have hno (i : Int) (h₁ : t.text + a ≤ i) (h₂ : i < t.text + a + k) : t.mem i ≠ NL := by
    refine Buf.isblank_ne_newline (hblank _ ?_)
    rw [← hws, mem_slice]
    exact ⟨(i - (t.text + a)).toNat, by omega, by congr 1; omega⟩
  refine ⟨?_, Buf.beginLine_unique hstart (by omega) hno⟩
  rw [getColumn_columnAt hstart hno, columnAt_slice, hws]

/-- Behind the newline, or in front of it. -/
theorem take_newline {l : List UInt8} (ws : List UInt8) {m : Nat} (hm : m ≤ l.length) (above : Prop)
    [Decidable above] :
    (l.take m ++ [NL] ++ l.drop m).take (m + if above then 0 else 1) ++ ws ++
        (l.take m ++ [NL] ++ l.drop m).drop (m + if above then 0 else 1) =
      l.take m ++ (if above then ws ++ [NL] else NL :: ws) ++ l.drop m := by
  have htake : (l.take m).length = m := by
    rw [List.length_take]
    omega
  by_cases h : above
  · rw [if_pos h, if_pos h, List.append_assoc (l.take m) [NL], Nat.add_zero, List.take_left' htake,
      List.drop_left' htake]
    simp only [List.append_assoc]
  · have hone : (l.take m ++ [NL]).length = m + 1 := by
      rw [List.length_append, htake]
      rfl
    rw [if_neg h, if_neg h, List.take_left' hone, List.drop_left' hone]
    simp

/-- The branch that indents: as many blanks as reach the column `k` found. -/
theorem charInsert_copied (hf : s.Fits) (h₀ : s.text ≤ p) (h₁ : p ≤ s.end_)
    (hts : 1 ≤ s.tabstop) (hai : s.autoindent = true) {k : Int}
    (hn : s.Leading (s.indentFrom p).1 (s.indentFrom p).2 n) (hn₀ : n ≠ 0)
    (hk : s.columnAt (s.indentFrom p).1 n = k) (hbranch : k ≠ s.indentcol) {undo : Undo}
    (h : s.charInsert p 10 undo = some (q, t)) {m : Nat} (hm : p = s.text + m) :
    t.bytes = s.bytes.take m ++
        (if s.indentcol < 0 then s.indentation k ++ [NL] else NL :: s.indentation k) ++
          s.bytes.drop m ∧
      q = t.text + m + (if s.indentcol < 0 then 0 else 1) + (s.indentation k).length ∧
      t.toOptions = s.toOptions := by
  obtain ⟨u, bias, hnl, hfu, hind, hopts, hbytes, hrun⟩ := newline_typed hf h₀ h₁ hai h
  have htsu : u.tabstop = s.tabstop := congrArg Options.tabstop hopts
  have hexp : u.expandtab = s.expandtab := congrArg Options.expandtab hopts
  obtain ⟨bol, hbol, -, hlen, hcol⟩ := autoIndent_scan hnl h₀ h₁ hind htsu hn
  have hpos := columnAt_pos hts (s.indentFrom p).1 n
  rw [autoIndent_found undo hbol hlen (hcol.trans hk),
    if_neg (by rw [hind]; exact fun e => hbranch e.2), if_pos hn₀, hind, htsu, hexp] at hrun
  -- the blanks, as a string
  have hdiv := Int.ediv_nonneg (by omega : 0 ≤ k) (by omega : 0 ≤ s.tabstop)
  have hmod := Int.emod_nonneg k (by omega : s.tabstop ≠ 0)
  obtain ⟨ntab, hntab⟩ : ∃ m : Nat, (if s.expandtab then 0 else k / s.tabstop) = m :=
    ⟨_, (Int.toNat_of_nonneg (by split <;> omega)).symm⟩
  obtain ⟨nspc, hnspc⟩ : ∃ m : Nat, (if s.expandtab then k else k % s.tabstop) = m :=
    ⟨_, (Int.toNat_of_nonneg (by split <;> omega)).symm⟩
  have hws : List.replicate ntab 9 ++ List.replicate nspc 32 = s.indentation k := by
    unfold indentation
    rw [hntab, hnspc, Int.toNat_natCast, Int.toNat_natCast]
  have hlen := s.length_bytes
  have htext := hnl.text
  have hend := hnl.end_
  obtain ⟨a, ha⟩ : ∃ a : Nat, (m + if s.indentcol < 0 then 0 else 1) = a := ⟨_, rfl⟩
  have hplace : (if s.indentcol < 0 then p + 1 + bias - 1 else p + 1 + bias) = u.text + a := by
    rw [← ha]
    split <;> push_cast <;> omega
  rw [hntab, hnspc, hplace] at hrun
  obtain ⟨hbuf, hq, htopts⟩ := indentWith_eq { u with indentcol := k } (u.text + a) ntab nspc undo hws
  rw [hrun] at hbuf hq htopts
  have hat : u.text ≤ u.text + a ∧ u.text + a ≤ u.end_ := by
    constructor
    · omega
    · rw [← ha]
      split <;> push_cast <;> omega
  have hput := stringInsert_bytes { u with indentcol := k } hfu hat.1 hat.2 (s.indentation k) .no
  have hmoved := stringInsert_text { u with indentcol := k } (u.text + a) (s.indentation k) .no
  have hubytes : ({ u with indentcol := k } : Ed).bytes = u.bytes := rfl
  have httext := congrArg Buf.text hbuf
  simp only at hq httext hmoved
  have htaken := take_newline (l := s.bytes) (s.indentation k) (m := m) (by omega)
    (s.indentcol < 0)
  rw [show (p - s.text).toNat = m by omega] at hbytes
  rw [← hbytes, ha] at htaken
  rw [hubytes, show (u.text + (a : Int) - u.text).toNat = a by omega, htaken] at hput
  refine ⟨(congrArg Buf.bytes hbuf).trans hput, ?_, htopts.trans hopts⟩
  split at ha <;> omega

/-- **The new line is indented to the column of the leading blanks it is indented after.** -/
theorem autoIndent_column (hf : s.Fits) (h₀ : s.text ≤ p) (h₁ : p ≤ s.end_)
    (hts : 1 ≤ s.tabstop) (hai : s.autoindent = true) {k : Int}
    (hn : s.Leading (s.indentFrom p).1 (s.indentFrom p).2 n)
    (hk : s.columnAt (s.indentFrom p).1 n = k) (hpos : 0 < k) (hbranch : k ≠ s.indentcol)
    (habove : s.indentcol < 0 → s.LineStart p) {undo : Undo}
    (h : s.charInsert p 10 undo = some (q, t)) :
    ∃ ws : List UInt8, (∀ c ∈ ws, isblank c = true) ∧
      t.bytes = s.bytes.take (p - s.text).toNat ++
        (if s.indentcol < 0 then ws ++ [NL] else NL :: ws) ++ s.bytes.drop (p - s.text).toNat ∧
      t.beginLine q = q - ws.length ∧ t.getColumn q = k := by
  have hn₀ : n ≠ 0 := by
    rintro rfl
    rw [← hk] at hpos
    exact absurd hpos (by rw [columnAt]; omega)
  obtain ⟨m, hm⟩ : ∃ m : Nat, p = s.text + m := ⟨(p - s.text).toNat, by omega⟩
  obtain ⟨hbytes, hq, hopts⟩ := charInsert_copied hf h₀ h₁ hts hai hn hn₀ hk hbranch h hm
  have htst : t.tabstop = s.tabstop := congrArg Options.tabstop hopts
  have hlen := s.length_bytes
  have hblank := isblank_indentation (s := s) k
  obtain ⟨a, ha⟩ : ∃ a : Nat, (m + if s.indentcol < 0 then 0 else 1) = a := ⟨_, rfl⟩
  -- the new line starts the text or has a newline in front of it
  obtain ⟨pre, post, hsplit, hpre, hlast⟩ : ∃ pre post, t.bytes = pre ++ s.indentation k ++ post ∧
      pre.length = a ∧ (pre ≠ [] → pre.getLast? = some NL) := by
    have htake : (s.bytes.take m).length = m := by
      rw [List.length_take]
      omega
    by_cases hneg : s.indentcol < 0
    · rw [if_pos hneg] at hbytes ha
      refine ⟨s.bytes.take m, [NL] ++ s.bytes.drop m, by rw [hbytes]; simp, by omega, fun hne => ?_⟩
      have hmpos := List.length_pos_of_ne_nil hne
      have hstart := (habove hneg).newline (by omega)
      rw [show p - 1 = s.text + ((m - 1 : Nat) : Int) by omega] at hstart
      rw [List.getLast?_eq_getElem?, htake, List.getElem?_take_of_lt (by omega),
        List.getElem?_eq_getElem (by omega), Buf.getElem_bytes (by omega), hstart]
    · rw [if_neg hneg] at hbytes ha
      refine ⟨s.bytes.take m ++ [NL], s.bytes.drop m, by rw [hbytes]; simp, ?_, by simp⟩
      rw [List.length_append, htake]
      exact ha
  have hstart := lineStart_of_bytes (s := t.toBuf) (hsplit.trans (List.append_assoc ..)) hpre hlast
  obtain ⟨hcolumn, hbegin⟩ := getColumn_inserted hsplit hpre rfl hstart hblank
  have hq' : q = t.text + a + (s.indentation k).length := by
    rw [hq, ← ha]
    split <;> push_cast <;> omega
  have hfold : (s.indentation k).foldl (fun co c => t.nextColumn c co) 0 = k := by
    have hcopy : t.indentation k = s.indentation k := by
      unfold indentation
      rw [htst, show t.expandtab = s.expandtab from congrArg Options.expandtab hopts]
    rw [← hcopy]
    exact foldl_indentation (by omega) (by omega)
  refine ⟨s.indentation k, hblank, by rw [show (p - s.text).toNat = m by omega, hbytes], ?_, ?_⟩
  · rw [hq', hbegin]
    omega
  · rw [hq', hcolumn, hfold]

/-- A line that starts with a tab and a space, and Enter at its end. -/
def tabbedLine : Ed :=
  { EditOp.holding [9, 32, 120, NL] with
    rows := 24
    columns := 80
    tabstop := 8
    autoindent := true
    cmdMode := .insert
    dot := 4099 }

theorem autoIndent_column_tabbed :
    ∃ q t, tabbedLine.charInsert 4099 10 .queued = some (q, t) ∧ t.getColumn q = 9 := by
  have hrun : (tabbedLine.charInsert 4099 10 .queued).isSome := by decide +kernel
  obtain ⟨⟨q, t⟩, h⟩ := Option.isSome_iff_exists.mp hrun
  have hlead : tabbedLine.Leading (tabbedLine.indentFrom 4099).1 (tabbedLine.indentFrom 4099).2 2 := by
    refine ⟨by decide, fun i h₁ h₂ => ?_, fun _ => by decide⟩
    have hbegin : (tabbedLine.indentFrom 4099).1 = 4096 := by decide
    rw [hbegin] at h₁ h₂
    obtain rfl | rfl : i = 4096 ∨ i = 4097 := by omega
    · decide
    · decide
  obtain ⟨ws, -, -, -, hcol⟩ := autoIndent_column ⟨by decide, by decide⟩ (by decide) (by decide)
    (by decide) rfl hlead rfl (by decide) (by decide) (fun h => absurd h (by decide)) h
  refine ⟨q, t, h, hcol.trans ?_⟩
  decide

/-! ## The bytes of the text -/

/-- Every range has its leading blanks. -/
theorem exists_leading (s : Buf) : ∀ (k : Nat) (a : Int), ∃ n, s.Leading a (a + k) n
  | 0, a => ⟨0, by omega, fun i h₁ h₂ => by omega, fun h => by omega⟩
  | k + 1, a => by
    by_cases hblank : isblank (s.mem a) = true
    · obtain ⟨n, hn⟩ := exists_leading s k (a + 1)
      have hle := hn.le
      refine ⟨n + 1, by push_cast; omega, fun i h₁ h₂ => ?_, fun h => ?_⟩
      · rcases Int.lt_or_eq_of_le h₁ with hlt | rfl
        · exact hn.blank i (by omega) (by push_cast at h₂; omega)
        · exact hblank
      · rw [show a + ((n + 1 : Nat) : Int) = a + 1 + n by push_cast; omega] at h ⊢
        exact hn.stop (by push_cast at h; omega)
    · exact ⟨0, by push_cast; omega, fun i h₁ h₂ => by omega, fun _ => by simpa using hblank⟩

/-- Without blanks to copy, only the newline is new. -/
theorem charInsert_plain (hf : s.Fits) (h₀ : s.text ≤ p) (h₁ : p ≤ s.end_)
    (hai : s.autoindent = true) (hn : s.Leading (s.indentFrom p).1 (s.indentFrom p).2 0)
    {undo : Undo} (h : s.charInsert p 10 undo = some (q, t)) :
    t.bytes = s.bytes.take (p - s.text).toNat ++ [NL] ++ s.bytes.drop (p - s.text).toNat := by
  obtain ⟨u, bias, hnl, -, hind, hopts, hbytes, hrun⟩ := newline_typed hf h₀ h₁ hai h
  obtain ⟨bol, hbol, -, hlen, hcol⟩ := autoIndent_scan hnl h₀ h₁ hind
    (congrArg Options.tabstop hopts) hn
  rw [autoIndent_found undo hbol hlen hcol, if_neg fun e => e.1 rfl, if_neg (fun e => e rfl)] at hrun
  obtain ⟨-, rfl⟩ := Prod.mk.inj hrun
  exact hbytes

/-- The branch for a line of nothing but indentation: the blanks move one byte on, over the byte
behind them. -/
theorem charInsert_pushed (hf : s.Fits) (h₀ : s.text ≤ p) (h₁ : p ≤ s.end_)
    (hts : 1 ≤ s.tabstop) (hai : s.autoindent = true)
    (hn : s.Leading (s.beginLine p) p n) (hn₀ : n ≠ 0)
    (hk : s.columnAt (s.beginLine p) n = s.indentcol) {undo : Undo}
    (h : s.charInsert p 10 undo = some (q, t)) {a m : Nat} (ha : s.beginLine p = s.text + a)
    (hm : p = s.text + m) {l : List UInt8} (hl : l = s.bytes.take m ++ [NL] ++ s.bytes.drop m) :
    t.bytes = l.take a ++ NL :: (l.drop a).take n ++ l.drop (a + n + 1) := by
  have hpos := columnAt_pos hts (s.beginLine p) n
  have hneg : ¬ s.indentcol < 0 := by omega
  have hfrom : s.indentFrom p = (s.beginLine p, p) := if_neg hneg
  have hlen := s.length_bytes
  have hle := hn.le
  obtain ⟨u, bias, hnl, -, hind, hopts, hbytes, hrun⟩ := newline_typed hf h₀ h₁ hai h
  have htext := hnl.text
  have hend := hnl.end_
  obtain ⟨bol, hbol, hbeq, hblen, hcol⟩ := autoIndent_scan hnl h₀ h₁ hind
    (congrArg Options.tabstop hopts) (by rw [hfrom]; exact hn)
  rw [hfrom] at hcol hbeq
  rw [if_neg hneg] at hbeq
  rw [autoIndent_found undo hbol hblen (hcol.trans hk), if_pos ⟨hn₀, hind.symm⟩] at hrun
  obtain ⟨-, rfl⟩ := Prod.mk.inj hrun
  have hub : u.bytes = l := by
    rw [hl, hbytes, show (p - s.text).toNat = m by omega]
  have hulen := u.length_bytes
  have hplace : bol = u.text + a := by
    simp only at hbeq
    omega
  have hshift := slice_shift u.mem u.text (a := a) (d := n) (n := (u.end_ - u.text).toNat)
    (by omega) NL
  rw [← hub, hplace]
  exact hshift

/-- One more newline, and the same bytes that are neither blanks nor newlines. -/
structure AddsNewline (s t : Ed) : Prop where
  content : t.content = s.content
  newlines : t.bytes.count NL = s.bytes.count NL + 1

/-- The cursor line starts with blanks up to the column of the last indentation, and other bytes
stand between them and `p`. -/
def Pushes (s : Ed) (p : Int) : Prop :=
  s.autoindent = true ∧ ∃ n, n ≠ 0 ∧ s.Leading (s.beginLine p) p n ∧ s.beginLine p + n < p ∧
    s.columnAt (s.beginLine p) n = s.indentcol

/-- Blanks and a newline put in do no harm. -/
theorem content_insert {l x : List UInt8} (ws : List UInt8) (m : Nat) (hws : ∀ c ∈ ws, isblank c = true)
    (hx : x = NL :: ws ∨ x = ws ++ [NL]) :
    (l.take m ++ x ++ l.drop m).filter (fun c => !isblank c && c != NL) =
        l.filter (fun c => !isblank c && c != NL) ∧
      (l.take m ++ x ++ l.drop m).count NL = l.count NL + 1 := by
  have hfilter : x.filter (fun c => !isblank c && c != NL) = [] := by
    rw [List.filter_eq_nil_iff]
    intro c hc
    have hcases : c = NL ∨ c ∈ ws := by
      rcases hx with rfl | rfl
      · exact List.mem_cons.mp hc
      · exact (List.mem_append.mp hc).symm.imp_left List.mem_singleton.mp
    rcases hcases with rfl | h
    · decide
    · simp [hws c h]
  have hcount : x.count NL = 1 := by
    have hnone : ws.count NL = 0 :=
      List.count_eq_zero_of_not_mem fun h => Buf.isblank_ne_newline (hws _ h) rfl
    rcases hx with rfl | rfl
    · rw [List.count_cons_self, hnone]
    · rw [List.count_append, hnone, List.count_singleton_self]
  have hsplit := List.take_append_drop m l
  constructor
  · rw [List.filter_append, List.filter_append, hfilter, List.append_nil, ← List.filter_append,
      hsplit]
  · rw [List.count_append, List.count_append, hcount]
    have hall := congrArg (List.count NL) hsplit
    rw [List.count_append] at hall
    omega

/-- A newline in front of blanks, with the byte behind them lost. -/
theorem content_pushed {a ws b : List UInt8} {c : UInt8} (hc : isblank c = false) :
    ((a ++ NL :: ws ++ b).filter (fun c => !isblank c && c != NL) =
        (a ++ ws ++ c :: b).filter (fun c => !isblank c && c != NL) ∧
      (a ++ NL :: ws ++ b).count NL = (a ++ ws ++ c :: b).count NL) ↔ c = NL := by
  by_cases h : c = NL
  · subst h
    refine iff_of_true ⟨?_, ?_⟩ rfl
    · simp [List.filter_append]
    · simp only [List.count_append, List.count_cons]
      omega
  · refine iff_of_false (fun hand => ?_) h
    have hcount := hand.2
    have hne : (c == NL) = false := by simpa using h
    simp only [List.count_append, List.count_cons, hne, BEq.rfl, if_true] at hcount
    simp at hcount

/-- The byte behind the leading blanks is lost, unless it is the new newline. -/
theorem pushed_addsNewline_iff (hf : s.Fits) (h₀ : s.text ≤ p) (h₁ : p ≤ s.end_)
    (hts : 1 ≤ s.tabstop) (hai : s.autoindent = true) (hn : s.Leading (s.beginLine p) p n)
    (hn₀ : n ≠ 0) (hk : s.columnAt (s.beginLine p) n = s.indentcol) {undo : Undo}
    (h : s.charInsert p 10 undo = some (q, t)) :
    AddsNewline s t ↔ s.beginLine p + n = p := by
  obtain ⟨m, hm⟩ : ∃ m : Nat, p = s.text + m := ⟨(p - s.text).toNat, by omega⟩
  have hge := s.text_le_beginLine h₀
  obtain ⟨a, ha⟩ : ∃ a : Nat, s.beginLine p = s.text + a := ⟨(s.beginLine p - s.text).toNat, by omega⟩
  have hlen := s.length_bytes
  have hle := hn.le
  obtain ⟨l, hl⟩ : ∃ l, s.bytes.take m ++ [NL] ++ s.bytes.drop m = l := ⟨_, rfl⟩
  have hbytes := charInsert_pushed hf h₀ h₁ hts hai hn hn₀ hk h ha hm hl.symm
  have htake : (s.bytes.take m).length = m := by
    rw [List.length_take]
    omega
  have hll : l.length = s.bytes.length + 1 := by
    rw [← hl]
    simp only [List.length_append, List.length_take, List.length_drop, List.length_singleton]
    omega
  -- the byte behind the blanks
  obtain ⟨c, hget, hc, hnl⟩ : ∃ c, l[a + n]? = some c ∧ isblank c = false ∧
      (c = NL ↔ s.beginLine p + n = p) := by
    by_cases hend : s.beginLine p + n = p
    · refine ⟨NL, ?_, rfl, by simp [hend]⟩
      rw [← hl, List.append_assoc, List.getElem?_append_right (by omega),
        show a + n - (s.bytes.take m).length = 0 by omega]
      rfl
    · refine ⟨s.mem (s.beginLine p + n), ?_, hn.stop (by omega), ?_⟩
      · rw [← hl, List.append_assoc, List.getElem?_append_left (by omega),
          List.getElem?_take_of_lt (by omega), List.getElem?_eq_getElem (by omega),
          Buf.getElem_bytes (by omega)]
        congr 2
        omega
      · refine iff_of_false (fun he => ?_) hend
        exact s.beginLine_noNL (p := p) (by omega) (by omega) he
  have hsplit : l = l.take a ++ (l.drop a).take n ++ c :: l.drop (a + n + 1) := by
    obtain ⟨hlt, rfl⟩ := List.getElem?_eq_some_iff.mp hget
    rw [← List.drop_eq_getElem_cons hlt, List.append_assoc, ← List.drop_drop,
      List.take_append_drop, List.take_append_drop]
  obtain ⟨hcontent, hcount⟩ := content_insert (l := s.bytes) [] m (by simp) (.inl rfl)
  rw [hl, hsplit] at hcontent hcount
  rw [← hnl, ← content_pushed hc, ← hbytes, hcontent, hcount]
  exact ⟨fun hadds => ⟨hadds.content, hadds.newlines⟩, fun hand => ⟨hand.1, hand.2⟩⟩

theorem plain_addsNewline (ht : t.bytes = s.bytes.take (p - s.text).toNat ++ [NL] ++
    s.bytes.drop (p - s.text).toNat) : AddsNewline s t := by
  obtain ⟨hcontent, hcount⟩ := content_insert (l := s.bytes) [] (p - s.text).toNat
    (by simp) (.inl rfl)
  rw [← ht] at hcontent hcount
  exact ⟨hcontent, hcount⟩

theorem copied_addsNewline (hf : s.Fits) (h₀ : s.text ≤ p) (h₁ : p ≤ s.end_) (hts : 1 ≤ s.tabstop)
    (hai : s.autoindent = true) (hn : s.Leading (s.indentFrom p).1 (s.indentFrom p).2 n)
    (hn₀ : n ≠ 0) (hne : s.columnAt (s.indentFrom p).1 n ≠ s.indentcol) {undo : Undo}
    (h : s.charInsert p 10 undo = some (q, t)) : AddsNewline s t := by
  obtain ⟨m, hm⟩ : ∃ m : Nat, p = s.text + m := ⟨(p - s.text).toNat, by omega⟩
  obtain ⟨hbytes, -⟩ := charInsert_copied hf h₀ h₁ hts hai hn hn₀ rfl hne h hm
  have horder : (if s.indentcol < 0 then
      s.indentation (s.columnAt (s.indentFrom p).1 n) ++ [NL] else
        NL :: s.indentation (s.columnAt (s.indentFrom p).1 n)) =
      NL :: s.indentation (s.columnAt (s.indentFrom p).1 n) ∨
      (if s.indentcol < 0 then
        s.indentation (s.columnAt (s.indentFrom p).1 n) ++ [NL] else
          NL :: s.indentation (s.columnAt (s.indentFrom p).1 n)) =
      s.indentation (s.columnAt (s.indentFrom p).1 n) ++ [NL] := by
    split
    · exact .inr rfl
    · exact .inl rfl
  obtain ⟨hcontent, hcount⟩ := content_insert (l := s.bytes) _ m (isblank_indentation _) horder
  rw [← hbytes] at hcontent hcount
  exact ⟨hcontent, hcount⟩

/-- One Enter under `autoindent`. -/
theorem charInsert_addsNewline_iff (hf : s.Fits) (h₀ : s.text ≤ p) (h₁ : p ≤ s.end_)
    (hts : 1 ≤ s.tabstop) {undo : Undo} (h : s.charInsert p 10 undo = some (q, t)) :
    AddsNewline s t ↔ ¬ s.Pushes p := by
  have hbe := s.beginLine_le p
  cases hai : s.autoindent with
  | false =>
    refine iff_of_true (plain_addsNewline (charInsert_newline_bytes hf h₀ h₁ hai h)) fun hp => ?_
    rw [hp.1] at hai
    cases hai
  | true =>
    by_cases hneg : s.indentcol < 0
    · have hfrom : s.indentFrom p = (p, max p (s.end_ - 1)) := if_pos hneg
      obtain ⟨n, hn⟩ := exists_leading s.toBuf (max p (s.end_ - 1) - p).toNat p
      rw [show p + ((max p (s.end_ - 1) - p).toNat : Int) = max p (s.end_ - 1) by omega] at hn
      have hcol := columnAt_pos hts p n
      have hadds : AddsNewline s t := by
        by_cases hn₀ : n = 0
        · subst hn₀
          exact plain_addsNewline (charInsert_plain hf h₀ h₁ hai (by rw [hfrom]; exact hn) h)
        · exact copied_addsNewline hf h₀ h₁ hts hai (by rw [hfrom]; exact hn) hn₀
            (by rw [hfrom]; simp only; omega) h
      refine iff_of_true hadds ?_
      rintro ⟨-, m, -, -, -, hm⟩
      have hcol' := columnAt_pos hts (s.beginLine p) m
      omega
    · have hfrom : s.indentFrom p = (s.beginLine p, p) := if_neg hneg
      obtain ⟨n, hn⟩ := exists_leading s.toBuf (p - s.beginLine p).toNat (s.beginLine p)
      rw [show s.beginLine p + ((p - s.beginLine p).toNat : Int) = p by omega] at hn
      have hle := hn.le
      by_cases hn₀ : n = 0
      · subst hn₀
        refine iff_of_true (plain_addsNewline (charInsert_plain hf h₀ h₁ hai
          (by rw [hfrom]; exact hn) h)) ?_
        rintro ⟨-, m, hm₀, hm, -⟩
        exact hm₀ (hm.unique hn)
      · by_cases hcol : s.columnAt (s.beginLine p) n = s.indentcol
        · rw [pushed_addsNewline_iff hf h₀ h₁ hts hai hn hn₀ hcol h]
          constructor
          · rintro hend ⟨-, m, -, hm, hlt, -⟩
            rw [hm.unique hn] at hlt
            omega
          · intro hno
            by_contra hend
            exact hno ⟨hai, n, hn₀, hn, by omega, hcol⟩
        · refine iff_of_true (copied_addsNewline hf h₀ h₁ hts hai (by rw [hfrom]; exact hn) hn₀
            (by rw [hfrom]; exact hcol) h) ?_
          rintro ⟨-, m, -, hm, -, hm'⟩
          rw [hm.unique hn] at hm'
          exact hcol hm'

end Ed

end Evim
