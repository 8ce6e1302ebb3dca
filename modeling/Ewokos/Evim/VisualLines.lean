import Ewokos.Evim.Typing

/-!
# evim: the operators of a selection that take whole lines

`D`, `X`, `C` and `Y` over a selection, against the lines that it touches.  The span comes from the
ends of the selection as they are.

* `yankedLines_iff` — when the register holds the touched lines.
* `visualLines_iff` — when the text is left without them as well.
-/

set_option autoImplicit false

namespace Evim

open Cells
open CString hiding strchr

namespace Ed

variable {s t u : Ed} {p q lo hi : Int} {n : Nat}

/-! ## One more newline -/

/-- A newline is all that is added when there are no blanks to copy. -/
theorem charInsert_newline_iff (hf : s.Fits) (h₀ : s.text ≤ p) (h₁ : p ≤ s.end_)
    (hts : 1 ≤ s.tabstop) (hn : s.Leading (s.indentFrom p).1 (s.indentFrom p).2 n) {undo : Undo}
    (h : s.charInsert p 10 undo = some (q, t)) :
    t.bytes = s.bytes.take (p - s.text).toNat ++ [NL] ++ s.bytes.drop (p - s.text).toNat ↔
      s.autoindent = false ∨ n = 0 := by
  obtain ⟨m, hm⟩ : ∃ m : Nat, p = s.text + m := ⟨(p - s.text).toNat, by omega⟩
  have hlen := s.length_bytes
  rw [show (p - s.text).toNat = m by omega]
  cases hai : s.autoindent with
  | false =>
    refine iff_of_true ?_ (.inl rfl)
    rw [charInsert_newline_bytes hf h₀ h₁ hai h, show (p - s.text).toNat = m by omega]
  | true =>
    by_cases hn₀ : n = 0
    · subst hn₀
      refine iff_of_true ?_ (.inr rfl)
      rw [charInsert_plain hf h₀ h₁ hai hn h, show (p - s.text).toNat = m by omega]
    · refine iff_of_false (fun hbytes => ?_) (by simp [hn₀])
      by_cases hcol : s.columnAt (s.indentFrom p).1 n = s.indentcol
      · -- the blanks have moved
        have hpos := columnAt_pos hts (s.indentFrom p).1 n
        have hfrom : s.indentFrom p = (s.beginLine p, p) := if_neg (by omega)
        rw [hfrom] at hn hcol
        obtain ⟨a, ha⟩ : ∃ a : Nat, s.beginLine p = s.text + a :=
          ⟨(s.beginLine p - s.text).toNat, by have := s.text_le_beginLine h₀; omega⟩
        have hle := hn.le
        have hpushed := charInsert_pushed hf h₀ h₁ hts hai hn hn₀ hcol h ha hm rfl
        rw [hbytes] at hpushed
        generalize hl : s.bytes.take m ++ [NL] ++ s.bytes.drop m = l at hpushed
        have hold : l[a]? = some (s.mem (s.beginLine p)) := by
          rw [← hl, List.append_assoc, List.getElem?_append_left (by rw [List.length_take]; omega),
            List.getElem?_take_of_lt (by omega), List.getElem?_eq_getElem (by omega),
            Buf.getElem_bytes (by omega), ← ha]
        have hnew : l[a]? = some NL := by
          have htake : (l.take a).length = a := by
            rw [List.length_take, ← hl]
            simp only [List.length_append, List.length_take, List.length_drop, List.length_singleton]
            omega
          rw [hpushed, List.append_assoc, List.getElem?_append_right (by omega), htake, Nat.sub_self]
          rfl
        have hblank := hn.blank (s.beginLine p) (by omega) (by omega)
        rw [hold] at hnew
        exact Buf.isblank_ne_newline hblank (Option.some.inj hnew)
      · -- there are more bytes
        obtain ⟨hcopied, -⟩ := charInsert_copied hf h₀ h₁ hts hai hn hn₀ rfl hcol h hm
        have hpos := columnAt_pos hts (s.indentFrom p).1 n
        have hreach := foldl_indentation hts (by omega : 0 ≤ s.columnAt (s.indentFrom p).1 n)
        rw [hbytes] at hcopied
        have hlength := congrArg List.length hcopied
        have hnone : s.indentation (s.columnAt (s.indentFrom p).1 n) = [] := by
          refine List.eq_nil_of_length_eq_zero ?_
          split at hlength <;> simp only [List.length_append, List.length_cons, List.length_nil]
            at hlength <;> omega
        rw [hnone, List.foldl_nil] at hreach
        omega

/-! ## The register -/

/-- The lines that a selection touches, in full. -/
def touched (s : Ed) (lo hi : Int) : List UInt8 :=
  slice s.mem (s.beginLine lo) (s.endLine hi + 1 - s.beginLine lo).toNat

/-- The selection starts and ends with the lines that it touches, and these have no NUL. -/
structure TakesLines (s : Ed) (lo hi : Int) : Prop where
  begin : lo = s.beginLine lo
  end_ : hi = s.endLine hi
  nonul : (0 : UInt8) ∉ s.touched lo hi

theorem TakesLines.lineStart (h : s.TakesLines lo hi) (h₀ : s.text ≤ lo) : s.LineStart lo := by
  rw [h.begin]
  exact .beginLine _ h₀

/-- The bytes of the register, when `lo` through `hi` are yanked. -/
def yanked (s : Ed) (lo hi : Int) : List UInt8 :=
  (slice s.mem lo (hi - lo + 1).toNat).takeWhile (· != 0)

theorem yankedLines_iff (hle : lo ≤ hi) : s.yanked lo hi = s.touched lo hi ↔ s.TakesLines lo hi := by
  have hbe := s.beginLine_le lo
  have hee := s.le_endLine hi
  constructor
  · intro heq
    have hlength := congrArg List.length heq
    have hshort := (List.takeWhile_sublist (· != 0) (l := slice s.mem lo (hi - lo + 1).toNat)).length_le
    unfold yanked touched at hlength
    rw [length_slice] at hlength hshort
    refine ⟨by omega, by omega, fun hmem => ?_⟩
    rw [← heq] at hmem
    have hnz := List.mem_takeWhile_imp hmem
    simp at hnz
  · rintro ⟨hb, he, hno⟩
    have hspan : slice s.mem lo (hi - lo + 1).toNat = s.touched lo hi := by
      unfold touched
      rw [← hb, ← he, show hi + 1 - lo = hi - lo + 1 by omega]
    unfold yanked
    rw [hspan, List.takeWhile_eq_self_iff]
    intro c hc
    have hne : c ≠ 0 := by
      rintro rfl
      exact hno hc
    simpa using hne

theorem autoIndent_toRegs (s : Ed) (p : Int) (undo : Undo) :
    (s.autoIndent p undo).2.toRegs = s.toRegs := by
  rw [autoIndent_frame]

/-- A newline does not touch the registers. -/
theorem charInsert_newline_toRegs {undo : Undo} (h : s.charInsert p 10 undo = some (q, t)) :
    t.toRegs = s.toRegs := by
  have hins := charInsert_newline s p undo rfl
  have hframe : (s.undoQueueCommit.stringInsert p [NL] .no).2.toRegs = s.toRegs := by
    rw [stringInsert_frame, undoQueueCommit_eq]
  rw [h] at hins
  split at hins
  · have hai := autoIndent_toRegs (s.undoQueueCommit.stringInsert p [NL] .no).2
      (p + 1 + (s.undoQueueCommit.stringInsert p [NL] .no).1) undo
    rw [← Option.some.inj hins] at hai
    exact hai.trans hframe
  · obtain ⟨-, rfl⟩ := Prod.mk.inj (Option.some.inj hins)
    exact hframe

theorem startInsert_same (s : Ed) :
    s.startInsert.toBuf = s.toBuf ∧ s.startInsert.toRegs = s.toRegs := by
  unfold startInsert
  rw [undoQueueCommit_eq]
  exact ⟨rfl, rfl⟩

/-! ## The operators -/

/-- The linewise operators that yank. -/
def isLineOperator (c : Int) : Bool := c == key 'X' || c == key 'Y' || c == key 'D' || c == key 'C'

/-- The span, yanked, and deleted unless the operator is `Y`. -/
theorem yankDeleteDot_lines (u : Ed) (hle : lo ≤ hi) (yf : Bool) :
    u.yankDeleteDot lo hi .whole yf .allow =
      if yf then
        { ((u.textYank lo hi u.ydreg .whole).textHoleDelete lo hi .allow).2 with
          dot := ((u.textYank lo hi u.ydreg .whole).textHoleDelete lo hi .allow).1 }
      else { u.textYank lo hi u.ydreg .whole with dot := lo } := by
  have hpart : ¬ (BufType.whole = .part ∧ u.mem lo = NL) := by simp
  unfold yankDeleteDot yankDelete
  rw [if_neg (by omega)]
  dsimp only
  rw [if_neg hpart]
  split <;> rfl

/-- What the register is given. -/
theorem textYank_reg (u : Ed) (hle : lo ≤ hi) (r : Nat) (bt : BufType) :
    ((u.textYank lo hi r bt).reg r).map Reg.body = some (u.yanked lo hi) ∧
      (u.textYank lo hi r bt).regtype r = bt := by
  unfold textYank
  rw [if_neg (by omega)]
  simp [yanked]

/-- A selection with both ends in the text. -/
theorem visualOperate_ends {c a : Int} (ha : s.viVisualAnchor = some a) (h₀ : s.text ≤ a)
    (h₁ : a < s.end_) (h₂ : s.text ≤ s.dot) (h₃ : s.dot < s.end_) :
    s.visualOperate c =
      (if c = key '>' ∨ c = key '<' then
        ({ s with viVisual := false } : Ed).visualShiftLines (c = key '<') (min a s.dot) (max a s.dot)
      else ({ s with viVisual := false } : Ed).visualYank c (min a s.dot) (max a s.dot)).map
        endCmdQ := by
  have hends : (if a > s.dot then (s.dot, a) else (a, s.dot)) = (min a s.dot, max a s.dot) := by
    split
    · rw [min_eq_right (by omega), max_eq_left (by omega)]
    · rw [min_eq_left (by omega), max_eq_right (by omega)]
  have hlo : ¬ min a s.dot < s.text := by omega
  have hhi : ¬ max a s.dot > s.end_ - 1 := by omega
  unfold visualOperate
  simp only [ha, Option.getD_some, hends, hlo, hhi, if_false, Option.bind_eq_bind]
  rw [Option.map_eq_bind]
  rfl

theorem visualOperate_lines {c a : Int} (hc : isLineOperator c = true)
    (ha : s.viVisualAnchor = some a) (h₀ : s.text ≤ a) (h₁ : a < s.end_) (h₂ : s.text ≤ s.dot)
    (h₃ : s.dot < s.end_) :
    s.visualOperate c =
      (({ s with viVisual := false } : Ed).visualYank c (min a s.dot) (max a s.dot)).map endCmdQ := by
  have hshift : ¬ (c = key '>' ∨ c = key '<') := by
    simp only [isLineOperator, Bool.or_eq_true, beq_iff_eq] at hc
    rcases hc with ((rfl | rfl) | rfl) | rfl <;> decide
  rw [visualOperate_ends ha h₀ h₁ h₂ h₃, if_neg hshift]

/-- Behind the yank and the deletion: `C` adds its line, the others only move the cursor. -/
theorem visualYank_parts {c : Int} (hc : isLineOperator c = true)
    (h : u.visualYank c lo hi = some t) :
    ∃ x, (if c = key 'C' then
        (u.yankDeleteDot lo hi .whole true .allow).emptyLine = some x
      else x = u.yankDeleteDot lo hi .whole (!(c == key 'Y')) .allow) ∧
      t.toBuf = x.toBuf ∧ t.reg = x.reg ∧ t.regtype = x.regtype := by
  have hlook (v x : Ed) (hl : Glanced x v) : v.toBuf = x.toBuf ∧ v.reg = x.reg ∧
      v.regtype = x.regtype := ⟨hl.buf, hl.reg, hl.regtype⟩
  unfold visualYank at h
  simp only [isLineOperator, Bool.or_eq_true, beq_iff_eq] at hc
  rcases hc with ((rfl | rfl) | rfl) | rfl
  · cases h
    refine ⟨_, rfl, hlook _ _ ?_⟩
    exact ((dotBegin_looked _).trans (dotSkipOverWs_looked _)).trans (yankedStatus_looked _ _ _)
  · cases h
    refine ⟨_, rfl, hlook _ _ ?_⟩
    exact ((dotBegin_looked _).trans (dotSkipOverWs_looked _)).trans (yankedStatus_looked _ _ _)
  · cases h
    refine ⟨_, rfl, hlook _ _ ?_⟩
    exact ((dotBegin_looked _).trans (dotSkipOverWs_looked _)).trans (yankedStatus_looked _ _ _)
  · obtain ⟨x, hx, hrest⟩ := Option.bind_eq_some_iff.mp h
    cases hrest
    have hl := yankedStatus_looked x "Delete" (u.reg u.ydreg)
    obtain ⟨hbuf, hregs⟩ := startInsert_same (x.yankedStatus "Delete" (u.reg u.ydreg))
    exact ⟨x, hx, hbuf.trans hl.buf, (congrArg Regs.reg hregs).trans hl.reg,
      (congrArg Regs.regtype hregs).trans hl.regtype⟩

/-! ## The line that `C` leaves -/

/-- The text without `lo` through `hi`, the span in the register, and `dot` where the deletion has
left it. -/
structure Without (s w : Ed) (lo hi : Int) : Prop where
  bytes : w.bytes = s.bytes.take (lo - s.text).toNat ++ s.bytes.drop (hi + 1 - s.text).toNat
  fits : w.Fits
  text : w.text = s.text
  end_ : w.end_ = s.end_ - (hi - lo + 1)
  dot : w.dot = if s.end_ - (hi - lo + 1) ≤ s.text then s.text
    else if lo ≥ s.end_ - (hi - lo + 1) then s.end_ - (hi - lo + 1) - 1 else lo
  options : w.toOptions = s.toOptions
  indentcol : w.indentcol = s.indentcol
  reg : (w.reg s.ydreg).map Reg.body = some (s.yanked lo hi)
  regtype : w.regtype s.ydreg = .whole

theorem textYank_frame (s : Ed) (lo hi : Int) (r : Nat) (bt : BufType) :
    s.textYank lo hi r bt = { s with toRegs := (s.textYank lo hi r bt).toRegs } := rfl

theorem yankDeleteDot_without (hf : s.Fits) (h₀ : s.text ≤ lo) (hle : lo ≤ hi) (h₁ : hi < s.end_) :
    Without s (s.yankDeleteDot lo hi .whole true .allow) lo hi := by
  obtain ⟨hreg, htype⟩ := textYank_reg s hle s.ydreg .whole
  have hframe := textYank_frame s lo hi s.ydreg .whole
  rw [yankDeleteDot_lines _ hle, if_pos rfl]
  generalize s.textYank lo hi s.ydreg .whole = y at hreg htype hframe
  have htext : y.text = s.text := by rw [hframe]
  have hend : y.end_ = s.end_ := by rw [hframe]
  have hbuf : y.bytes = s.bytes := by rw [hframe]
  have hstate := textHoleDelete_state y (by omega) hle (by omega) .allow
  have hdest := textHoleDelete_dest y (by omega) hle (by omega) .allow
  have hbytes := textHoleDelete_bytes y (by omega) hle (by omega) .allow
  have hfits := textHoleDelete_fits y (by rw [hframe]; exact hf) (by omega) hle (by omega) .allow
  rw [htext, hend] at hdest
  rw [htext, hbuf] at hbytes
  refine ⟨hbytes, ⟨hfits.text_le_end, hfits.lt_size⟩, ?_, ?_, hdest, ?_, ?_, ?_, ?_⟩
  · rw [hstate]
    exact htext
  · rw [hstate]
    exact congrArg (· - (hi - lo + 1)) hend
  · rw [hstate, hframe]
  · rw [hstate, hframe]
  · rw [hstate]
    exact hreg
  · rw [hstate]
    exact htype

theorem Without.front {w : Ed} (hw : Without s w lo hi) (hle : lo ≤ hi) (h₁ : hi < s.end_) {i : Int}
    (h₀ : s.text ≤ i) (hi : i < lo) : w.mem i = s.mem i := by
  have hlen := s.length_bytes
  obtain ⟨k, rfl⟩ : ∃ k : Nat, i = s.text + k := ⟨(i - s.text).toNat, by omega⟩
  rw [← hw.text]
  refine Buf.mem_of_bytes ?_
  rw [hw.bytes, List.getElem?_append_left (by rw [List.length_take]; omega),
    List.getElem?_take_of_lt (by omega), List.getElem?_eq_getElem (by omega),
    Buf.getElem_bytes (by omega), hw.text]

theorem Without.behind {w : Ed} (hw : Without s w lo hi) (h₀ : s.text ≤ lo) (hle : lo ≤ hi) {i : Int}
    (hi₀ : hi < i) (hi₁ : i < s.end_) : w.mem (i - (hi - lo + 1)) = s.mem i := by
  have hlen := s.length_bytes
  obtain ⟨k, hk⟩ : ∃ k : Nat, i = hi + 1 + k := ⟨(i - (hi + 1)).toNat, by omega⟩
  obtain ⟨b, hb⟩ : ∃ b : Nat, lo = s.text + b := ⟨(lo - s.text).toNat, by omega⟩
  rw [show i - (hi - lo + 1) = w.text + ((b + k : Nat) : Int) by rw [hw.text]; push_cast; omega]
  refine Buf.mem_of_bytes ?_
  rw [hw.bytes, List.getElem?_append_right (by rw [List.length_take]; omega), List.length_take,
    List.getElem?_drop, List.getElem?_eq_getElem (by omega), Buf.getElem_bytes (by omega)]
  congr 2
  omega

/-- No blanks to copy. -/
theorem leading_eq_zero_iff {b : Buf} {a e : Int} (h : b.Leading a e n) :
    n = 0 ↔ a = e ∨ isblank (b.mem a) = false := by
  have hle := h.le
  constructor
  · rintro rfl
    have hstop := h.stop
    simp only [Int.natCast_zero, Int.add_zero] at hstop hle
    rcases Int.lt_or_eq_of_le hle with hlt | heq
    · exact .inr (hstop hlt)
    · exact .inl heq
  · rintro (rfl | hno)
    · omega
    · by_contra hn
      have hblank := h.blank a (by omega) (by omega)
      rw [hno] at hblank
      cases hblank

/-- The first byte of the blanks that `autoindent` copies into the line that `C` leaves: the line
behind it, or the line above it. -/
def indentSource (s : Ed) (lo hi : Int) : Option Int :=
  if hi < s.end_ - 1 then if s.indentcol < 0 then some (hi + 1) else none
  else if lo = s.text ∨ s.indentcol < 0 then none
  else some (s.beginLine (lo - 1))

/-- The line of `C` stays empty. -/
def LeavesEmpty (s : Ed) (lo hi : Int) : Prop :=
  s.autoindent = true → ∀ p ∈ s.indentSource lo hi, isblank (s.mem p) = false

theorem emptyLine_charInsert {w x : Ed} (h : w.emptyLine = some x) :
    ∃ q t, w.charInsert w.dot 10 .chain = some (q, t) ∧ x.bytes = t.bytes ∧ x.toRegs = w.toRegs := by
  unfold emptyLine charInsertDot at h
  simp only [Option.bind_eq_bind, Option.bind_eq_some_iff] at h
  obtain ⟨y, ⟨⟨q, t⟩, ht, hy⟩, hx⟩ := h
  refine ⟨q, t, ht, ?_⟩
  obtain rfl := Option.some.inj hy
  obtain rfl := Option.some.inj hx
  have hregs := charInsert_newline_toRegs ht
  split
  · unfold dotPrev
    rw [undoQueueCommit_eq]
    exact ⟨rfl, hregs⟩
  · exact ⟨rfl, hregs⟩

theorem indentFrom_le (s : Ed) (p : Int) : (s.indentFrom p).1 ≤ (s.indentFrom p).2 := by
  unfold indentFrom
  split
  · exact Int.le_max_left ..
  · exact s.beginLine_le p

/-- Where `C` puts its newline. -/
theorem Without.dot_split {w : Ed} (hw : Without s w lo hi) (hlines : s.TakesLines lo hi)
    (h₀ : s.text ≤ lo) (hle : lo ≤ hi) (h₁ : hi < s.end_) :
    w.text ≤ w.dot ∧ w.dot ≤ w.end_ ∧
      w.bytes.take (w.dot - w.text).toNat ++ [NL] ++ w.bytes.drop (w.dot - w.text).toNat =
        s.bytes.take (lo - s.text).toNat ++ [NL] ++ s.bytes.drop (hi + 1 - s.text).toNat := by
  have hlen := s.length_bytes
  have hend := hw.end_
  have htext := hw.text
  have hdot := hw.dot
  have hpre : (s.bytes.take (lo - s.text).toNat).length = (lo - s.text).toNat := by
    rw [List.length_take]
    omega
  have hat (hd : w.dot = lo) : w.bytes.take (w.dot - w.text).toNat ++ [NL] ++
      w.bytes.drop (w.dot - w.text).toNat =
        s.bytes.take (lo - s.text).toNat ++ [NL] ++ s.bytes.drop (hi + 1 - s.text).toNat := by
    rw [hw.bytes, show (w.dot - w.text).toNat = (lo - s.text).toNat by omega,
      List.take_left' hpre, List.drop_left' hpre]
  by_cases hlast : hi < s.end_ - 1
  · rw [if_neg (by omega), if_neg (by omega)] at hdot
    exact ⟨by omega, by omega, hat hdot⟩
  · by_cases hfirst : lo = s.text
    · rw [if_pos (by omega)] at hdot
      exact ⟨by omega, by omega, hat (by omega)⟩
    · -- the newline of the line above is pushed behind the new one
      rw [if_neg (by omega), if_pos (by omega)] at hdot
      refine ⟨by omega, by omega, ?_⟩
      have habove := (hlines.lineStart h₀).newline (by omega)
      have hnone : s.bytes.drop (hi + 1 - s.text).toNat = [] := List.drop_eq_nil_of_le (by omega)
      obtain ⟨b, hb⟩ : ∃ b : Nat, lo = s.text + b + 1 := ⟨(lo - s.text - 1).toNat, by omega⟩
      have htake : s.bytes.take (b + 1) = s.bytes.take b ++ [NL] := by
        rw [List.take_succ_eq_append_getElem (by omega), Buf.getElem_bytes (by omega),
          ← habove, show lo - 1 = s.text + b by omega]
      have hshort : (s.bytes.take b).length = b := by
        rw [List.length_take]
        omega
      rw [hw.bytes, hnone, List.append_nil, List.append_nil,
        show (w.dot - w.text).toNat = b by omega, show (lo - s.text).toNat = b + 1 by omega, htake,
        List.take_left' hshort, List.drop_left' hshort]

/-- The blanks behind the new line are those of `indentSource`. -/
theorem Without.indent_iff {w : Ed} (hw : Without s w lo hi) (hlines : s.TakesLines lo hi)
    (h₀ : s.text ≤ lo) (hle : lo ≤ hi) (h₁ : hi < s.end_) (hnl : s.mem (s.end_ - 1) = NL) :
    ((w.indentFrom w.dot).1 = (w.indentFrom w.dot).2 ∨
        isblank (w.mem (w.indentFrom w.dot).1) = false) ↔
      ∀ p ∈ s.indentSource lo hi, isblank (s.mem p) = false := by
  have hend := hw.end_
  have htext := hw.text
  have hdot := hw.dot
  have hcol := hw.indentcol
  have hstop : isblank NL = false := by decide
  have hfront {p : Int} (hp : s.LineStart p) (hlt : p ≤ lo) : w.LineStart p :=
    ⟨by rw [htext]; exact hp.text_le, fun hpos => by
      rw [hw.front hle h₁ (by omega) (by omega), hp.newline (by omega)]⟩
  have hstart := hlines.lineStart h₀
  unfold indentSource indentFrom
  by_cases hlast : hi < s.end_ - 1
  · rw [if_neg (by omega), if_neg (by omega)] at hdot
    rw [if_pos hlast, hcol, hdot]
    by_cases hin : s.indentcol < 0
    · rw [if_pos hin, if_pos hin]
      have hbehind := hw.behind h₀ hle (show hi < hi + 1 by omega) (by omega)
      rw [show hi + 1 - (hi - lo + 1) = lo by omega] at hbehind
      simp only [Option.mem_def, Option.some.injEq, forall_eq', hbehind, or_iff_right_iff_imp]
      intro heq
      -- a line of one byte is empty
      rw [show hi + 1 = s.end_ - 1 by omega, hnl, hstop]
    · rw [if_neg hin, if_neg hin]
      refine iff_of_true (.inl ?_) (by simp)
      exact Buf.beginLine_of_lineStart _ (hfront hstart (Int.le_refl _))
  · rw [if_neg hlast]
    by_cases hfirst : lo = s.text
    · -- nothing is left
      rw [if_pos (by omega)] at hdot
      rw [if_pos (show lo = s.text ∨ s.indentcol < 0 from .inl hfirst), hdot]
      refine iff_of_true (.inl ?_) (by simp)
      split
      · simp only
        omega
      · exact w.beginLine_of_le (by omega)
    · -- behind the last line that is left
      rw [if_neg (by omega), if_pos (by omega)] at hdot
      rw [show w.dot = lo - 1 by omega, hcol]
      by_cases hin : s.indentcol < 0
      · rw [if_pos hin, if_pos (show lo = s.text ∨ s.indentcol < 0 from .inr hin)]
        refine iff_of_true (.inl ?_) (by simp)
        simp only
        omega
      · rw [if_neg hin, if_neg (by omega)]
        have hle' := s.beginLine_le (lo - 1)
        have hge := s.text_le_beginLine (show s.text ≤ lo - 1 by omega)
        have hbegin : w.beginLine (lo - 1) = s.beginLine (lo - 1) := by
          refine Buf.beginLine_unique (hfront (.beginLine _ (by omega)) (by omega)) hle' ?_
          intro i hi hi'
          rw [hw.front hle h₁ (by omega) (by omega)]
          exact s.beginLine_noNL hi hi'
        rw [hbegin, hw.front hle h₁ hge (by omega)]
        simp only [Option.mem_def, Option.some.injEq, forall_eq', or_iff_right_iff_imp]
        intro heq
        rw [heq, hstart.newline (by omega), hstop]

/-- What `C` leaves in place of whole lines. -/
theorem emptyLine_iff {w x : Ed} (hw : Without s w lo hi) (hlines : s.TakesLines lo hi)
    (h₀ : s.text ≤ lo) (hle : lo ≤ hi) (h₁ : hi < s.end_) (hnl : s.mem (s.end_ - 1) = NL)
    (hts : 1 ≤ s.tabstop) (h : w.emptyLine = some x) :
    x.bytes = s.bytes.take (lo - s.text).toNat ++ [NL] ++ s.bytes.drop (hi + 1 - s.text).toNat ↔
      s.LeavesEmpty lo hi := by
  obtain ⟨q, t, ht, hx, -⟩ := emptyLine_charInsert h
  have hai : w.autoindent = s.autoindent := congrArg Options.autoindent hw.options
  have htabs : w.tabstop = s.tabstop := congrArg Options.tabstop hw.options
  obtain ⟨hd₀, hd₁, hsplit⟩ := hw.dot_split hlines h₀ hle h₁
  obtain ⟨n, hn⟩ : ∃ n, w.Leading (w.indentFrom w.dot).1 (w.indentFrom w.dot).2 n := by
    have hfrom := w.indentFrom_le w.dot
    generalize w.indentFrom w.dot = from_ at hfrom
    obtain ⟨n, hn⟩ := exists_leading w.toBuf (from_.2 - from_.1).toNat from_.1
    exact ⟨n, by rwa [show from_.1 + ((from_.2 - from_.1).toNat : Int) = from_.2 by omega] at hn⟩
  have hone := charInsert_newline_iff hw.fits hd₀ hd₁ (by omega) hn ht
  rw [hsplit] at hone
  rw [hx, hone, leading_eq_zero_iff hn, hw.indent_iff hlines h₀ hle h₁ hnl, hai]
  unfold LeavesEmpty
  cases s.autoindent <;> simp

/-! ## Whole lines -/

/-- The text that is to be left of the lines that a selection touches. -/
def linesLeft (s : Ed) (c lo hi : Int) : List UInt8 :=
  if c = key 'Y' then s.bytes
  else s.bytes.take (s.beginLine lo - s.text).toNat ++ (if c = key 'C' then [NL] else []) ++
    s.bytes.drop (s.endLine hi + 1 - s.text).toNat

/-- The text is `linesLeft`, and the register has the touched lines. -/
structure OnLines (s t : Ed) (c lo hi : Int) : Prop where
  bytes : t.bytes = s.linesLeft c lo hi
  regtype : t.regtype s.ydreg = .whole
  reg : (t.reg s.ydreg).map Reg.body = some (s.touched lo hi)

theorem emptyLine_isSome (s : Ed) : ∃ x, s.emptyLine = some x := by
  unfold emptyLine charInsertDot
  simp only [show UInt8.ofInt 10 = 10 by decide, charInsert_newline s s.dot .chain rfl,
    Option.bind_eq_bind, Option.bind_some]
  exact ⟨_, rfl⟩

theorem visualYank_isSome {c : Int} (hc : isLineOperator c = true) (u : Ed) (lo hi : Int) :
    ∃ t, u.visualYank c lo hi = some t := by
  unfold visualYank
  simp only [isLineOperator, Bool.or_eq_true, beq_iff_eq] at hc
  rcases hc with ((rfl | rfl) | rfl) | rfl
  · exact ⟨_, rfl⟩
  · exact ⟨_, rfl⟩
  · exact ⟨_, rfl⟩
  · obtain ⟨x, hx⟩ := emptyLine_isSome (u.yankDeleteDot lo hi .whole true .allow)
    exact ⟨_, Option.bind_eq_some_iff.mpr ⟨x, hx, rfl⟩⟩

theorem visualYank_iff {c : Int} (hf : u.Fits) (hnl : u.bytes.getLast? = some NL)
    (hts : 1 ≤ u.tabstop) (hc : isLineOperator c = true) (h₀ : u.text ≤ lo) (hle : lo ≤ hi)
    (h₁ : hi < u.end_) (h : u.visualYank c lo hi = some t) :
    OnLines u t c lo hi ↔ u.TakesLines lo hi ∧ (c = key 'C' → u.LeavesEmpty lo hi) := by
  obtain ⟨x, hx, hbuf, hreg, htype⟩ := visualYank_parts hc h
  have hbytes : t.bytes = x.bytes := congrArg Buf.bytes hbuf
  have hw := yankDeleteDot_without hf h₀ hle h₁
  obtain ⟨hkeep, hkind⟩ := textYank_reg u hle u.ydreg .whole
  have hregs : (x.reg u.ydreg).map Reg.body = some (u.yanked lo hi) ∧
      x.regtype u.ydreg = .whole := by
    split at hx
    · obtain ⟨-, -, -, -, hsame⟩ := emptyLine_charInsert hx
      rw [congrArg Regs.reg hsame, congrArg Regs.regtype hsame]
      exact ⟨hw.reg, hw.regtype⟩
    · cases hyf : (!(c == key 'Y')) with
      | true =>
        rw [hx, hyf]
        exact ⟨hw.reg, hw.regtype⟩
      | false =>
        rw [hx, hyf, yankDeleteDot_lines _ hle, if_neg (by simp)]
        exact ⟨hkeep, hkind⟩
  obtain ⟨hbody, hwhole⟩ := hregs
  have hleft (hlines : u.TakesLines lo hi) :
      t.bytes = u.linesLeft c lo hi ↔ (c = key 'C' → u.LeavesEmpty lo hi) := by
    unfold linesLeft
    rw [hbytes, ← hlines.begin, ← hlines.end_]
    by_cases hC : c = key 'C'
    · rw [if_pos hC] at hx
      rw [if_neg (by subst hC; decide), if_pos hC,
        emptyLine_iff hw hlines h₀ hle h₁ (Buf.mem_last hnl) hts hx]
      simp [hC]
    · rw [if_neg hC] at hx
      refine iff_of_true ?_ (fun h => absurd h hC)
      by_cases hY : c = key 'Y'
      · rw [if_pos hY, hx, yankDeleteDot_lines _ hle, if_neg (by simp [hY])]
        rfl
      · rw [if_neg hY, if_neg hC, hx, show (!(c == key 'Y')) = true by simp [hY], hw.bytes,
          List.append_nil]
  constructor
  · rintro ⟨hb, -, hr⟩
    rw [hreg, hbody, Option.some.injEq] at hr
    have hlines := (yankedLines_iff hle).mp hr
    exact ⟨hlines, (hleft hlines).mp hb⟩
  · rintro ⟨hlines, hC⟩
    refine ⟨(hleft hlines).mpr hC, ?_, ?_⟩
    · rw [htype, hwhole]
    · rw [hreg, hbody, (yankedLines_iff hle).mpr hlines]

/-- The linewise operators act on whole lines exactly when the selection has them from end to end,
without a NUL, and `C` finds no blanks to copy. -/
theorem visualLines_iff {c a : Int} (hf : s.Fits) (hnl : s.bytes.getLast? = some NL)
    (hts : 1 ≤ s.tabstop) (hc : isLineOperator c = true) (ha : s.viVisualAnchor = some a)
    (h₀ : s.text ≤ a) (h₁ : a < s.end_) (h₂ : s.text ≤ s.dot) (h₃ : s.dot < s.end_) :
    ∃ t, s.visualOperate c = some t ∧
      (OnLines s t c (min a s.dot) (max a s.dot) ↔
        s.TakesLines (min a s.dot) (max a s.dot) ∧
          (c = key 'C' → s.LeavesEmpty (min a s.dot) (max a s.dot))) := by
  obtain ⟨t, ht⟩ := visualYank_isSome hc { s with viVisual := false } (min a s.dot) (max a s.dot)
  have hiff := visualYank_iff (u := { s with viVisual := false }) ⟨hf.text_le_end, hf.lt_size⟩ hnl
    hts hc (Int.le_min.mpr ⟨h₀, h₂⟩) (Int.le_trans (Int.min_le_left ..) (Int.le_max_left ..))
    (max_lt h₁ h₃) ht
  refine ⟨t.endCmdQ, ?_, ?_⟩
  · rw [visualOperate_lines hc ha h₀ h₁ h₂ h₃, ht]
    rfl
  · constructor
    · intro hon
      exact hiff.mp ⟨hon.bytes, hon.regtype, hon.reg⟩ |>.imp (fun h => ⟨h.begin, h.end_, h.nonul⟩) id
    · rintro ⟨hlines, hC⟩
      have hon := hiff.mpr ⟨⟨hlines.begin, hlines.end_, hlines.nonul⟩, hC⟩
      exact ⟨hon.bytes, hon.regtype, hon.reg⟩

/-- Two lines, and a selection from the first byte to `dot`. -/
def selectingTo (d : Int) : Ed :=
  { EditOp.holding [97, 98, NL, 99, NL] with
    rows := 24
    columns := 80
    tabstop := 8
    ydreg := 26
    viVisual := true
    viVisualAnchor := some 4096
    dot := d }

/-- The first line, with its newline. -/
theorem visualLines_first :
    ∃ t, (selectingTo 4098).visualOperate (key 'D') = some t ∧
      OnLines (selectingTo 4098) t (key 'D') 4096 4098 := by
  obtain ⟨t, ht, hiff⟩ := visualLines_iff (s := selectingTo 4098) (c := key 'D') (a := 4096)
    ⟨by decide, by decide⟩ (by decide) (by decide) (by decide) rfl (by decide) (by decide)
    (by decide) (by decide)
  refine ⟨t, ht, hiff.mpr ⟨⟨by decide, by decide, by decide⟩, fun h => absurd h (by decide)⟩⟩

/-- Without its newline, the line is joined with the next one. -/
theorem visualLines_part :
    ¬ ∀ (s t : Ed) (c a : Int), s.Fits → s.bytes.getLast? = some NL → 1 ≤ s.tabstop →
      isLineOperator c = true → s.viVisualAnchor = some a → s.text ≤ a → a < s.end_ →
      s.text ≤ s.dot → s.dot < s.end_ → s.visualOperate c = some t →
      OnLines s t c (min a s.dot) (max a s.dot) := by
  intro h
  obtain ⟨t, ht⟩ := Option.isSome_iff_exists.mp
    (show ((selectingTo 4097).visualOperate (key 'D')).isSome by decide +kernel)
  have hbytes : ((selectingTo 4097).visualOperate (key 'D')).map (fun t => t.bytes) =
      some [NL, 99, NL] := by decide +kernel
  have hon := h _ t (key 'D') 4096 ⟨by decide, by decide⟩ (by decide) (by decide) (by decide) rfl
    (by decide) (by decide) (by decide) (by decide) ht
  rw [ht, Option.map_some, hon.bytes] at hbytes
  exact absurd hbytes (by decide)

end Ed

end Evim
