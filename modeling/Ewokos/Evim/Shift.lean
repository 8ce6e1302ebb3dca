import Ewokos.Evim.Growth
import Ewokos.Evim.OpenPut
import Ewokos.Evim.AutoIndent
import Ewokos.Evim.Substitution
import Ewokos.Evim.VisualLines

/-!
# evim: shifting lines

`<` and `>` of `do_cmd` and of `visual_operate`.

* `unshiftLine_shiftLine` — a left shift takes back what a right shift puts in front of a line.
* `shiftRight_line`, `shiftLeft_line` — one line of the loops.
* `shiftLines_run`, `visualLines_run` — the loops, the first while the block of the text stays.
* `shift_command`, `shift_selection` — the commands on lines by number.
* `shift_right_left` — the text is back after `n>>` and `n<<`, and after `>` and `<` over the lines of
  a selection.
-/

set_option autoImplicit false

namespace Evim

open Cells Runs Word
open CString hiding strchr

/-! ## A line -/

/-- `>` on a line: `tab` in front of it, unless it is empty. -/
def shiftLine (tab l : List UInt8) : List UInt8 := if l = [NL] then l else tab ++ l

/-- The loop of `<` over spaces. -/
def dropSpaces : Nat → List UInt8 → List UInt8
  | 0, l => l
  | _ + 1, [] => []
  | n + 1, c :: l => if c = 32 then dropSpaces n l else c :: l

/-- `<` on a line: without a tab or up to `w` spaces. -/
def unshiftLine (w : Nat) (l : List UInt8) : List UInt8 :=
  if l.head? = some 9 then l.tail else dropSpaces w l

theorem dropSpaces_replicate (l : List UInt8) : ∀ n : Nat,
    dropSpaces n (List.replicate n 32 ++ l) = l
  | 0 => by cases l <;> rfl
  | n + 1 => by
    rw [List.replicate_succ, List.cons_append, dropSpaces, if_pos rfl, dropSpaces_replicate l n]

theorem unshiftLine_shiftLine {w : Nat} (hw : 1 ≤ w) {tab l : List UInt8} (hl : Piece NL l)
    (htab : tab = [9] ∨ tab = List.replicate w 32) : unshiftLine w (shiftLine tab l) = l := by
  unfold shiftLine unshiftLine
  by_cases hempty : l = [NL]
  · subst hempty
    obtain ⟨n, rfl⟩ : ∃ n, w = n + 1 := ⟨w - 1, by omega⟩
    rw [if_pos rfl, if_neg (by decide)]
    exact if_neg (by decide)
  · rw [if_neg hempty]
    rcases htab with rfl | rfl
    · exact if_pos rfl
    · rw [dropSpaces_replicate, if_neg]
      obtain ⟨n, rfl⟩ : ∃ n, w = n + 1 := ⟨w - 1, by omega⟩
      rw [List.replicate_succ, List.cons_append, List.head?_cons]
      decide

theorem shiftLine_piece {tab l : List UInt8} (hl : Piece NL l) (htab : NL ∉ tab) :
    Piece NL (shiftLine tab l) := by
  unfold shiftLine
  split
  · exact hl
  · obtain ⟨c, rfl, hc⟩ := hl
    refine ⟨tab ++ c, (List.append_assoc ..).symm, fun h => ?_⟩
    rcases List.mem_append.mp h with h | h
    · exact htab h
    · exact hc h

namespace Ed

variable {s t : Ed} {p q : Int} {pre post l : List UInt8} {undo : Undo}

/-- What `>` puts in front of a line. -/
def shiftTab (s : Ed) : List UInt8 :=
  if s.expandtab then List.replicate s.tabstop.toNat 32 else [9]

theorem newline_notMem_shiftTab (s : Ed) : NL ∉ s.shiftTab := by
  unfold shiftTab
  split
  · intro h
    exact absurd (List.eq_of_mem_replicate h) (by decide)
  · decide

/-- The options and the modes. -/
def settings (s : Ed) : Options × CmdMode × Bool := (s.toOptions, s.cmdMode, s.viVisual)

theorem toOptions_of_settings (h : t.settings = s.settings) : t.toOptions = s.toOptions :=
  congrArg Prod.fst h

/-! ## One line of the loops -/

theorem stupidInsert_settings (s : Ed) (p : Int) (c : UInt8) :
    (s.stupidInsert p c).2.settings = s.settings := by
  rw [stupidInsert_eq, stringInsert_frame]
  rfl

theorem expandLoop_settings (undo : Undo) : ∀ (n : Nat) (s : Ed) (p : Int),
    (expandLoop undo n s p).2.settings = s.settings
  | 0, _, _ => rfl
  | n + 1, s, p => by
    unfold expandLoop
    dsimp only
    rw [expandLoop_settings undo n, stupidInsert_settings, undoPushInsert_eq]
    rfl

theorem stupidInsert_at (hf : s.Fits) (h : s.bytes = pre ++ post) (c : UInt8) :
    (s.stupidInsert (s.text + pre.length) c).2.Fits ∧
      (s.stupidInsert (s.text + pre.length) c).2.bytes = (pre ++ [c]) ++ post ∧
      s.text + pre.length + 1 + (s.stupidInsert (s.text + pre.length) c).1 =
        (s.stupidInsert (s.text + pre.length) c).2.text + ((pre ++ [c]).length : Nat) := by
  have hlen := s.length_bytes
  rw [h, List.length_append] at hlen
  have hle := hf.text_le_end
  rw [stupidInsert_eq]
  refine ⟨stringInsert_fits s hf _ _ _, ?_, ?_⟩
  · rw [stringInsert_bytes s hf (by omega) (by omega), h, List.take_left' (by omega),
      List.drop_left' (by omega)]
  · rw [stringInsert_text, List.length_append, List.length_singleton]
    omega

/-- The blanks of an expanded tab. -/
theorem expandLoop_at (undo : Undo) : ∀ (n : Nat) {s : Ed} {pre : List UInt8}, s.Fits →
    s.bytes = pre ++ post →
    (expandLoop undo n s (s.text + pre.length)).2.Fits ∧
      (expandLoop undo n s (s.text + pre.length)).2.bytes = pre ++ List.replicate n 32 ++ post ∧
      (expandLoop undo n s (s.text + pre.length)).1 =
        (expandLoop undo n s (s.text + pre.length)).2.text +
          ((pre ++ List.replicate n 32).length : Nat)
  | 0, s, pre, hf, h => by
    rw [List.replicate_zero, List.append_nil]
    exact ⟨hf, h, rfl⟩
  | n + 1, s, pre, hf, h => by
    have hs := s.undoPushInsert_eq (s.text + pre.length) 1 undo
    unfold expandLoop
    dsimp only
    generalize s.undoPushInsert (s.text + pre.length) 1 undo = u at hs
    have htext : u.text = s.text := by rw [hs]
    obtain ⟨hf₁, h₁, hp₁⟩ := stupidInsert_at (s := u) (by rw [hs]; exact hf)
      (show u.bytes = pre ++ post by rw [hs]; exact h) 32
    have ih := expandLoop_at undo n hf₁ h₁
    rw [htext] at hp₁ ih h₁
    have hmore : pre ++ List.replicate (n + 1) 32 = pre ++ [32] ++ List.replicate n 32 := by
      rw [List.replicate_succ, List.append_assoc]
      rfl
    rw [hp₁, hmore]
    exact ih

/-- At the beginning of a line a tab is `tabstop` wide. -/
theorem tabWidth_lineStart (h : s.LineStart p) :
    s.nextTabstop (s.getColumn p) - s.getColumn p + 1 = s.tabstop := by
  have hcol := getColumn_columnAt (s := s) (n := 0) h (fun i h₁ h₂ => by omega)
  rw [Int.natCast_zero, Int.add_zero] at hcol
  rw [hcol]
  unfold nextTabstop
  change 0 + (s.tabstop - 1 - 0 % s.tabstop) - 0 + 1 = s.tabstop
  rw [Int.zero_emod]
  omega

/-- From a place on a line to the next one. -/
theorem nextLine_within (h : s.bytes = pre ++ (l ++ post)) (hl : Piece NL l) {k : Nat}
    (hk : k < l.length) :
    s.nextLine (s.text + pre.length + k) =
      if post = [] then s.text + pre.length + l.length - 1 else s.text + pre.length + l.length := by
  obtain ⟨c, rfl, hc⟩ := hl
  rw [List.length_append, List.length_singleton] at hk ⊢
  have hlen : (pre ++ c.take k).length = pre.length + k := by
    rw [List.length_append, List.length_take]
    omega
  have hsplit : s.bytes = pre ++ c.take k ++ c.drop k ++ NL :: post := by
    rw [h, List.append_assoc pre, List.append_assoc pre, List.take_append_drop, List.append_assoc c]
    rfl
  have hnext := Buf.nextLine_of_bytes hsplit (fun hmem => hc (List.mem_of_mem_drop hmem))
  rw [hlen, List.length_drop] at hnext
  rw [Int.add_assoc, ← Int.natCast_add, hnext]
  split <;> omega

theorem endLine_piece (h : s.bytes = pre ++ (l ++ post)) (hl : Piece NL l) :
    s.endLine (s.text + pre.length) = s.text + pre.length + l.length - 1 := by
  obtain ⟨c, rfl, hc⟩ := hl
  have hsplit : s.bytes = pre ++ c ++ NL :: post := by
    rw [h, List.append_assoc pre, List.append_assoc c]
    rfl
  have hend := Buf.endLine_of_bytes hsplit hc
  rw [hend, List.length_append, List.length_singleton]
  omega

/-- `>` on one line. -/
theorem shiftRight_line (hts : 1 ≤ s.tabstop ∧ s.tabstop ≤ MAX_TABSTOP) (hf : s.Fits)
    (h : s.bytes = pre ++ (l ++ post)) (hl : Piece NL l) (hpre : Closed NL pre) (undo : Undo) :
    ∃ q t, s.shiftRight (s.text + pre.length) undo = some (q, t) ∧ t.Fits ∧
      t.bytes = pre ++ (shiftLine s.shiftTab l ++ post) ∧ t.settings = s.settings ∧
      t.text = s.text + s.shiftOf (s.shiftWidth (s.text + pre.length)) ∧
      ∃ k < (shiftLine s.shiftTab l).length, q = t.text + pre.length + k := by
  obtain ⟨q, t, hrun, -, htext⟩ := shiftRight_spec hts (s.text + pre.length) undo
  refine ⟨q, t, hrun, ?_⟩
  have hend := endLine_piece h hl
  unfold shiftLine
  unfold shiftRight at hrun
  by_cases hempty : l = [NL]
  · subst hempty
    rw [if_neg (by rw [hend, List.length_singleton]; omega)] at hrun
    obtain ⟨rfl, rfl⟩ := Prod.mk.inj (Option.some.inj hrun)
    rw [if_pos rfl]
    exact ⟨hf, h, rfl, htext, 0, by decide, (Int.add_zero _).symm⟩
  · have hlong : 1 < l.length := by
      obtain ⟨c, rfl, -⟩ := hl
      cases c with
      | nil => exact absurd rfl hempty
      | cons => simp
    rw [if_pos (by rw [hend]; omega)] at hrun
    rw [if_neg hempty]
    unfold charInsert at hrun
    dsimp only at hrun
    rw [if_neg (by decide), if_neg (by decide), if_neg (by decide)] at hrun
    unfold shiftTab
    by_cases hx : s.expandtab = true
    · have hstart := lineStart_of_bytes (s := s.toBuf) h rfl fun hne => hpre.resolve_left hne
      rw [if_pos ⟨rfl, hx⟩] at hrun
      obtain ⟨hft, hbt, hqt⟩ := expandLoop_at undo s.tabstop.toNat hf h
      unfold expandTab at hrun
      dsimp only at hrun
      rw [tabWidth_lineStart hstart] at hrun
      obtain ⟨rfl, rfl⟩ := Prod.mk.inj (Option.some.inj hrun)
      rw [if_pos hx]
      refine ⟨⟨hft.text_le_end, hft.lt_size⟩, ?_, expandLoop_settings undo _ s _, htext,
        s.tabstop.toNat, ?_, ?_⟩
      · rw [List.append_assoc, ← List.append_assoc pre]
        exact hbt
      · rw [List.length_append, List.length_replicate]
        omega
      · refine hqt.trans ?_
        rw [List.length_append, List.length_replicate]
        simp only
        omega
    · rw [if_neg fun hm => hx hm.2, if_neg (by decide), insertPlain_tab] at hrun
      obtain ⟨hft, hbt, hqt⟩ := stupidInsert_at hf h 9
      obtain ⟨rfl, rfl⟩ := Prod.mk.inj (Option.some.inj hrun)
      rw [if_neg hx]
      refine ⟨⟨hft.text_le_end, hft.lt_size⟩, ?_,
        s.stupidInsert_settings (s.text + pre.length) 9, htext, 1, ?_, ?_⟩
      · rw [List.append_assoc, ← List.append_assoc pre]
        exact hbt
      · rw [List.length_append, List.length_singleton]
        omega
      · refine hqt.trans ?_
        rw [List.length_append, List.length_singleton]
        simp only
        omega

/-- One byte less, in front of others. -/
theorem deleteAt {c : UInt8} (hf : s.Fits) (h : s.bytes = pre ++ c :: post) (hne : post ≠ [])
    (undo : Undo) :
    ∃ t, s.textHoleDelete (s.text + pre.length) (s.text + pre.length) undo =
        (s.text + pre.length, t) ∧ t.Fits ∧ t.text = s.text ∧ t.bytes = pre ++ post ∧
      t.settings = s.settings := by
  have hlen := s.length_bytes
  have hpos := List.length_pos_of_ne_nil hne
  rw [h, List.length_append, List.length_cons] at hlen
  have h₀ : s.text ≤ s.text + (pre.length : Int) := by omega
  have h₁ : s.text + (pre.length : Int) < s.end_ := by omega
  have hstate := textHoleDelete_state s h₀ (Int.le_refl _) h₁ undo
  obtain ⟨hfits, hbytes⟩ := textHoleDelete_byte s hf h undo
  refine ⟨(s.textHoleDelete (s.text + pre.length) (s.text + pre.length) undo).2, Prod.ext ?_ rfl,
    hfits, ?_, hbytes, ?_⟩
  · rw [textHoleDelete_dest s h₀ (Int.le_refl _) h₁, if_neg (by omega), if_neg (by omega)]
  · rw [hstate]
  · rw [hstate]
    rfl

/-- What a left shift leaves of a line, and the line pointer where it was. -/
structure Unshifted (s t : Ed) (pre l post : List UInt8) : Prop where
  fits : t.Fits
  text : t.text = s.text
  bytes : t.bytes = pre ++ (l ++ post)
  settings : t.settings = s.settings

theorem unindentLoop_at : ∀ (n : Nat) {s : Ed} {l : List UInt8} (undo : Undo), s.Fits →
    s.bytes = pre ++ (l ++ post) → Piece NL l →
    Unshifted s (unindentLoop (s.text + pre.length) n undo s).2.2 pre (dropSpaces n l) post ∧
      visualUnindent n (s.text + pre.length) undo s =
        (s.text + pre.length, (unindentLoop (s.text + pre.length) n undo s).2.2)
  | 0, s, l, undo, hf, h, _ => ⟨⟨hf, rfl, by cases l <;> exact h, rfl⟩, rfl⟩
  | n + 1, s, l, undo, hf, h, ⟨c, hl, hc⟩ => by
    unfold unindentLoop visualUnindent
    cases c with
    | nil =>
      subst hl
      have hstop : ¬ s.mem (s.text + pre.length) = 32 := by
        rw [Buf.mem_of_append h]
        decide
      rw [if_neg hstop, if_neg hstop]
      exact ⟨⟨hf, rfl, h, rfl⟩, rfl⟩
    | cons b c =>
      subst hl
      rw [Buf.mem_of_append h]
      by_cases hb : b = 32
      · have hbyte : s.bytes = pre ++ b :: (c ++ [NL] ++ post) := h
        obtain ⟨t, hrun, hft, htext, hbytes, hopts⟩ := deleteAt hf hbyte (by simp) undo
        obtain ⟨ih, ihv⟩ := unindentLoop_at n .chain hft hbytes
          ⟨c, rfl, fun hmem => hc (List.mem_cons_of_mem _ hmem)⟩
        rw [htext] at ih ihv
        rw [if_pos hb, if_pos hb, hrun]
        have hdrop : dropSpaces (n + 1) (b :: c ++ [NL]) = dropSpaces n (c ++ [NL]) := if_pos hb
        rw [hdrop]
        exact ⟨⟨ih.fits, ih.text.trans htext, ih.bytes, ih.settings.trans hopts⟩, ihv⟩
      · rw [if_neg hb, if_neg hb]
        have hdrop : dropSpaces (n + 1) (b :: c ++ [NL]) = b :: c ++ [NL] := if_neg hb
        rw [hdrop]
        exact ⟨⟨hf, rfl, h, rfl⟩, rfl⟩

/-- `<` on one line, in both modes. -/
theorem shiftLeft_line (hf : s.Fits) (h : s.bytes = pre ++ (l ++ post)) (hl : Piece NL l)
    (undo : Undo) :
    Unshifted s (s.shiftLeft (s.text + pre.length) undo) pre (unshiftLine s.tabstop.toNat l) post ∧
      s.visualShift true (s.text + pre.length) undo =
        some (s.text + pre.length, s.shiftLeft (s.text + pre.length) undo) := by
  obtain ⟨c, rfl, hc⟩ := hl
  obtain ⟨b, m, hm⟩ : ∃ b m, c ++ [NL] = b :: m := by
    cases c with
    | nil => exact ⟨NL, [], rfl⟩
    | cons b c => exact ⟨b, c ++ [NL], rfl⟩
  have hmem : s.mem (s.text + pre.length) = b := by
    rw [hm] at h
    exact Buf.mem_of_append h
  unfold shiftLeft visualShift unshiftLine
  rw [hmem, if_pos rfl, hm, List.head?_cons]
  by_cases htab : b = 9
  · have hne : m ++ post ≠ [] := by
      cases c with
      | nil =>
        obtain ⟨rfl, -⟩ := List.cons.inj hm
        exact absurd htab (by decide)
      | cons x c =>
        obtain ⟨-, rfl⟩ := List.cons.inj hm
        simp
    rw [hm] at h
    obtain ⟨t, hrun, hft, htext, hbytes, hopts⟩ := deleteAt hf h hne undo
    rw [if_pos htab, if_pos htab, if_pos (by rw [htab]), hrun]
    exact ⟨⟨hft, htext, hbytes, hopts⟩, rfl⟩
  · have hhead : ¬ some b = some (9 : UInt8) := by simpa using htab
    rw [if_neg htab, if_neg htab, if_neg hhead]
    obtain ⟨hloop, hvisual⟩ := unindentLoop_at s.tabstop.toNat undo hf h ⟨c, rfl, hc⟩
    rw [← hm]
    by_cases hspace : b = 32
    · rw [if_pos hspace, if_pos hspace]
      exact ⟨hloop, by rw [hvisual]⟩
    · rw [if_neg hspace, if_neg hspace]
      have hnone : dropSpaces s.tabstop.toNat (c ++ [NL]) = c ++ [NL] := by
        rw [hm]
        cases s.tabstop.toNat with
        | zero => rfl
        | succ n => exact if_neg hspace
      rw [hnone]
      exact ⟨⟨hf, rfl, h, rfl⟩, rfl⟩

/-! ## The loops -/

/-- A loop over lines: `step` answers where the line pointer is behind its line. -/
def lineLoop (step : Int → Undo → Ed → Option (Int × Ed)) : Nat → Int → Undo → Ed → Option Ed
  | 0, _, _, s => some s
  | n + 1, p, undo, s => do
    let (p, s) ← step p undo s
    lineLoop step n (s.nextLine p) .chain s

theorem visualLines_eq (left : Bool) : ∀ (n : Nat) (p : Int) (undo : Undo) (s : Ed),
    visualLines left n p undo s = lineLoop (fun p undo s => s.visualShift left p undo) n p undo s
  | 0, _, _, _ => rfl
  | n + 1, p, undo, s => by
    unfold visualLines lineLoop
    refine congrArg _ ?_
    funext r
    exact visualLines_eq left n _ _ _

/-- One line of the loop of a command: its line pointer stays as it is. -/
def shiftStep (left : Bool) (p : Int) (undo : Undo) (s : Ed) : Option (Int × Ed) :=
  (if left then some (s.shiftLeft p undo) else (s.shiftRight p undo).map (·.2)).map fun t => (p, t)

theorem shiftLines_eq (left : Bool) : ∀ (n : Nat) (p : Int) (undo : Undo) (s : Ed),
    shiftLines left n p undo s = lineLoop (shiftStep left) n p undo s
  | 0, _, _, _ => rfl
  | n + 1, p, undo, s => by
    unfold shiftLines lineLoop shiftStep
    simp only [Option.bind_eq_bind, Option.bind_map]
    refine congrArg _ ?_
    funext t
    exact shiftLines_eq left n _ _ _

/-- A loop does to each line what `step` does, as long as its pointer stays on the line.  `Ok` is
what the rounds that are left need. -/
theorem lineLoop_run {step : Int → Undo → Ed → Option (Int × Ed)} {f : List UInt8 → List UInt8}
    {o : Options × CmdMode × Bool} (Ok : Nat → Int → Undo → Ed → Prop)
    (hf : ∀ l, Piece NL l → Piece NL (f l))
    (hstep : ∀ (n : Nat) (s : Ed) (pre l post : List UInt8) (undo : Undo), s.Fits →
      s.bytes = pre ++ (l ++ post) → Piece NL l → Closed NL pre → s.settings = o →
      Ok (n + 1) (s.text + pre.length) undo s →
      ∃ q t, step (s.text + pre.length) undo s = some (q, t) ∧ t.Fits ∧
        t.bytes = pre ++ (f l ++ post) ∧ t.settings = o ∧ (n = 0 ∨
          Ok n (t.nextLine q) .chain t ∧ ∃ k < (f l).length, q = t.text + pre.length + k)) :
    ∀ (ls : List (List UInt8)) {s : Ed} {pre post : List UInt8} {p : Int} {undo : Undo},
      (∀ r ∈ ls, Piece NL r) → s.Fits → s.bytes = pre ++ (ls.flatten ++ post) → Closed NL pre →
      s.settings = o → (ls ≠ [] → p = s.text + pre.length) → Ok ls.length p undo s →
      ∃ t, lineLoop step ls.length p undo s = some t ∧ t.Fits ∧
        t.bytes = pre ++ ((ls.map f).flatten ++ post) ∧ t.settings = o
  | [], s, pre, post, p, undo, _, hfit, h, _, ho, _, _ => ⟨s, rfl, hfit, h, ho⟩
  | r :: ls, s, pre, post, p, undo, hp, hfit, h, hpre, ho, hat, hok => by
    obtain rfl := hat (List.cons_ne_nil r ls)
    have hr := hp r List.mem_cons_self
    rw [List.flatten_cons, List.append_assoc] at h
    obtain ⟨q, t, hrun, hft, hbytes, hot, hnext⟩ := hstep ls.length s pre r _ undo hfit h hr hpre ho hok
    have hfr := hf r hr
    have hpre' : Closed NL (pre ++ f r) := by
      obtain ⟨c, hc, -⟩ := hfr
      refine .inr ?_
      rw [hc, ← List.append_assoc, List.getLast?_concat]
    have hbytes' : t.bytes = pre ++ f r ++ (ls.flatten ++ post) := by
      rw [hbytes, List.append_assoc]
    have hok' : ls ≠ [] → t.nextLine q = t.text + ((pre ++ f r).length : Nat) ∧
        Ok ls.length (t.nextLine q) .chain t := by
      intro hne
      obtain ⟨hok', k, hk, hq⟩ := hnext.resolve_left fun h₀ => hne (List.eq_nil_of_length_eq_zero h₀)
      have hmore : ls.flatten ++ post ≠ [] := by
        cases ls with
        | nil => exact absurd rfl hne
        | cons x ls =>
          obtain ⟨c, rfl, -⟩ := hp x (List.mem_cons_of_mem _ List.mem_cons_self)
          simp
      refine ⟨?_, hok'⟩
      rw [hq, nextLine_within hbytes hfr hk, if_neg hmore, List.length_append]
      omega
    cases ls with
    | nil =>
      refine ⟨t, ?_, hft, ?_, hot⟩
      · change (step (s.text + pre.length) undo s).bind _ = some t
        rw [hrun]
        rfl
      · rw [hbytes]
        simp
    | cons x ls =>
      obtain ⟨hplace, hok''⟩ := hok' (List.cons_ne_nil x ls)
      obtain ⟨u, hu, hfu, hbu, hou⟩ := lineLoop_run Ok hf hstep (x :: ls)
        (fun y hy => hp y (List.mem_cons_of_mem _ hy)) hft hbytes' hpre' hot (fun _ => hplace) hok''
      refine ⟨u, ?_, hfu, ?_, hou⟩
      · change (step (s.text + pre.length) undo s).bind _ = some u
        rw [hrun]
        exact hu
      · rw [hbu]
        simp

/-- What a shift does to a line. -/
def shiftOn (s : Ed) (left : Bool) (l : List UInt8) : List UInt8 :=
  if left then unshiftLine s.tabstop.toNat l else shiftLine s.shiftTab l

theorem dropSpaces_piece : ∀ (n : Nat) {l : List UInt8}, Piece NL l → Piece NL (dropSpaces n l)
  | 0, _, h => by
    unfold dropSpaces
    exact h
  | n + 1, _, ⟨[], hl, _⟩ => by
    subst hl
    exact ⟨[], if_neg (by decide), List.not_mem_nil⟩
  | n + 1, _, ⟨b :: c, hl, hc⟩ => by
    subst hl
    by_cases hb : b = 32
    · have hdrop : dropSpaces (n + 1) (b :: c ++ [NL]) = dropSpaces n (c ++ [NL]) := if_pos hb
      rw [hdrop]
      exact dropSpaces_piece n ⟨c, rfl, fun h => hc (List.mem_cons_of_mem _ h)⟩
    · have hdrop : dropSpaces (n + 1) (b :: c ++ [NL]) = b :: c ++ [NL] := if_neg hb
      rw [hdrop]
      exact ⟨b :: c, rfl, hc⟩

theorem unshiftLine_piece (w : Nat) (hl : Piece NL l) : Piece NL (unshiftLine w l) := by
  unfold unshiftLine
  split
  · rename_i hhead
    obtain ⟨c, rfl, hc⟩ := hl
    cases c with
    | nil => exact absurd hhead (by decide)
    | cons b c => exact ⟨c, rfl, fun h => hc (List.mem_cons_of_mem _ h)⟩
  · exact dropSpaces_piece w hl

theorem shiftOn_piece (s : Ed) (left : Bool) (hl : Piece NL l) : Piece NL (s.shiftOn left l) := by
  unfold shiftOn
  split
  · exact unshiftLine_piece _ hl
  · exact shiftLine_piece hl s.newline_notMem_shiftTab

theorem shiftOn_congr (h : t.toOptions = s.toOptions) (left : Bool) :
    t.shiftOn left = s.shiftOn left := by
  have hts := congrArg Options.tabstop h
  have hx := congrArg Options.expandtab h
  unfold shiftOn shiftTab
  rw [hts, hx]

section Loops

variable {ls : List (List UInt8)} (hts : 1 ≤ s.tabstop ∧ s.tabstop ≤ MAX_TABSTOP) (hf : s.Fits)
  (hp : ∀ r ∈ ls, Piece NL r) (h : s.bytes = pre ++ (ls.flatten ++ post)) (hpre : Closed NL pre)
  (hat : ls ≠ [] → p = s.text + pre.length) (undo : Undo)
include hts hf hp h hpre hat

/-- The loop of a command.  To the right, the block stays while there are more lines. -/
theorem shiftLines_run (left : Bool) (hstay : left = false → LinesStay (ls.length - 1) p undo s) :
    ∃ t, shiftLines left ls.length p undo s = some t ∧ t.Fits ∧
      t.bytes = pre ++ ((ls.map (s.shiftOn left)).flatten ++ post) ∧ t.settings = s.settings := by
  rw [shiftLines_eq]
  refine lineLoop_run (fun n p undo s => left = false → LinesStay (n - 1) p undo s)
    (fun l hl => s.shiftOn_piece left hl) ?_ ls hp hf h hpre rfl hat hstay
  intro n u pre l post undo hfu hu hl hpre ho hok
  have hts' : 1 ≤ u.tabstop ∧ u.tabstop ≤ MAX_TABSTOP := by
    rw [congrArg Options.tabstop (toOptions_of_settings ho)]
    exact hts
  have hlong := List.length_pos_of_ne_nil (l := s.shiftOn left l) (by
    obtain ⟨c, hc, -⟩ := s.shiftOn_piece left hl
    rw [hc]
    simp)
  rw [← shiftOn_congr (toOptions_of_settings ho) left] at hlong ⊢
  unfold shiftStep
  cases left with
  | true =>
    obtain ⟨hw, -⟩ := shiftLeft_line hfu hu hl undo
    refine ⟨_, _, rfl, hw.fits, hw.bytes, hw.settings.trans ho, .inr ⟨fun hl => absurd hl (by simp),
      0, hlong, ?_⟩⟩
    rw [hw.text, Int.natCast_zero, Int.add_zero]
  | false =>
    obtain ⟨q, t, hrun, hft, hbytes, hot, htext, -⟩ := shiftRight_line hts' hfu hu hl hpre undo
    refine ⟨u.text + pre.length, t, by rw [hrun]; rfl, hft, hbytes, hot.trans ho, ?_⟩
    cases n with
    | zero => exact .inl rfl
    | succ n =>
      obtain ⟨hmoves, hrest⟩ := hok rfl
      rw [(shiftOf_iff u _).mpr hmoves, Int.add_zero] at htext
      refine .inr ⟨fun _ => hrest q t hrun, 0, hlong, ?_⟩
      rw [htext, Int.natCast_zero, Int.add_zero]

/-- The loop over a selection follows the block. -/
theorem visualLines_run (left : Bool) :
    ∃ t, visualLines left ls.length p undo s = some t ∧ t.Fits ∧
      t.bytes = pre ++ ((ls.map (s.shiftOn left)).flatten ++ post) ∧ t.settings = s.settings := by
  rw [visualLines_eq]
  refine lineLoop_run (fun _ _ _ _ => True) (fun l hl => s.shiftOn_piece left hl) ?_ ls hp hf h hpre
    rfl hat trivial
  intro n u pre l post undo hfu hu hl hpre ho _
  have hts' : 1 ≤ u.tabstop ∧ u.tabstop ≤ MAX_TABSTOP := by
    rw [congrArg Options.tabstop (toOptions_of_settings ho)]
    exact hts
  rw [← shiftOn_congr (toOptions_of_settings ho) left]
  cases left with
  | true =>
    obtain ⟨hw, hvisual⟩ := shiftLeft_line hfu hu hl undo
    refine ⟨_, _, hvisual, hw.fits, hw.bytes, hw.settings.trans ho, .inr ⟨trivial, 0, ?_, ?_⟩⟩
    · obtain ⟨c, hc, -⟩ := unshiftLine_piece u.tabstop.toNat hl
      change 0 < (unshiftLine u.tabstop.toNat l).length
      rw [hc]
      simp
    · rw [hw.text, Int.natCast_zero, Int.add_zero]
  | false =>
    obtain ⟨q, t, hrun, hft, hbytes, hot, -, hk⟩ := shiftRight_line hts' hfu hu hl hpre undo
    exact ⟨q, t, hrun, hft, hbytes, hot.trans ho, .inr ⟨trivial, hk⟩⟩

end Loops

/-! ## Where the block stays -/

/-- The same text, options and answers of the allocator: keys may have been read, and the cursor
moved. -/
structure Alike (s t : Ed) : Prop where
  buf : t.toBuf = s.toBuf
  options : t.toOptions = s.toOptions
  env : ∃ ks, t.env = { s.env with keys := ks }

namespace Alike

variable {u v : Ed}

theorem refl (s : Ed) : Alike s s := ⟨rfl, rfl, s.env.keys, rfl⟩

theorem trans (h₁ : Alike s t) (h₂ : Alike t u) : Alike s u := by
  obtain ⟨ks, hk⟩ := h₁.env
  obtain ⟨ks', hk'⟩ := h₂.env
  exact ⟨h₂.buf.trans h₁.buf, h₂.options.trans h₁.options, ks', by rw [hk', hk]⟩

theorem of_keyed (h : Keyed s t) : Alike s t := by
  have hl := h.idle.looked
  exact ⟨hl.buf, hl.options, _, h.env⟩

variable (h : Alike s u)
include h

theorem moves_iff (n : Int) : u.Moves n ↔ s.Moves n := by
  obtain ⟨ks, hk⟩ := h.env
  have htext := congrArg Buf.text h.buf
  have hend := congrArg Buf.end_ h.buf
  have hsize := congrArg Buf.textSize h.buf
  unfold Moves
  rw [htext, hend, hsize, hk]

theorem textHoleMake (p n : Int) :
    (u.textHoleMake p n).1 = (s.textHoleMake p n).1 ∧
      Alike (s.textHoleMake p n).2 (u.textHoleMake p n).2 := by
  obtain ⟨ks, hk⟩ := h.env
  have htext := congrArg Buf.text h.buf
  have hend := congrArg Buf.end_ h.buf
  have hsize := congrArg Buf.textSize h.buf
  have hmem := congrArg Buf.mem h.buf
  unfold Ed.textHoleMake
  by_cases hn : n ≤ 0
  · rw [if_pos hn, if_pos hn]
    exact ⟨rfl, h⟩
  · rw [if_neg hn, if_neg hn]
    unfold growText
    simp only [htext, hend, hsize, hmem, hk]
    by_cases hgrow : s.end_ + n ≥ s.text + s.textSize
    · simp only [if_pos hgrow, true_and]
      exact ⟨rfl, h.options, ks, rfl⟩
    · simp only [if_neg hgrow, true_and]
      exact ⟨rfl, h.options, ks, rfl⟩

theorem stupidInsert (p : Int) (c : UInt8) :
    (u.stupidInsert p c).1 = (s.stupidInsert p c).1 ∧
      Alike (s.stupidInsert p c).2 (u.stupidInsert p c).2 := by
  obtain ⟨hbias, hbuf, hopts, henv⟩ := h.textHoleMake p 1
  refine ⟨hbias, ?_, hopts, henv⟩
  unfold Ed.stupidInsert
  dsimp only
  rw [hbias]
  generalize u.textHoleMake p 1 = r at hbuf
  generalize s.textHoleMake p 1 = r' at hbuf
  rw [hbuf]

theorem undoPushInsert (p : Int) (n : Nat) (a b : Undo) :
    Alike (s.undoPushInsert p n a) (u.undoPushInsert p n b) := by
  have hs := s.undoPushInsert_eq p n a
  have hu := u.undoPushInsert_eq p n b
  generalize s.undoPushInsert p n a = s' at hs ⊢
  generalize u.undoPushInsert p n b = u' at hu ⊢
  rw [hs, hu]
  exact ⟨h.buf, h.options, h.env⟩

omit h in
theorem expandLoop (a b : Undo) : ∀ (n : Nat) {s u : Ed} (p : Int), Alike s u →
    (Ed.expandLoop b n u p).1 = (Ed.expandLoop a n s p).1 ∧
      Alike (Ed.expandLoop a n s p).2 (Ed.expandLoop b n u p).2
  | 0, _, _, _, h => ⟨rfl, h⟩
  | n + 1, s, u, p, h => by
    obtain ⟨hbias, hins⟩ := (h.undoPushInsert p 1 a b).stupidInsert p 32
    unfold Ed.expandLoop
    dsimp only
    rw [hbias]
    exact expandLoop a b n _ hins

theorem getColumn (p : Int) : u.getColumn p = s.getColumn p := by
  have hts := congrArg Options.tabstop h.options
  unfold Ed.getColumn nextColumn nextTabstop
  rw [h.buf, hts]

theorem nextTabstop (col : Int) : u.nextTabstop col = s.nextTabstop col := by
  have hts := congrArg Options.tabstop h.options
  unfold Ed.nextTabstop
  rw [hts]

theorem shiftWidth (p : Int) : u.shiftWidth p = s.shiftWidth p := by
  have hx := congrArg Options.expandtab h.options
  unfold Ed.shiftWidth
  rw [h.buf, h.getColumn, h.nextTabstop, hx]

/-- `>` does the same to the same text. -/
theorem shiftRight {a b : Undo} (hr : u.shiftRight p b = some (q, v)) :
    ∃ t, s.shiftRight p a = some (q, t) ∧ Alike t v := by
  have hx := congrArg Options.expandtab h.options
  have hend : u.endLine p = s.endLine p := by rw [h.buf]
  unfold Ed.shiftRight at hr ⊢
  rw [hend] at hr
  by_cases hp : p ≠ s.endLine p
  · rw [if_pos hp] at hr ⊢
    unfold charInsert at hr ⊢
    dsimp only at hr ⊢
    rw [if_neg (by decide), if_neg (by decide), if_neg (by decide), hx] at hr
    rw [if_neg (by decide), if_neg (by decide), if_neg (by decide)]
    by_cases hex : (9 : UInt8) = 9 ∧ s.expandtab = true
    · rw [if_pos hex] at hr ⊢
      unfold expandTab at hr ⊢
      dsimp only at hr ⊢
      rw [h.getColumn, h.nextTabstop] at hr
      obtain ⟨hplace, halike⟩ := Alike.expandLoop a b
        (s.nextTabstop (s.getColumn p) - s.getColumn p + 1).toNat p h
      obtain ⟨rfl, rfl⟩ := Prod.mk.inj (Option.some.inj hr)
      exact ⟨(leaveIndent (Ed.expandLoop a
        (s.nextTabstop (s.getColumn p) - s.getColumn p + 1).toNat s p)).2,
        congrArg some (Prod.ext hplace.symm rfl), halike.buf, halike.options, halike.env⟩
    · rw [if_neg hex, if_neg (by decide), insertPlain_tab] at hr ⊢
      obtain ⟨hbias, halike⟩ := h.stupidInsert p 9
      obtain ⟨rfl, rfl⟩ := Prod.mk.inj (Option.some.inj hr)
      rw [hbias]
      exact ⟨_, rfl, halike.buf, halike.options, halike.env⟩
  · rw [if_neg hp] at hr ⊢
    obtain ⟨rfl, rfl⟩ := Prod.mk.inj (Option.some.inj hr)
    exact ⟨s, rfl, h⟩

omit h in
theorem linesStay : ∀ {n : Nat} {p : Int} {a : Undo} (b : Undo) {s u : Ed}, Alike s u →
    LinesStay n p a s → LinesStay n p b u
  | 0, _, _, _, _, _, _, _ => trivial
  | n + 1, p, a, b, s, u, h, ⟨hmoves, hrest⟩ => by
    refine ⟨fun hm => hmoves ?_, fun q v hr => ?_⟩
    · rw [h.shiftWidth] at hm
      exact (h.moves_iff _).mp hm
    · obtain ⟨t, ht, halike⟩ := h.shiftRight (a := a) hr
      have hnext : v.nextLine p = t.nextLine p := by rw [halike.buf]
      rw [hnext]
      exact linesStay .chain halike (hrest q t ht)

end Alike

/-! ## Line numbers -/

section Numbers

theorem lineNumber_same {p q : Int} (h₀ : s.text ≤ p) (hle : p ≤ q) (h₁ : q < s.end_)
    (hno : ∀ i, p ≤ i → i < q → s.mem i ≠ NL) : s.lineNumber q = s.lineNumber p := by
  rw [Buf.lineNumber_eq _ (by omega) h₁, Buf.lineNumber_eq _ h₀ (by omega),
    Buf.newlines_add _ h₀ hle, Buf.newlines_none _ hno, Nat.add_zero]

theorem lineNumber_mono {p q : Int} (h₀ : s.text ≤ p) (hle : p ≤ q) (h₁ : q < s.end_) :
    s.lineNumber p ≤ s.lineNumber q := by
  rw [Buf.lineNumber_eq _ (by omega) h₁, Buf.lineNumber_eq _ h₀ (by omega),
    Buf.newlines_add _ h₀ hle]
  omega

variable (h₀ : s.text ≤ p) (h₁ : p < s.end_)
include h₀ h₁

theorem one_le_lineNumber : 1 ≤ s.lineNumber p := by
  rw [Buf.lineNumber_eq _ h₀ h₁]
  omega

theorem lineNumber_le : s.lineNumber p ≤ s.lines.length := by
  rw [Buf.lineNumber_eq _ h₀ h₁, Buf.length_lines _ (by omega),
    Buf.newlines_add _ h₀ (show p ≤ s.end_ - 1 by omega)]
  omega

/-- A line ends in a newline, and the next one starts behind it. -/
theorem nextLine_lineNumber (h : s.lineNumber p < s.lines.length) :
    s.nextLine p = s.endLine p + 1 ∧ s.nextLine p < s.end_ ∧
      s.lineNumber (s.nextLine p) = s.lineNumber p + 1 := by
  have hge := s.le_endLine p
  have hlt := s.endLine_lt h₁
  have hmore : s.endLine p ≠ s.end_ - 1 := by
    intro hend
    have hsame := lineNumber_same h₀ hge hlt fun i h h' => s.endLine_noNL h h'
    rw [hend, Buf.lineNumber_eq _ (by omega) (by omega), ← Buf.length_lines _ (by omega)] at hsame
    omega
  have hnl := (s.endLine_stop h₁).resolve_right hmore
  have hnext : s.nextLine p = s.endLine p + 1 := by
    unfold Buf.nextLine
    dsimp only
    rw [if_pos ⟨by omega, hnl⟩]
  refine ⟨hnext, by omega, ?_⟩
  rw [hnext, Buf.lineNumber_eq _ (by omega) (by omega), Buf.lineNumber_eq _ h₀ h₁,
    Buf.newlines_add _ h₀ (by omega), Buf.newlines_endLine, if_pos hnl]

variable (hnl : s.bytes.getLast? = some NL)
include hnl

theorem beginLine_offset : s.beginLine p = s.text + s.lineOffset (s.lineNumber p - 1) := by
  have hone := one_le_lineNumber h₀ h₁
  have hle := lineNumber_le h₀ h₁
  have hfind := Buf.findLine_offset hnl (k := s.lineNumber p - 1) (by omega)
  rw [Nat.sub_add_cancel hone, Buf.findLine_lineNumber _ h₀ h₁] at hfind
  exact hfind

theorem countLines_between {q : Int} (hle : p ≤ q) (hq : q < s.end_) :
    s.countLines p q = s.lineNumber q + 1 - s.lineNumber p := by
  have hge := s.le_endLine q
  have hend : s.mem (s.endLine q) = NL := by
    rcases s.endLine_stop hq with hmem | hend
    · exact hmem
    · rw [hend]
      exact Buf.mem_last hnl
  have hsum := Buf.newlines_add s.toBuf (p := s.text) (q := p) (r := s.endLine q + 1) h₀ (by omega)
  have hq' := Buf.newlines_add s.toBuf (p := s.text) (q := q) (r := s.endLine q + 1) (by omega)
    (by omega)
  rw [Buf.newlines_endLine, if_pos hend] at hq'
  rw [Buf.countLines_eq _ hle hq, Buf.lineNumber_eq _ h₀ h₁,
    Buf.lineNumber_eq _ (by omega) hq]
  omega

end Numbers

/-- The lines `b` through `e` shifted. -/
def shiftedLines (s : Ed) (left : Bool) (b e : Nat) : List (List UInt8) :=
  s.lines.take (b - 1) ++ ((s.lines.take e).drop (b - 1)).map (s.shiftOn left) ++ s.lines.drop e

theorem shiftedLines_congr (hb : t.toBuf = s.toBuf) (ho : t.toOptions = s.toOptions) (left : Bool)
    (b e : Nat) : t.shiftedLines left b e = s.shiftedLines left b e := by
  unfold shiftedLines
  rw [hb, shiftOn_congr ho]

/-- The outcome of a shift of the lines `b` through `e`. -/
structure ShiftsLines (s : Ed) (left : Bool) (b e : Nat) (t : Ed) : Prop where
  fits : t.Fits
  bytes : t.bytes = (s.shiftedLines left b e).flatten
  settings : t.settings = s.settings

section Between

variable (hts : 1 ≤ s.tabstop ∧ s.tabstop ≤ MAX_TABSTOP) (hf : s.Fits)
  (hnl : s.bytes.getLast? = some NL) (h₀ : s.text ≤ p) (hle : p ≤ q) (h₁ : q < s.end_)
include hnl h₀ hle h₁

/-- The text before, in and behind the lines of two positions. -/
theorem lines_between :
    ((s.lines.take (s.lineNumber q)).drop (s.lineNumber p - 1)).length =
        (s.countLines p q).toNat ∧
      (∀ r ∈ (s.lines.take (s.lineNumber q)).drop (s.lineNumber p - 1), Piece NL r) ∧
      s.bytes = (s.lines.take (s.lineNumber p - 1)).flatten ++
        (((s.lines.take (s.lineNumber q)).drop (s.lineNumber p - 1)).flatten ++
          (s.lines.drop (s.lineNumber q)).flatten) ∧
      Closed NL (s.lines.take (s.lineNumber p - 1)).flatten ∧
      s.beginLine p = s.text + (s.lines.take (s.lineNumber p - 1)).flatten.length := by
  have hb := one_le_lineNumber h₀ (show p < s.end_ by omega)
  have hbe := lineNumber_mono h₀ hle h₁
  have he := lineNumber_le (show s.text ≤ q by omega) h₁
  have hcount := countLines_between h₀ (show p < s.end_ by omega) hnl hle h₁
  have hpieces := Buf.lines_pieces hnl
  refine ⟨?_, fun r hr => hpieces r (List.mem_of_mem_take (List.mem_of_mem_drop hr)), ?_, ?_,
    beginLine_offset h₀ (by omega) hnl⟩
  · rw [List.length_drop, List.length_take, hcount]
    omega
  · have htake : s.lines.take (s.lineNumber p - 1) =
        (s.lines.take (s.lineNumber q)).take (s.lineNumber p - 1) := by
      rw [List.take_take, Nat.min_eq_left (by omega)]
    rw [htake, ← List.append_assoc, ← List.flatten_append, List.take_append_drop]
    exact s.bytes_lines _
  · by_cases hnone : s.lines.take (s.lineNumber p - 1) = []
    · exact .inl (by rw [hnone]; rfl)
    · exact .inr (getLast?_pieces (fun r hr => hpieces r (List.mem_of_mem_take hr)) hnone)

include hts hf

theorem shiftLines_between (left : Bool) (undo : Undo)
    (hstay : left = false → LinesStay (s.lineNumber q - s.lineNumber p) (s.beginLine p) undo s) :
    ∃ t, shiftLines left (s.countLines p q).toNat (s.beginLine p) undo s = some t ∧
      s.ShiftsLines left (s.lineNumber p) (s.lineNumber q) t := by
  obtain ⟨hlen, hpieces, hbytes, hclosed, hplace⟩ := lines_between hnl h₀ hle h₁
  have hcount := countLines_between h₀ (show p < s.end_ by omega) hnl hle h₁
  have hb := one_le_lineNumber h₀ (show p < s.end_ by omega)
  obtain ⟨t, hrun, hft, hbt, hst⟩ := shiftLines_run hts hf hpieces hbytes hclosed (fun _ => hplace)
    undo left fun hleft => by
      rw [hlen, show (s.countLines p q).toNat - 1 = s.lineNumber q - s.lineNumber p by omega]
      exact hstay hleft
  rw [hlen] at hrun
  refine ⟨t, hrun, hft, ?_, hst⟩
  unfold shiftedLines
  rw [hbt, List.flatten_append, List.flatten_append, List.append_assoc]

theorem visualLines_between (left : Bool) (undo : Undo) :
    ∃ t, visualLines left (s.countLines p q).toNat (s.beginLine p) undo s = some t ∧
      s.ShiftsLines left (s.lineNumber p) (s.lineNumber q) t := by
  obtain ⟨hlen, hpieces, hbytes, hclosed, hplace⟩ := lines_between hnl h₀ hle h₁
  obtain ⟨t, hrun, hft, hbt, hst⟩ := visualLines_run hts hf hpieces hbytes hclosed (fun _ => hplace)
    undo left
  rw [hlen] at hrun
  refine ⟨t, hrun, hft, ?_, hst⟩
  unfold shiftedLines
  rw [hbt, List.flatten_append, List.flatten_append, List.append_assoc]

end Between

/-- Shifted lines are lines. -/
theorem shiftedLines_pieces (hnl : s.bytes.getLast? = some NL) (left : Bool) (b e : Nat) :
    ∀ r ∈ s.shiftedLines left b e, Piece NL r := by
  have hpieces := Buf.lines_pieces hnl
  intro r hr
  unfold shiftedLines at hr
  rcases List.mem_append.mp hr with hr | hr
  · rcases List.mem_append.mp hr with hr | hr
    · exact hpieces r (List.mem_of_mem_take hr)
    · obtain ⟨l, hl, rfl⟩ := List.mem_map.mp hr
      exact s.shiftOn_piece left (hpieces l (List.mem_of_mem_take (List.mem_of_mem_drop hl)))
  · exact hpieces r (List.mem_of_mem_drop hr)

theorem length_shiftedLines (left : Bool) {b e : Nat} (hb : 1 ≤ b) (hbe : b ≤ e)
    (he : e ≤ s.lines.length) : (s.shiftedLines left b e).length = s.lines.length := by
  unfold shiftedLines
  simp only [List.length_append, List.length_map, List.length_take, List.length_drop]
  omega

theorem shiftedLines_ne_nil (left : Bool) {b e : Nat} (hb : 1 ≤ b) (hbe : b ≤ e)
    (he : e ≤ s.lines.length) : s.shiftedLines left b e ≠ [] := by
  have hlen := length_shiftedLines (s := s) left hb hbe he
  intro hnone
  rw [hnone, List.length_nil] at hlen
  omega

theorem ShiftsLines.lines {left : Bool} {b e : Nat} (h : s.ShiftsLines left b e t)
    (hnl : s.bytes.getLast? = some NL) (hb : 1 ≤ b) (hbe : b ≤ e) (he : e ≤ s.lines.length) :
    t.lines = s.shiftedLines left b e ∧ t.bytes.getLast? = some NL := by
  have hpieces := shiftedLines_pieces hnl left b e
  have hne := shiftedLines_ne_nil (s := s) left hb hbe he
  refine ⟨(Buf.lines_of_pieces h.bytes hpieces hne).1, ?_⟩
  rw [h.bytes]
  exact getLast?_pieces hpieces hne

/-- **A shift to the left takes back one to the right.** -/
theorem ShiftsLines.back {u : Ed} {b e : Nat} (h : s.ShiftsLines false b e t)
    (h' : u.bytes = (t.shiftedLines true b e).flatten) (hts : 1 ≤ s.tabstop)
    (hnl : s.bytes.getLast? = some NL) (hb : 1 ≤ b) (hbe : b ≤ e) (he : e ≤ s.lines.length) :
    u.bytes = s.bytes := by
  have hpieces := Buf.lines_pieces hnl
  obtain ⟨hlines, -⟩ := h.lines hnl hb hbe he
  have htab : t.tabstop = s.tabstop := congrArg Options.tabstop (toOptions_of_settings h.settings)
  have hpre : (s.lines.take (b - 1)).length = b - 1 := by
    rw [List.length_take]
    omega
  have hmid : (((s.lines.take e).drop (b - 1)).map (s.shiftOn false)).length = e - (b - 1) := by
    rw [List.length_map, List.length_drop, List.length_take]
    omega
  have hfront : (s.shiftedLines false b e).take e = s.lines.take (b - 1) ++
      ((s.lines.take e).drop (b - 1)).map (s.shiftOn false) := by
    unfold shiftedLines
    exact List.take_left' (by rw [List.length_append]; omega)
  have hback : (s.shiftedLines false b e).drop e = s.lines.drop e := by
    unfold shiftedLines
    exact List.drop_left' (by rw [List.length_append]; omega)
  have hfirst : (s.shiftedLines false b e).take (b - 1) = s.lines.take (b - 1) := by
    unfold shiftedLines
    rw [List.append_assoc]
    exact List.take_left' hpre
  have hundo (l : List UInt8) (hl : l ∈ (s.lines.take e).drop (b - 1)) :
      (t.shiftOn true ∘ s.shiftOn false) l = id l := by
    change unshiftLine t.tabstop.toNat (shiftLine s.shiftTab l) = l
    rw [htab]
    refine unshiftLine_shiftLine (by omega)
      (hpieces l (List.mem_of_mem_take (List.mem_of_mem_drop hl))) ?_
    unfold shiftTab
    split
    · exact .inr rfl
    · exact .inl rfl
  rw [h']
  unfold shiftedLines
  rw [hlines, hfirst, hfront, hback, List.drop_left' hpre, List.map_map,
    List.map_congr_left hundo, List.map_id]
  have htake : s.lines.take (b - 1) = (s.lines.take e).take (b - 1) := by
    rw [List.take_take, Nat.min_eq_left (by omega)]
  rw [htake, List.take_append_drop, List.take_append_drop]
  have hall := s.bytes_lines s.lines.length
  rw [List.take_length, List.drop_length, List.flatten_nil, List.append_nil] at hall
  exact hall.symm

/-! ## The second key -/

/-- A state that is `Alike`, in the same modes. -/
structure Steady (s t : Ed) : Prop extends Alike s t where
  settings : t.settings = s.settings

namespace Steady

variable {u : Ed}

theorem trans (h₁ : Steady s t) (h₂ : Steady t u) : Steady s u :=
  ⟨h₁.toAlike.trans h₂.toAlike, h₂.settings.trans h₁.settings⟩

theorem of_keyed (h : Keyed s t) : Steady s t := by
  have hl := h.idle.looked
  refine ⟨.of_keyed h, ?_⟩
  unfold Ed.settings
  rw [hl.options, hl.cmdMode, h.idle.viVisual]

theorem of_cursor {s : Ed} (cnt : Int) (d : Int) (keep err : Bool) :
    Steady s { s with cmdcnt := cnt, dot := d, keepIndex := keep, cmdError := err } :=
  ⟨⟨rfl, rfl, s.env.keys, rfl⟩, rfl⟩

theorem cmdMode (h : Steady s t) : t.cmdMode = s.cmdMode := congrArg (·.2.1) h.settings

theorem viVisual (h : Steady s t) : t.viVisual = s.viVisual := congrArg (·.2.2) h.settings

end Steady

theorem settle_steady (s : Ed) (c o : Int) : Steady s (s.settle c o) := by
  unfold settle checkContext
  dsimp only
  split <;> split <;> first | exact ⟨⟨rfl, rfl, s.env.keys, rfl⟩, rfl⟩ |
    (split <;> exact ⟨⟨rfl, rfl, s.env.keys, rfl⟩, rfl⟩)

theorem offNewline_steady (s : Ed) : Steady s s.offNewline := by
  unfold offNewline
  split <;> exact ⟨⟨rfl, rfl, s.env.keys, rfl⟩, rfl⟩

/-- Positions of one line. -/
theorem lineNumber_within {r : Int} (h₀ : s.text ≤ p) (h₁ : p < s.end_) (hlo : s.beginLine p ≤ r)
    (hhi : r ≤ s.endLine p) : s.lineNumber r = s.lineNumber p := by
  have hb := s.text_le_beginLine h₀
  have hle := s.beginLine_le p
  have hge := s.le_endLine p
  have hlt := s.endLine_lt h₁
  have hno (i : Int) (hi : s.beginLine p ≤ i) (hi' : i < s.endLine p) : s.mem i ≠ NL := by
    rcases Int.lt_or_le i p with h | h
    · exact s.beginLine_noNL hi h
    · exact s.endLine_noNL h hi'
  rw [lineNumber_same hb hlo (by omega) fun i h h' => hno i h (by omega),
    lineNumber_same hb hle h₁ fun i h h' => hno i h (by omega)]

/-- Behind the switch, with the cursor on a line. -/
theorem epilogue_steady {c o : Int} (h₀ : s.text ≤ s.dot) (h₁ : s.dot < s.end_)
    (h : s.epilogue c o = some t) :
    Steady s t ∧ t.cmdError = s.cmdError ∧ s.beginLine s.dot ≤ t.dot ∧ t.dot ≤ s.dot := by
  rw [epilogue_inRange h₀ h₁] at h
  cases h
  have hset := settle_steady s c o
  have hdot := settle_dot s c o
  have hrange := (s.settle c o).offNewline_range
  rw [hset.buf, hdot] at hrange
  exact ⟨hset.trans (offNewline_steady _), by rw [offNewline_cmdError, settle_cmdError], hrange⟩

theorem moveLoop_range {e : Int} (he : s.mem e = NL) (hlt : e < s.end_) (l : Int) :
    ∀ (n : Nat) (p co : Int), p ≤ e → p ≤ s.moveLoop l n p co ∧ s.moveLoop l n p co ≤ e
  | 0, _, _, h => ⟨Int.le_refl _, h⟩
  | n + 1, p, co, h => by
    unfold moveLoop
    split
    · exact ⟨Int.le_refl _, h⟩
    · rename_i hnl
      have hne : p ≠ e := by
        rintro rfl
        exact hnl he
      dsimp only
      split
      · rw [if_pos (by omega)]
        have ih := moveLoop_range he hlt l n (p + 1) (s.nextColumn (s.mem p) co) (by omega)
        omega
      · exact ⟨Int.le_refl _, h⟩

/-- The loop of `j`, when there are enough lines. -/
theorem downLoop : ∀ {n : Nat} {s : Ed} {q : Int}, s.rounds = n → s.text ≤ q → q < s.end_ →
    s.lineNumber q + n ≤ s.lines.length →
    ∃ q' cnt, cmdLoop (lineRound true) n q s = some (true, q', { s with cmdcnt := cnt }) ∧
      q ≤ q' ∧ q' < s.end_ ∧ s.lineNumber q' = s.lineNumber q + n
  | 0, s, q, hn, _, _, _ => by
    unfold rounds at hn
    split at hn <;> omega
  | n + 1, s, q, hn, h₀, h₁, hlines => by
    obtain ⟨hnext, hlt, hnumber⟩ := nextLine_lineNumber h₀ h₁ (by omega)
    have hge := s.le_endLine q
    have hround : lineRound true q s = some (true, s.nextLine q, s) := by
      unfold lineRound
      simp only [if_true]
      rw [if_neg (by omega)]
    rw [cmdLoop, hround]
    simp only [Option.bind_eq_bind, Option.bind_some, Bool.not_true, Bool.false_eq_true, if_false]
    by_cases hmore : s.cmdcnt - 1 > 0
    · rw [if_pos hmore]
      have hrounds : ({ s with cmdcnt := s.cmdcnt - 1 } : Ed).rounds = n := by
        unfold rounds at hn ⊢
        rw [if_pos (by omega)] at hn
        rw [if_pos hmore]
        simp only
        omega
      obtain ⟨q', cnt, hrun, hle, hlt', hnum⟩ := downLoop (q := s.nextLine q) hrounds (by simp only; omega)
        hlt (by
          change s.lineNumber (s.nextLine q) + n ≤ s.lines.length
          omega)
      refine ⟨q', cnt, hrun, by omega, hlt', ?_⟩
      change s.lineNumber q' = s.lineNumber (s.nextLine q) + n at hnum
      omega
    · rw [if_neg hmore]
      have hzero : n = 0 := by
        unfold rounds at hn
        split at hn <;> omega
      exact ⟨s.nextLine q, _, rfl, by omega, hlt, by omega⟩

theorem moveLines_down (h₀ : s.text ≤ s.dot) (h₁ : s.dot < s.end_)
    (hnl : s.bytes.getLast? = some NL) (hlines : s.lineNumber s.dot + s.rounds ≤ s.lines.length)
    (h : s.moveLines true false = some t) :
    Steady s t ∧ t.cmdError = s.cmdError ∧ s.dot ≤ t.dot ∧ t.dot < s.end_ ∧
      s.lineNumber t.dot = s.lineNumber s.dot + s.rounds := by
  obtain ⟨q, cnt, hrun, hle, hlt, hnumber⟩ := downLoop rfl h₀ h₁ hlines
  unfold moveLines at h
  rw [hrun] at h
  simp only [Option.bind_eq_bind, Option.bind_some, Bool.not_true, Bool.false_eq_true, if_false,
    Option.some.injEq] at h
  have hge := s.le_endLine q
  have hend := s.endLine_lt hlt
  have hb := s.beginLine_le q
  have hmem : s.mem (s.endLine q) = NL := by
    rcases s.endLine_stop hlt with hmem | hlast
    · exact hmem
    · rw [hlast]
      exact Buf.mem_last hnl
  have hcol (d : Int) (hd : s.beginLine q ≤ d) (hd' : d ≤ s.endLine q) :
      s.lineNumber d = s.lineNumber q := lineNumber_within (by omega) hlt hd hd'
  have hrounds : 1 ≤ s.rounds := by
    unfold rounds
    split <;> omega
  have hahead (d : Int) (hd : s.beginLine q ≤ d) : s.dot ≤ d := by
    by_contra hback
    have hmono := lineNumber_mono (s := s) (p := s.beginLine q) (q := s.dot)
      (s.text_le_beginLine (by omega)) (by omega) h₁
    have hsame := hcol (s.beginLine q) (Int.le_refl _) (by omega)
    omega
  subst h
  refine ⟨⟨⟨rfl, rfl, s.env.keys, rfl⟩, rfl⟩, rfl, ?_⟩
  have hdot : ∀ d, s.beginLine q ≤ d → d ≤ s.endLine q →
      s.dot ≤ d ∧ d < s.end_ ∧ s.lineNumber d = s.lineNumber s.dot + s.rounds :=
    fun d hd hd' => ⟨hahead d hd, by omega, (hcol d hd hd').trans hnumber⟩
  simp only
  split
  · exact hdot _ (by omega) (Int.le_refl _)
  · rename_i col _
    have hrange := moveLoop_range (s := { s with cmdcnt := cnt, dot := q }) hmem hend col
      ((s.end_ - s.beginLine q).toNat + 1) (s.beginLine q) 0 (by omega)
    exact hdot _ hrange.1 hrange.2

/-- `j` as the motion of an operator. -/
theorem motion_j (hm : s.cmdMode = .command) (hv : s.viVisual = false) (h₀ : s.text ≤ s.dot)
    (h₁ : s.dot < s.end_) (hnl : s.bytes.getLast? = some NL)
    (hlines : s.lineNumber s.dot + s.rounds ≤ s.lines.length)
    (h : doCmdWith (fun _ _ => none) (key 'j') s = some t) :
    Steady s t ∧ t.cmdError = false ∧ s.dot ≤ t.dot ∧ t.dot < s.end_ ∧
      s.lineNumber t.dot = s.lineNumber s.dot + s.rounds := by
  obtain ⟨s₀, o, u, hoff, hdis, hepi⟩ := doCmdWith_parts h
  have hidle := statusOff_idle hoff
  have hsteady : Steady s s₀ :=
    (Steady.of_cursor s.cmdcnt s.dot false false).trans (.of_keyed (showStatusLine_keyed hoff))
  have hdot : s₀.dot = s.dot := hidle.dot
  have hcnt : s₀.rounds = s.rounds := by
    unfold rounds
    rw [hidle.cmdcnt]
  rw [dispatch_switch (hsteady.cmdMode.trans hm) (by decide) (hsteady.viVisual.trans hv)] at hdis
  obtain ⟨w, hw, hpair⟩ := Option.map_eq_some_iff.mp
    (show (s₀.moveLines true false).map (fun w => (s.dot, w)) = some (o, u) from hdis)
  obtain ⟨rfl, rfl⟩ := Prod.mk.inj hpair
  obtain ⟨hst, herr, hle, hlt, hnumber⟩ := moveLines_down (by rw [hsteady.buf, hdot]; exact h₀)
    (by rw [hsteady.buf, hdot]; exact h₁) (by rw [hsteady.buf]; exact hnl)
    (by rw [hsteady.buf, hdot, hcnt]; exact hlines) hw
  have hbuf := (hsteady.trans hst).buf
  rw [hsteady.buf, hcnt, hdot] at hnumber
  rw [hsteady.buf] at hlt
  rw [hdot] at hle
  obtain ⟨hst', herr', hlo, hhi⟩ := epilogue_steady (by rw [hbuf]; omega) (by rw [hbuf]; exact hlt) hepi
  rw [hbuf] at hlo
  have hnum : s.lineNumber t.dot = s.lineNumber w.dot :=
    lineNumber_within (by omega) hlt hlo (by have := s.le_endLine w.dot; omega)
  refine ⟨(hsteady.trans hst).trans hst', ?_, ?_, by omega, hnum.trans hnumber⟩
  · rw [herr', herr]
    exact hidle.cmdError
  · -- the cursor is on a later line
    have hrounds : 1 ≤ s.rounds := by
      unfold rounds
      split <;> omega
    by_contra hback
    have hmono := lineNumber_mono (s := s) (p := t.dot) (q := s.dot)
      (by have := s.text_le_beginLine (show s.text ≤ w.dot by omega); omega) (by omega) h₁
    omega

/-- The range of `n>>` and `n<<`. -/
theorem findRange_shift {c : Int} {s₁ v : Ed} {r : Option (BufType × Int × Int)} {n : Nat}
    (hc : c = key '>' ∨ c = key '<') (hm : s.cmdMode = .command) (hv : s.viVisual = false)
    (h₀ : s.text ≤ s.dot) (h₁ : s.dot < s.end_) (hnl : s.bytes.getLast? = some NL)
    (hk : s.getMotionChar = some (c, s₁)) (hn : s₁.rounds = n)
    (hlines : s.lineNumber s.dot + n ≤ s.lines.length + 1)
    (h : s.findRange (doCmdWith fun _ _ => none) c = some (r, v)) :
    ∃ q, r = some (.whole, s.dot, q) ∧ Steady s v ∧ s.dot ≤ q ∧ q < s.end_ ∧
      s.lineNumber q + 1 = s.lineNumber s.dot + n := by
  have hkeyed := getMotionChar_keyed hk
  have hst : Steady s s₁ :=
    (Steady.of_cursor s₁.cmdcnt s.dot s.keepIndex s.cmdError).trans (.of_keyed hkeyed)
  have hdot : s₁.dot = s.dot := hkeyed.idle.dot
  have hY : ¬ c = key 'Y' := by rcases hc with rfl | rfl <;> decide
  have hop : (c = key 'Y' ∨ c = c) ∧ strchr (str "cdy><") c = true := by
    rcases hc with rfl | rfl <;> exact ⟨.inr rfl, by decide⟩
  have hends (b : Buf) (p q : Int) (hpq : p ≤ q) : rangeEnds b c .whole p q = (.whole, p, q) := by
    unfold rangeEnds
    rw [if_neg (by omega)]
    rcases hc with rfl | rfl
    · simp only [show strchr (str "^0bBFThnN/?|" ++ [8, 127]) (key '>') = false by decide,
        show strchr [123, 125] (key '>') = false by decide, Bool.false_eq_true, if_false, ite_self]
    · simp only [show strchr (str "^0bBFThnN/?|" ++ [8, 127]) (key '<') = false by decide,
        show strchr [123, 125] (key '<') = false by decide, Bool.false_eq_true, if_false, ite_self]
  unfold findRange at h
  rw [if_neg hY, hk] at h
  simp only [Option.bind_eq_bind, Option.bind_some] at h
  unfold rangeMotion at h
  rw [if_pos hop] at h
  dsimp only at h
  by_cases hmore : s₁.cmdcnt - 1 > 0
  · rw [if_pos hmore] at h
    obtain ⟨⟨b, w⟩, hmot, hrest⟩ := Option.bind_eq_some_iff.mp h
    obtain ⟨x, hx, hb⟩ := Option.bind_eq_some_iff.mp hmot
    have htwo : 2 ≤ n := by
      unfold rounds at hn
      rw [if_pos (by omega)] at hn
      omega
    have hrounds : ({ s₁ with cmdcnt := s₁.cmdcnt - 1 } : Ed).rounds = n - 1 := by
      unfold rounds at hn ⊢
      rw [if_pos (by omega)] at hn
      rw [if_pos hmore]
      simp only
      omega
    obtain ⟨hsj, herr, hle, hlt, hnumber⟩ := motion_j (s := { s₁ with cmdcnt := s₁.cmdcnt - 1 })
      (hst.cmdMode.trans hm) (hst.viVisual.trans hv)
      (show s₁.text ≤ s₁.dot by rw [hst.buf, hdot]; exact h₀)
      (show s₁.dot < s₁.end_ by rw [hst.buf, hdot]; exact h₁)
      (show s₁.bytes.getLast? = some NL by rw [hst.buf]; exact hnl)
      (by
        rw [hrounds]
        change s₁.lineNumber s₁.dot + (n - 1) ≤ s₁.lines.length
        rw [hst.buf, hdot]
        omega) hx
    rw [hrounds] at hnumber
    change s₁.lineNumber x.dot = s₁.lineNumber s₁.dot + (n - 1) at hnumber
    change s₁.dot ≤ x.dot at hle
    change x.dot < s₁.end_ at hlt
    rw [hst.buf, hdot] at hnumber
    rw [hdot] at hle
    rw [hst.buf] at hlt
    rw [herr] at hb
    obtain ⟨rfl, rfl⟩ := Prod.mk.inj (Option.some.inj hb)
    simp only [Bool.false_eq_true, if_false] at hrest
    rw [hends _ _ _ hle] at hrest
    obtain ⟨rfl, rfl⟩ := Prod.mk.inj (Option.some.inj hrest)
    refine ⟨x.dot, rfl, (hst.trans ?_).trans hsj, hle, hlt, by omega⟩
    exact Steady.of_cursor _ s₁.dot s₁.keepIndex s₁.cmdError
  · rw [if_neg hmore] at h
    simp only [Option.bind_some] at h
    rw [hdot, hends _ _ _ (Int.le_refl _)] at h
    obtain ⟨rfl, rfl⟩ := Prod.mk.inj (Option.some.inj h)
    have hone : n = 1 := by
      unfold rounds at hn
      split at hn <;> omega
    exact ⟨s.dot, rfl, hst.trans (Steady.of_cursor _ s.dot s₁.keepIndex s₁.cmdError),
      Int.le_refl _, h₁, by omega⟩

/-! ## The commands -/

theorem wsLoop_noNL {b : Buf} : ∀ (n : Nat) (p i : Int), p ≤ i → i < wsLoop b n p → b.mem i ≠ NL
  | 0, p, i, h, h' => by
    unfold wsLoop at h'
    omega
  | n + 1, p, i, h, h' => by
    unfold wsLoop at h'
    split at h'
    · rename_i hgo
      rcases Int.lt_or_eq_of_le h with hlt | rfl
      · exact wsLoop_noNL n (p + 1) i (by omega) h'
      · exact hgo.2.1
    · omega

/-- Back on the line `b`. -/
theorem findLine_skip (hnl : s.bytes.getLast? = some NL) {b : Nat} (hb : 1 ≤ b)
    (hlines : b ≤ s.lines.length) :
    s.text ≤ ({ s with dot := s.findLine b } : Ed).dotSkipOverWs.dot ∧
      ({ s with dot := s.findLine b } : Ed).dotSkipOverWs.dot < s.end_ ∧
      s.lineNumber ({ s with dot := s.findLine b } : Ed).dotSkipOverWs.dot = b := by
  have hfind := Buf.findLine_offset hnl (k := b - 1) (by omega)
  rw [Nat.sub_add_cancel hb] at hfind
  have hlen := s.length_bytes
  have hlt := Buf.lineOffset_lt hnl (show b - 1 < s.lines.length by omega) (Nat.le_refl _)
  rw [Buf.lineOffset_all] at hlt
  have hnumber := Buf.lineNumber_eq s.toBuf (p := s.text + s.lineOffset (b - 1)) (by omega) (by omega)
  rw [Buf.newlines_offset hnl (by omega), Nat.sub_add_cancel hb] at hnumber
  have hrange := wsLoop_range (s := s.toBuf) (n := (s.end_ - 1 - s.findLine b).toNat)
    (p := s.findLine b) (by omega)
  have hno := wsLoop_noNL (b := s.toBuf) (s.end_ - 1 - s.findLine b).toNat (s.findLine b)
  change s.text ≤ wsLoop s.toBuf (s.end_ - 1 - s.findLine b).toNat (s.findLine b) ∧
    wsLoop s.toBuf (s.end_ - 1 - s.findLine b).toNat (s.findLine b) < s.end_ ∧
    s.lineNumber (wsLoop s.toBuf (s.end_ - 1 - s.findLine b).toNat (s.findLine b)) = b
  refine ⟨by omega, by omega, ?_⟩
  rw [lineNumber_same (by omega) hrange.1 (by omega) hno, hfind, hnumber]

/-- The key of a shift. -/
def shiftKey (left : Bool) : Int := if left then key '<' else key '>'

/-- `n` lines are asked for: the count of the command and of the key behind it. -/
def TypesShift (s : Ed) (left : Bool) (n : Nat) : Prop :=
  ∃ s₀ s₁, s.statusOff = some s₀ ∧ s₀.getMotionChar = some (shiftKey left, s₁) ∧ s₁.rounds = n

theorem switch_shift (motion : Int → Ed → Option Ed) (s : Ed) (left : Bool) (o : Int) :
    s.switch motion (shiftKey left) o = (s.shift motion (shiftKey left)).map fun s => (o, s) := by
  cases left <;> rfl

/-- The end of both commands: back to the first of the lines. -/
theorem ShiftsLines.epilogue {left : Bool} {b e : Nat} {w : Ed} {c o : Int}
    (h : s.ShiftsLines left b e w) (hnl : s.bytes.getLast? = some NL) (hb : 1 ≤ b) (hbe : b ≤ e)
    (he : e ≤ s.lines.length)
    (run : (({ w with dot := w.findLine b } : Ed).dotSkipOverWs.endCmdQ).epilogue c o = some t) :
    s.ShiftsLines left b e t ∧ t.text ≤ t.dot ∧ t.dot < t.end_ ∧ t.lineNumber t.dot = b := by
  obtain ⟨hlines, hwnl⟩ := h.lines hnl hb hbe he
  obtain ⟨hlo, hhi, hnum⟩ := findLine_skip hwnl hb (by
    rw [hlines, length_shiftedLines left hb hbe he]
    omega)
  obtain ⟨hst, -, hback, hfore⟩ := epilogue_steady
    (s := (({ w with dot := w.findLine b } : Ed).dotSkipOverWs).endCmdQ) hlo hhi run
  have htb : t.toBuf = w.toBuf := hst.buf
  rw [htb]
  refine ⟨⟨?_, ?_, hst.settings.trans h.settings⟩, ?_, Int.lt_of_le_of_lt hfore hhi, ?_⟩
  · rw [htb]
    exact h.fits
  · rw [htb]
    exact h.bytes
  · exact Int.le_trans (Buf.text_le_beginLine _ hlo) hback
  · exact (lineNumber_within (s := w) hlo hhi hback
      (Int.le_trans hfore (Buf.le_endLine _ _))).trans hnum

/-- `n` lines from the cursor are to be shifted. -/
structure ShiftsFrom (s : Ed) (left : Bool) (n : Nat) : Prop where
  command : s.cmdMode = .command
  unselected : s.viVisual = false
  text_le_dot : s.text ≤ s.dot
  dot_lt_end : s.dot < s.end_
  typed : s.TypesShift left n

/-- `n>>` and `n<<`. -/
theorem shift_command (left : Bool) {n : Nat} (hts : 1 ≤ s.tabstop ∧ s.tabstop ≤ MAX_TABSTOP)
    (hf : s.Fits) (hnl : s.bytes.getLast? = some NL) (keys : s.ShiftsFrom left n)
    (hlines : s.lineNumber s.dot + n ≤ s.lines.length + 1)
    (hstay : left = false → LinesStay (n - 1) (s.beginLine s.dot) .allow s)
    (run : doCmd (shiftKey left) s = some t) :
    s.ShiftsLines left (s.lineNumber s.dot) (s.lineNumber s.dot + n - 1) t ∧
      t.text ≤ t.dot ∧ t.dot < t.end_ ∧ t.lineNumber t.dot = s.lineNumber s.dot := by
  obtain ⟨hm, hv, h₀, h₁, s₀, s₁, hoff, hk, hn⟩ := keys
  obtain ⟨s₀', o, u, hoff', hdis, hepi⟩ := doCmdWith_parts run
  obtain rfl := Option.some.inj (hoff.symm.trans hoff')
  have hdot : s₀.dot = s.dot := (statusOff_idle hoff).dot
  have hst : Steady s s₀ :=
    (Steady.of_cursor s.cmdcnt s.dot false false).trans (.of_keyed (showStatusLine_keyed hoff))
  have hcursor : isCursorKey (shiftKey left) = false := by cases left <;> rfl
  rw [dispatch_switch (hst.cmdMode.trans hm) hcursor (hst.viVisual.trans hv), switch_shift] at hdis
  obtain ⟨x, hx, hpair⟩ := Option.map_eq_some_iff.mp hdis
  obtain ⟨rfl, rfl⟩ := Prod.mk.inj hpair
  unfold shift at hx
  obtain ⟨⟨r, v⟩, hrange, hx⟩ := Option.bind_eq_some_iff.mp hx
  obtain ⟨q, rfl, hsv, hle, hlt, hnumber⟩ := findRange_shift (by cases left <;> simp [shiftKey])
    (hst.cmdMode.trans hm) (hst.viVisual.trans hv) (by rw [hst.buf, hdot]; exact h₀)
    (by rw [hst.buf, hdot]; exact h₁) (by rw [hst.buf]; exact hnl) hk hn
    (by rw [hst.buf, hdot]; exact hlines) hrange
  have hsteady := hst.trans hsv
  rw [hst.buf, hdot] at hnumber
  rw [hst.buf] at hlt
  rw [hdot] at hle
  obtain ⟨w, hw, hx⟩ := Option.bind_eq_some_iff.mp hx
  have hopts : v.toOptions = s.toOptions := hsteady.options
  have hlast : s.lineNumber q - s.lineNumber s.dot = n - 1 := by omega
  obtain ⟨w', hw', hshifts⟩ := shiftLines_between (s := v) (p := s.dot) (q := q)
    (by rw [congrArg Options.tabstop hopts]; exact hts) (by rw [hsteady.buf]; exact hf)
    (by rw [hsteady.buf]; exact hnl) (by rw [hsteady.buf]; exact h₀) hle
    (by rw [hsteady.buf]; exact hlt) left .allow (fun hl => by
      rw [hsteady.buf, hlast]
      exact hsteady.toAlike.linesStay .allow (hstay hl))
  have hside : decide (shiftKey left = key '<') = left := by cases left <;> rfl
  rw [hside, hdot] at hw
  obtain rfl := Option.some.inj (hw'.symm.trans hw)
  have hb := one_le_lineNumber h₀ h₁
  have hbe := lineNumber_mono h₀ hle hlt
  have he := lineNumber_le (show s.text ≤ q by omega) hlt
  have hw : s.ShiftsLines left (s.lineNumber s.dot) (s.lineNumber s.dot + n - 1) w' := by
    refine ⟨hshifts.fits, ?_, hshifts.settings.trans hsteady.settings⟩
    rw [hshifts.bytes, shiftedLines_congr hsteady.buf hopts, hsteady.buf,
      show s.lineNumber q = s.lineNumber s.dot + n - 1 by omega]
  have hcount : s₀.countLines s₀.text s₀.dot = s.lineNumber s.dot := by
    have htop := Buf.lineNumber_eq s.toBuf (p := s.text) (Int.le_refl _) (by omega)
    rw [Buf.newlines_self] at htop
    rw [hst.buf, hdot, countLines_between (Int.le_refl _) (by omega) hnl h₀ h₁]
    omega
  rw [hcount] at hx
  cases hx
  exact hw.epilogue hnl hb (by omega) (by omega) hepi

theorem caseOf_digit {c : Int} (hc : isdigit c = true) :
    caseOf c = .digit ∧ isCursorKey c = false := by
  simp only [isdigit, Bool.and_eq_true, decide_eq_true_eq] at hc
  obtain ⟨h48, h57⟩ := hc
  interval_cases c <;> exact ⟨rfl, rfl⟩

/-- A digit of a count leaves the text and the line of the cursor as they are. -/
theorem digit_command {c : Int} (hc : isdigit c = true) (hcnt : c = 48 → 1 ≤ s.cmdcnt)
    (hm : s.cmdMode = .command) (hv : s.viVisual = false) (h₀ : s.text ≤ s.dot) (h₁ : s.dot < s.end_)
    (run : doCmd c s = some t) :
    Steady s t ∧ s.text ≤ t.dot ∧ t.dot < s.end_ ∧ s.lineNumber t.dot = s.lineNumber s.dot := by
  obtain ⟨s₀, o, u, hoff, hdis, hepi⟩ := doCmdWith_parts run
  have hidle := statusOff_idle hoff
  have hst : Steady s s₀ :=
    (Steady.of_cursor s.cmdcnt s.dot false false).trans (.of_keyed (showStatusLine_keyed hoff))
  have hdot : s₀.dot = s.dot := hidle.dot
  obtain ⟨hcase, hcursor⟩ := caseOf_digit hc
  have hzero : ¬ (c = 48 ∧ s₀.cmdcnt < 1) := by
    rintro ⟨h48, hlt⟩
    rw [show s₀.cmdcnt = s.cmdcnt from hidle.cmdcnt] at hlt
    have := hcnt h48
    omega
  rw [dispatch_switch (hst.cmdMode.trans hm) hcursor (hst.viVisual.trans hv)] at hdis
  unfold switch at hdis
  rw [hcase] at hdis
  change (if c = 48 ∧ s₀.cmdcnt < 1 then some s₀.dotBegin
    else some { s₀ with cmdcnt := i32 (s₀.cmdcnt * 10 + (c - 48)) }).map (fun u => (s.dot, u)) =
      some (o, u) at hdis
  rw [if_neg hzero] at hdis
  cases hdis
  have hcount := hst.trans (Steady.of_cursor (i32 (s₀.cmdcnt * 10 + (c - 48))) s₀.dot s₀.keepIndex
    s₀.cmdError)
  obtain ⟨hst', -, hlo, hhi⟩ := epilogue_steady (by rw [hcount.buf]; exact hdot ▸ h₀)
    (by rw [hcount.buf]; exact hdot ▸ h₁) hepi
  rw [hcount.buf] at hlo
  change s.beginLine s₀.dot ≤ t.dot at hlo
  change t.dot ≤ s₀.dot at hhi
  rw [hdot] at hlo hhi
  have := s.text_le_beginLine h₀
  exact ⟨hcount.trans hst', by omega, by omega,
    lineNumber_within h₀ h₁ hlo (Int.le_trans hhi (s.le_endLine s.dot))⟩

/-- The selection goes from line `b` to line `e`. -/
structure Selects (s : Ed) (b e : Nat) : Prop where
  command : s.cmdMode = .command
  selecting : s.viVisual = true
  ends : ∃ a, s.viVisualAnchor = some a ∧ s.text ≤ min a s.dot ∧ max a s.dot < s.end_ ∧
    s.lineNumber (min a s.dot) = b ∧ s.lineNumber (max a s.dot) = e

/-- `>` and `<` over a selection. -/
theorem shift_selection (left : Bool) {b e : Nat} (hts : 1 ≤ s.tabstop ∧ s.tabstop ≤ MAX_TABSTOP)
    (hf : s.Fits) (hnl : s.bytes.getLast? = some NL) (sel : s.Selects b e)
    (run : doCmd (shiftKey left) s = some t) :
    ShiftsLines { s with viVisual := false } left b e t ∧ 1 ≤ b ∧ b ≤ e ∧ e ≤ s.lines.length := by
  obtain ⟨hm, hv, a, ha, h₀, h₁, rfl, rfl⟩ := sel
  obtain ⟨s₀, o, u, hoff, hdis, hepi⟩ := doCmdWith_parts run
  have hidle := statusOff_idle hoff
  have hst : Steady s s₀ :=
    (Steady.of_cursor s.cmdcnt s.dot false false).trans (.of_keyed (showStatusLine_keyed hoff))
  have hdot : s₀.dot = s.dot := hidle.dot
  have hanchor : s₀.viVisualAnchor = some a := hidle.viVisualAnchor.trans ha
  have hkey : shiftKey left = key '>' ∨ shiftKey left = key '<' := by cases left <;> decide
  have hside : decide (shiftKey left = key '<') = left := by cases left <;> rfl
  have hle : min a s.dot ≤ max a s.dot := by omega
  have hlow : min a s.dot < s.end_ := by omega
  have hb := one_le_lineNumber h₀ hlow
  have hbe := lineNumber_mono h₀ hle h₁
  have he := lineNumber_le (show s.text ≤ max a s.dot by omega) h₁
  refine ⟨?_, hb, hbe, he⟩
  obtain ⟨w, hrun, hw⟩ := visualLines_between (s := { s₀ with viVisual := false })
    (p := min a s.dot) (q := max a s.dot)
    (by change 1 ≤ s₀.tabstop ∧ s₀.tabstop ≤ MAX_TABSTOP
        rw [congrArg Options.tabstop hst.options]; exact hts)
    (by change s₀.Fits; rw [hst.buf]; exact hf)
    (by change s₀.bytes.getLast? = some NL; rw [hst.buf]; exact hnl)
    (by change s₀.text ≤ min a s.dot; rw [hst.buf]; exact h₀) hle
    (by change max a s.dot < s₀.end_; rw [hst.buf]; exact h₁) left .allow
  have hsel : ({ s₀ with viVisual := false } : Ed).settings =
      ({ s with viVisual := false } : Ed).settings :=
    congrArg (fun x : Options × CmdMode × Bool => (x.1, x.2.1, false)) hst.settings
  have hw : ShiftsLines { s with viVisual := false } left (s.lineNumber (min a s.dot))
      (s.lineNumber (max a s.dot)) w := by
    refine ⟨hw.fits, ?_, hw.settings.trans hsel⟩
    rw [hw.bytes]
    change (s₀.shiftedLines left (s₀.lineNumber _) (s₀.lineNumber _)).flatten =
      (s.shiftedLines left _ _).flatten
    rw [shiftedLines_congr hst.buf hst.options, hst.buf]
  have hcount : s₀.countLines s₀.text (min a s.dot) = s.lineNumber (min a s.dot) := by
    have htop := Buf.lineNumber_eq s.toBuf (p := s.text) (Int.le_refl _) (by omega)
    rw [Buf.newlines_self] at htop
    rw [hst.buf, countLines_between (Int.le_refl _) (by omega) hnl h₀ hlow]
    omega
  have hshift : ({ s₀ with viVisual := false } : Ed).visualShiftLines left (min a s.dot)
      (max a s.dot) = some ({ w with dot := w.findLine (s.lineNumber (min a s.dot)) } :
        Ed).dotSkipOverWs := by
    unfold visualShiftLines
    simp only [Option.bind_eq_bind]
    rw [hrun, Option.bind_some, ← hcount]
  have hop : s₀.visualOperate (shiftKey left) =
      some (({ w with dot := w.findLine (s.lineNumber (min a s.dot)) } :
        Ed).dotSkipOverWs.endCmdQ) := by
    rw [visualOperate_ends hanchor (by rw [hst.buf]; omega) (by rw [hst.buf]; omega)
      (by rw [hst.buf]; omega) (by rw [hst.buf]; omega), if_pos hkey, hside,
      show min a s₀.dot = min a s.dot by rw [hdot],
      show max a s₀.dot = max a s.dot by rw [hdot], hshift]
    rfl
  rw [dispatch_keyCommand (hst.cmdMode.trans hm) (by cases left <;> rfl)] at hdis
  unfold keyCommand at hdis
  rw [if_pos ⟨hst.viVisual.trans hv, hst.cmdMode.trans hm⟩, if_neg (by cases left <;> decide),
    if_pos (by cases left <;> decide), hop] at hdis
  cases hdis
  exact (hw.epilogue hnl hb hbe he hepi).1

/-- **Shifting to the right and back gives the text back**: the lines from the cursor while their
block stays, and those of a selection always. -/
theorem shift_right_left (hts : 1 ≤ s.tabstop ∧ s.tabstop ≤ MAX_TABSTOP) (hf : s.Fits)
    (hnl : s.bytes.getLast? = some NL) :
    (∀ {n : Nat} {t v u : Ed}, s.ShiftsFrom false n → s.lineNumber s.dot + n ≤ s.lines.length + 1 →
      LinesStay (n - 1) (s.beginLine s.dot) .allow s → doCmd (key '>') s = some t →
      v.toBuf = t.toBuf → v.toOptions = t.toOptions → v.lineNumber v.dot = t.lineNumber t.dot →
      v.ShiftsFrom true n → doCmd (key '<') v = some u → u.bytes = s.bytes) ∧
    ∀ {b e : Nat} {t v u : Ed}, s.Selects b e → doCmd (key '>') s = some t →
      v.toBuf = t.toBuf → v.toOptions = t.toOptions → v.Selects b e →
      doCmd (key '<') v = some u → u.bytes = s.bytes := by
  refine ⟨fun {n t v u} hs hlines hstay ht hb ho hline hback hu => ?_,
    fun {b e t v u} hs ht hb ho hback hu => ?_⟩
  · obtain ⟨hright, hdot, hdot', hnum⟩ := shift_command false hts hf hnl hs hlines
      (fun _ => hstay) ht
    have hone := one_le_lineNumber hs.text_le_dot hs.dot_lt_end
    have hn : 1 ≤ n := by
      obtain ⟨s₀, s₁, -, -, hn⟩ := hs.typed
      unfold rounds at hn
      split at hn <;> omega
    obtain ⟨htlines, htnl⟩ := hright.lines hnl hone (by omega) (by omega)
    have hopts : v.toOptions = s.toOptions := ho.trans (toOptions_of_settings hright.settings)
    have hlen : v.lines.length = s.lines.length := by
      rw [hb, htlines, length_shiftedLines false hone (by omega) (by omega)]
    rw [hnum] at hline
    obtain ⟨hleft, -⟩ := shift_command true (by rw [congrArg Options.tabstop hopts]; exact hts)
      (by rw [hb]; exact hright.fits) (by rw [hb]; exact htnl) hback (by omega)
      (fun h => absurd h (by simp)) hu
    rw [hline] at hleft
    refine hright.back ?_ hts.1 hnl hone (by omega) (by omega)
    rw [hleft.bytes, shiftedLines_congr hb ho]
  · obtain ⟨hright, hone, hbe, he⟩ := shift_selection false hts hf hnl hs ht
    obtain ⟨-, htnl⟩ := hright.lines hnl hone hbe he
    have hopts : v.toOptions = s.toOptions := ho.trans
      (toOptions_of_settings (s := { s with viVisual := false }) hright.settings)
    obtain ⟨hleft, -⟩ := shift_selection true
      (by rw [congrArg Options.tabstop hopts]; exact hts) (by rw [hb]; exact hright.fits)
      (by rw [hb]; exact htnl) hback hu
    refine hright.back (u := u) ?_ hts.1 hnl hone hbe he
    rw [hleft.bytes]
    exact congrArg List.flatten (shiftedLines_congr hb ho true b e)

/-- Two lines, the second of them indented, and the keys of a shift. -/
def indented (c : Char) (expand : Bool) : Ed :=
  { EditOp.holding [97, NL, 9, 98, NL] with
    rows := 24
    columns := 80
    tabstop := 4
    expandtab := expand
    ydreg := 26
    cmdcnt := 2
    env := { Env.still with keys := [⟨key c, false⟩] } }

theorem typesShift_of_map (left : Bool) {n : Nat}
    (h : (s.statusOff.bind getMotionChar).map (fun r => (r.1, r.2.rounds)) = some (shiftKey left, n)) :
    s.TypesShift left n := by
  obtain ⟨r, hr, heq⟩ := Option.map_eq_some_iff.mp h
  obtain ⟨s₀, hoff, hk⟩ := Option.bind_eq_some_iff.mp hr
  obtain ⟨hkey, hn⟩ := Prod.mk.inj heq
  exact ⟨s₀, r.2, hoff, by rw [hk, ← hkey], hn⟩

/-- `t` with the second key of `<<` to come. -/
def backFrom (t : Ed) : Ed := { t with env := { t.env with keys := [⟨key '<', false⟩] } }

/-- `2<<` begins with its count. -/
theorem count_typed {v : Ed} (hm : t.cmdMode = .command) (hv : t.viVisual = false)
    (h₀ : t.text ≤ t.dot) (h₁ : t.dot < t.end_)
    (htyped : (v.statusOff.bind getMotionChar).map (fun r => (r.1, r.2.rounds)) =
      some (key '<', 2))
    (run : doCmd (key '2') (backFrom t) = some v) :
    v.toBuf = t.toBuf ∧ v.toOptions = t.toOptions ∧ v.lineNumber v.dot = t.lineNumber t.dot ∧
      v.ShiftsFrom true 2 := by
  obtain ⟨hst, hlo, hhi, hline⟩ := digit_command (s := backFrom t) (by decide)
    (fun h => absurd h (by decide)) hm hv h₀ h₁ run
  have hbuf : v.toBuf = t.toBuf := hst.buf
  refine ⟨hbuf, hst.options, ?_, hst.cmdMode.trans hm, hst.viVisual.trans hv, ?_, ?_,
    typesShift_of_map true htyped⟩
  · rw [hbuf]
    exact hline
  · rw [hbuf]
    exact hlo
  · rw [hbuf]
    exact hhi

/-- With a selection from the first byte to `d`. -/
def selected (d : Int) (t : Ed) : Ed :=
  { t with viVisual := true, viVisualAnchor := some 4096, dot := d }

/-- `2>>` and `2<<`, and `>` and `<` over the two lines. -/
theorem shift_right_left_two :
    ∃ t v u x y, doCmd (key '>') (indented '>' true) = some t ∧
      doCmd (key '2') (backFrom t) = some v ∧ doCmd (key '<') v = some u ∧
      u.bytes = [97, NL, 9, 98, NL] ∧
      doCmd (key '>') (selected 4098 (indented '>' false)) = some x ∧
      doCmd (key '<') (selected 4100 x) = some y ∧ y.bytes = [97, NL, 9, 98, NL] := by
  obtain ⟨t, ht⟩ := Option.isSome_iff_exists.mp
    (show (doCmd (key '>') (indented '>' true)).isSome by decide +kernel)
  obtain ⟨x, hx⟩ := Option.isSome_iff_exists.mp
    (show (doCmd (key '>') (selected 4098 (indented '>' false))).isSome by decide +kernel)
  have hright : ∀ t ∈ doCmd (key '>') (indented '>' true), t.cmdMode = .command ∧
      t.viVisual = false ∧ t.text ≤ t.dot ∧ t.dot < t.end_ ∧
      (doCmd (key '2') (backFrom t)).isSome ∧ ∀ v ∈ doCmd (key '2') (backFrom t),
        ((v.statusOff.bind getMotionChar).map fun r => (r.1, r.2.rounds)) = some (key '<', 2) ∧
        (doCmd (key '<') v).isSome := by decide +kernel
  have hends : ∀ x ∈ doCmd (key '>') (selected 4098 (indented '>' false)), x.cmdMode = .command ∧
      x.text ≤ 4096 ∧ 4100 < x.end_ ∧ x.lineNumber 4096 = 1 ∧ x.lineNumber 4100 = 2 ∧
      (doCmd (key '<') (selected 4100 x)).isSome := by decide +kernel
  obtain ⟨hmode, hunselected, hlo, hhi, hcount, hleft⟩ := hright t ht
  obtain ⟨hmode', hlo', hhi', hfirst, hlast, hy⟩ := hends x hx
  obtain ⟨v, hv⟩ := Option.isSome_iff_exists.mp hcount
  obtain ⟨hkeys, hu⟩ := hleft v hv
  obtain ⟨u, hu⟩ := Option.isSome_iff_exists.mp hu
  obtain ⟨y, hy⟩ := Option.isSome_iff_exists.mp hy
  obtain ⟨hlines, -⟩ := shift_right_left (s := indented '>' true) (by decide)
    ⟨by decide, by decide⟩ (by decide)
  obtain ⟨-, hsel⟩ := shift_right_left (s := selected 4098 (indented '>' false)) (by decide)
    ⟨by decide, by decide⟩ (by decide)
  refine ⟨t, v, u, x, y, ht, hv, hu, ?_, hx, hy, ?_⟩
  · obtain ⟨hbuf, hopts, hline, hback⟩ := count_typed hmode hunselected hlo hhi hkeys hv
    exact hlines (n := 2)
      ⟨rfl, rfl, by decide, by decide, typesShift_of_map false (by decide +kernel)⟩ (by decide)
      ⟨by decide, fun _ _ _ => trivial⟩ ht hbuf hopts hline hback hu
  · exact hsel (b := 1) (e := 2) ⟨rfl, rfl, 4096, rfl, by decide, by decide, by decide, by decide⟩
      hx (v := selected 4100 x) rfl rfl ⟨hmode', rfl, 4096, rfl, hlo', hhi', hfirst, hlast⟩ hy

/-- `crowded` with a tab for its second line, before `2>>`. -/
def crowdedTab : Ed := { crowded with mem := Function.update crowded.mem 65538 9, cmdcnt := 2 }

/-- Without the condition the second line is lost when the block moves: it keeps its place, and `<`
takes its own tab away. -/
theorem shift_right_left_lost :
    ¬ ∀ (s t v u : Ed) (n : Nat), 1 ≤ s.tabstop ∧ s.tabstop ≤ MAX_TABSTOP → s.Fits →
      s.bytes.getLast? = some NL → s.ShiftsFrom false n →
      s.lineNumber s.dot + n ≤ s.lines.length + 1 → doCmd (key '>') s = some t →
      v.toBuf = t.toBuf → v.toOptions = t.toOptions → v.lineNumber v.dot = t.lineNumber t.dot →
      v.ShiftsFrom true n → doCmd (key '<') v = some u → u.bytes = s.bytes := by
  intro h
  obtain ⟨t, ht⟩ := Option.isSome_iff_exists.mp (show (doCmd (key '>') crowdedTab).isSome by decide +kernel)
  have hright : ∀ t ∈ doCmd (key '>') crowdedTab, t.cmdMode = .command ∧
      t.viVisual = false ∧ t.text ≤ t.dot ∧ t.dot < t.end_ ∧
      (doCmd (key '2') (backFrom t)).isSome ∧ ∀ v ∈ doCmd (key '2') (backFrom t),
        ((v.statusOff.bind getMotionChar).map fun r => (r.1, r.2.rounds)) = some (key '<', 2) ∧
        (doCmd (key '<') v).map (fun u => u.end_ - u.text) = some 10238 := by decide +kernel
  obtain ⟨hmode, hunselected, hlo, hhi, hcount, hleft⟩ := hright t ht
  obtain ⟨v, hv⟩ := Option.isSome_iff_exists.mp hcount
  obtain ⟨hkeys, hu⟩ := hleft v hv
  obtain ⟨u, hu, hlen⟩ := Option.map_eq_some_iff.mp hu
  obtain ⟨hbuf, hopts, hline, hback⟩ := count_typed hmode hunselected hlo hhi hkeys hv
  have hsecond : crowdedTab.lineNumber 65538 = 2 := by decide +kernel
  have hlines := lineNumber_le (s := crowdedTab) (p := 65538) (by decide) (by decide)
  have hlen' := crowdedTab.length_bytes
  have hsize : crowdedTab.bytes.length = 10239 := hlen'.trans (by decide)
  have hnl : crowdedTab.bytes.getLast? = some NL := by
    rw [List.getLast?_eq_getElem?, hsize, List.getElem?_eq_getElem (by omega), Buf.getElem_bytes]
    rfl
  have hbytes := h crowdedTab t v u 2 (by decide) ⟨by decide, by decide⟩ hnl
    ⟨rfl, rfl, by decide, by decide, typesShift_of_map false (by decide +kernel)⟩
    (by
      have hdot : crowdedTab.lineNumber crowdedTab.dot = 1 := by decide +kernel
      omega) ht hbuf hopts hline hback hu
  have hu' := u.length_bytes
  rw [hbytes, hsize] at hu'
  omega

end Ed

end Evim
