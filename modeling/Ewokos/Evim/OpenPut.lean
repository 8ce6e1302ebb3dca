import Ewokos.Evim.Newline
import Ewokos.Lib.Splice

/-!
# evim: commands that add lines

`o`, `O`, and `p`, `P` of a register of whole lines, against the list of the lines of the text.
`o` inserts its newline in front of the byte `end_line` finds, and `p` puts the register behind it.

Main result: `addLines_iff`.
-/

set_option autoImplicit false

namespace Evim

open Cells Runs
open CString hiding strchr

namespace Buf

variable {s : Buf} {p : Int}

/-- The lines of the text, without their newlines. -/
def lineTexts (s : Buf) : List (List UInt8) := texts NL s.bytes

/-! ## The cursor line in the text -/

theorem closed_take_iff {k : Nat} (hk : k ≤ s.bytes.length) :
    Closed NL (s.bytes.take k) ↔ k = 0 ∨ s.mem (s.text + k - 1) = NL := by
  unfold Closed
  rw [List.take_eq_nil_iff, List.getLast?_take]
  by_cases h₀ : k = 0
  · simp [h₀]
  · have hlt : k - 1 < s.bytes.length := by omega
    have hne : s.bytes ≠ [] := List.ne_nil_of_length_pos (by omega)
    rw [if_neg h₀, List.getElem?_eq_getElem hlt, getElem_bytes hlt]
    simp only [h₀, hne, or_self, false_or, Option.some_or, Option.some.injEq]
    rw [show s.text + ((k - 1 : Nat) : Int) = s.text + k - 1 by omega]

theorem newlines_take {q : Int} (h₁ : q ≤ s.end_) :
    s.newlines s.text q = (s.bytes.take (q - s.text).toNat).count NL := by
  unfold newlines bytes
  rw [take_slice _ _ (by omega)]

/-- A cut at the start of a line: the lines in front of it and those behind it. -/
theorem lineTexts_cut {q : Int} (h₀ : s.text ≤ q) (h₁ : q ≤ s.end_)
    (h : q = s.text ∨ s.mem (q - 1) = NL) :
    Closed NL (s.bytes.take (q - s.text).toNat) ∧
      s.lineTexts.take (s.newlines s.text q) = texts NL (s.bytes.take (q - s.text).toNat) ∧
      s.lineTexts.drop (s.newlines s.text q) = texts NL (s.bytes.drop (q - s.text).toNat) := by
  have hlen := s.length_bytes
  have hclosed : Closed NL (s.bytes.take (q - s.text).toNat) := by
    rw [closed_take_iff (by omega)]
    refine h.imp (fun he => by omega) fun hm => ?_
    rw [show s.text + ((q - s.text).toNat : Int) - 1 = q - 1 by omega]
    exact hm
  rw [newlines_take h₁]
  exact ⟨hclosed, texts_split hclosed⟩

/-- The number of the line, at its start. -/
theorem newlines_beginLine (h₀ : s.text ≤ p) (h₁ : p < s.end_) :
    s.newlines s.text (s.beginLine p) + 1 = s.lineNumber p := by
  have hle := s.beginLine_le p
  have hge := s.text_le_beginLine h₀
  have hnone := s.newlines_none (q := p) fun i hi₁ hi₂ => s.beginLine_noNL hi₁ hi₂
  rw [lineNumber_eq s h₀ h₁, newlines_add s hge hle, hnone]

/-- The number of the line, behind its newline. -/
theorem newlines_behind (h₀ : s.text ≤ p) (h₁ : p < s.end_) (hnl : s.mem (s.endLine p) = NL) :
    s.newlines s.text (s.endLine p + 1) = s.lineNumber p := by
  have hle := s.le_endLine p
  have hline := s.newlines_endLine p
  rw [if_pos hnl] at hline
  rw [lineNumber_eq s h₀ h₁, newlines_add s h₀ (by omega : p ≤ s.endLine p + 1), hline]

/-- A line without a newline is the last one. -/
theorem lineTexts_open (h₀ : s.text ≤ p) (h₁ : p < s.end_) (hnl : s.mem (s.endLine p) ≠ NL) :
    s.endLine p = s.end_ - 1 ∧ ¬ Closed NL s.bytes ∧ s.lineTexts.length = s.lineNumber p := by
  have hlast := (s.endLine_stop h₁).resolve_left hnl
  have hlen := s.length_bytes
  have hle := s.le_endLine p
  have hline := s.newlines_endLine p
  rw [if_neg hnl] at hline
  have hopen : ¬ Closed NL s.bytes := by
    have htake := closed_take_iff (s := s) (Nat.le_refl s.bytes.length)
    rw [List.take_length] at htake
    rw [htake, hlen, show s.text + (((s.end_ - s.text).toNat : Nat) : Int) - 1 = s.endLine p by omega]
    exact fun h => h.elim (by omega) hnl
  refine ⟨hlast, hopen, ?_⟩
  have hall := s.newlines_take (q := s.end_) (Int.le_refl _)
  rw [show (s.end_ - s.text).toNat = s.bytes.length by omega, List.take_length] at hall
  unfold lineTexts
  rw [length_texts, length_runs_closed, if_neg hopen, ← hall, lineNumber_eq s h₀ h₁,
    newlines_add s h₀ (by omega : p ≤ s.end_), show s.end_ = s.endLine p + 1 by omega, hline]

end Buf

namespace Ed

variable {s t : Ed}

/-- `t` has the lines of `s` and, in front of all but the first `k` of them, those of `new`. -/
def AddsLines (s t : Ed) (k : Nat) (new : List (List UInt8)) : Prop :=
  t.lineTexts = s.lineTexts.take k ++ new ++ s.lineTexts.drop k

/-! ## Opening a line -/

/-- Copies of `x` at a cut between two lines. -/
theorem addsLines_iff {q : Int} (h₀ : s.text ≤ q) (h₁ : q ≤ s.end_)
    (h : q = s.text ∨ s.mem (q - 1) = NL) {n : Nat} (hn : 1 ≤ n) {x : List UInt8}
    (ht : t.bytes = s.bytes.take (q - s.text).toNat ++ copies n x ++
      s.bytes.drop (q - s.text).toNat) :
    AddsLines s t (s.newlines s.text q) (List.replicate n (texts NL x)).flatten ↔
      Closed NL x ∨ n = 1 ∧ q = s.end_ := by
  obtain ⟨hclosed, htake, hdrop⟩ := Buf.lineTexts_cut h₀ h₁ h
  have hlen := s.length_bytes
  have hiff := texts_between_iff (b := s.bytes.drop (q - s.text).toNat) (x := x) hn hclosed
  unfold AddsLines
  rw [htake, hdrop]
  unfold Buf.lineTexts
  rw [ht, hiff, List.drop_eq_nil_iff]
  refine or_congr_right (and_congr_right fun _ => ?_)
  omega

/-- Copies of `x` in front of the cursor line. -/
theorem addsLines_above (h₀ : s.text ≤ s.dot) (h₁ : s.dot < s.end_) {n : Nat} (hn : 1 ≤ n)
    {x : List UInt8}
    (ht : t.bytes = s.bytes.take (s.beginLine s.dot - s.text).toNat ++ copies n x ++
      s.bytes.drop (s.beginLine s.dot - s.text).toNat) :
    AddsLines s t (s.lineNumber s.dot - 1) (List.replicate n (texts NL x)).flatten ↔
      Closed NL x := by
  have hbe := s.beginLine_le s.dot
  have hnumber := s.newlines_beginLine h₀ h₁
  have hiff := addsLines_iff (s.text_le_beginLine h₀) (by omega)
    ((s.beginLine_start h₀).imp_right And.right) hn ht
  rw [← hnumber, Nat.add_sub_cancel, hiff]
  refine or_iff_left fun hand => ?_
  have := hand.2
  omega

/-- Copies of `x` behind the cursor line, which has its newline. -/
theorem addsLines_below (h₀ : s.text ≤ s.dot) (h₁ : s.dot < s.end_)
    (hnl : s.mem (s.endLine s.dot) = NL) {n : Nat} (hn : 1 ≤ n) {x : List UInt8}
    (ht : t.bytes = s.bytes.take (s.endLine s.dot + 1 - s.text).toNat ++ copies n x ++
      s.bytes.drop (s.endLine s.dot + 1 - s.text).toNat) :
    AddsLines s t (s.lineNumber s.dot) (List.replicate n (texts NL x)).flatten ↔
      Closed NL x ∨ n = 1 ∧ s.endLine s.dot = s.end_ - 1 := by
  have hle := s.le_endLine s.dot
  have hlt := s.endLine_lt h₁
  have hiff := addsLines_iff (q := s.endLine s.dot + 1) (by omega) (by omega)
    (.inr (by rw [Int.add_sub_cancel]; exact hnl)) hn ht
  rw [← s.newlines_behind h₀ h₁ hnl, hiff]
  refine or_congr_right (and_congr_right fun _ => ?_)
  omega

/-- Copies of `x` behind a last line without a newline. -/
theorem addsLines_open (h₀ : s.text ≤ s.dot) (h₁ : s.dot < s.end_)
    (hnl : s.mem (s.endLine s.dot) ≠ NL) {n : Nat} (hn : 1 ≤ n) {x : List UInt8}
    (ht : t.bytes = s.bytes ++ copies n x) :
    AddsLines s t (s.lineNumber s.dot) (List.replicate n (texts NL x)).flatten ↔ x = [] := by
  obtain ⟨-, hopen, hlength⟩ := s.lineTexts_open h₀ h₁ hnl
  unfold AddsLines
  rw [← hlength, List.take_length, List.drop_length, List.append_nil]
  unfold Buf.lineTexts
  rw [ht]
  exact texts_behind_open_iff hn hopen

/-- A newline typed at `dot` without `autoindent`. -/
theorem charInsertDot_newline {u : Ed} (hf : u.Fits) (h₀ : u.text ≤ u.dot) (h₁ : u.dot ≤ u.end_)
    (hai : u.autoindent = false) {undo : Undo} (h : u.charInsertDot 10 undo = some t) :
    t.bytes = u.bytes.take (u.dot - u.text).toNat ++ [NL] ++
      u.bytes.drop (u.dot - u.text).toNat := by
  obtain ⟨⟨d, v⟩, hv, hrest⟩ := Option.bind_eq_some_iff.mp h
  have hins : u.charInsert u.dot 10 undo = some (d, v) := hv
  have hbytes := charInsert_newline_bytes hf h₀ h₁ hai hins
  cases hrest
  exact hbytes

theorem startInsert_bytes (u : Ed) : u.startInsert.bytes = u.bytes := by
  unfold startInsert
  rw [undoQueueCommit_eq]

/-- `o` and `O` insert one newline: at the end of the line, and at its beginning. -/
theorem openLine_bytes {u : Ed} (hf : u.Fits) (h₀ : u.text ≤ u.dot) (h₁ : u.dot < u.end_)
    (hai : u.autoindent = false) (above : Bool) (h : u.openLine above = some t) {k : Nat}
    (hk : (k : Int) = (if above then u.beginLine u.dot else u.endLine u.dot) - u.text) :
    t.bytes = u.bytes.take k ++ [NL] ++ u.bytes.drop k := by
  obtain ⟨v, hv, hrest⟩ := Option.bind_eq_some_iff.mp h
  have hcommit := u.undoQueueCommit_eq
  obtain ⟨w, hw, hbuf, hdot, hai'⟩ : ∃ w : Ed, w.charInsertDot 10 .allow = some v ∧
      w.toBuf = u.toBuf ∧
      w.dot = (if above then u.beginLine u.dot else u.endLine u.dot) ∧ w.autoindent = false := by
    refine ⟨_, hv, ?_⟩
    cases above
    · simp only [Bool.false_eq_true, if_false, dotEnd]
      rw [hcommit]
      exact ⟨rfl, rfl, hai⟩
    · simp only [if_true, dotBegin]
      rw [hcommit]
      exact ⟨rfl, rfl, hai⟩
  have hle := u.le_endLine u.dot
  have hlt := u.endLine_lt h₁
  have hge := u.text_le_beginLine h₀
  have hbe := u.beginLine_le u.dot
  have hin : w.text ≤ w.dot ∧ w.dot ≤ w.end_ := by
    rw [hdot, hbuf]
    split <;> omega
  have hbytes := charInsertDot_newline (by rw [hbuf]; exact hf) hin.1 hin.2 hai' hw
  rw [hdot, hbuf, ← hk, Int.toNat_natCast] at hbytes
  cases hrest
  rw [startInsert_bytes, ← hbytes]
  split
  · exact (dotPrev_looked v).bytes
  · rfl

/-! ## Putting lines -/

/-- The loop of `p` and `P`: the register is put at `dot`, as often as the count says. -/
theorem putLoop_bytes {u : Ed} (hf : u.Fits) (h₀ : u.text ≤ u.dot) (h₁ : u.dot ≤ u.end_)
    {x : List UInt8} {undo undo' : Undo} {go : Bool} {n : Nat} (hn : u.rounds ≤ n)
    (h : cmdLoop (putRound x) n undo u = some (go, undo', t)) :
    t.bytes = u.bytes.take (u.dot - u.text).toNat ++ copies u.rounds x ++
      u.bytes.drop (u.dot - u.text).toNat := by
  obtain ⟨k, hk⟩ : ∃ k : Nat, u.dot = u.text + k := ⟨(u.dot - u.text).toNat, by omega⟩
  have hlen := u.length_bytes
  -- after `i` rounds `dot` is where it was, in front of `i` copies
  have hloop := cmdLoop_counts (i := 0) (P := fun i _ v => v.Fits ∧ v.dot = v.text + k ∧
      v.bytes = u.bytes.take k ++ copies i x ++ u.bytes.drop k)
    (by
      rintro i l v go l' v' ⟨hfv, hdv, hbv⟩ hround
      cases hround
      have hlv := v.length_bytes
      have hkv : k ≤ v.bytes.length := by
        rw [hbv]
        simp only [List.length_append, List.length_take, List.length_drop]
        omega
      have hend := hfv.text_le_end
      have hbytes := stringInsert_bytes v hfv (p := v.dot) (by omega) (by omega) x l
      have htext := stringInsert_text v v.dot x l
      have hfits := stringInsert_fits v hfv v.dot x l
      have hframe := stringInsert_frame v v.dot x l
      have hdot := congrArg Ed.dot hframe
      have hcnt := congrArg Ed.cmdcnt hframe
      have hk' : (u.bytes.take k).length = k := by
        rw [List.length_take]
        omega
      rw [List.append_assoc] at hbv
      rw [show (v.dot - v.text).toNat = k by omega, hbv, List.take_left' hk',
        List.drop_left' hk'] at hbytes
      refine ⟨rfl, hcnt, ⟨hfits.1, hfits.2⟩, ?_, ?_⟩
      · simp only at hdot ⊢
        omega
      · refine hbytes.trans ?_
        rw [copies_succ]
        simp only [List.append_assoc])
    hn ⟨hf, hk, by simp [copies]⟩ h
  rw [Nat.zero_add] at hloop
  rw [hk, show (u.text + (k : Int) - u.text).toNat = k by omega]
  exact hloop.2.2

/-- Where `p` and `P` put whole lines. -/
def linePlace (s : Ed) (after : Bool) : Int :=
  if !after then s.beginLine s.dot
  else if s.endLine s.dot = s.end_ - 1 then s.end_ else s.endLine s.dot + 1

theorem linePlace_range (h₀ : s.text ≤ s.dot) (h₁ : s.dot < s.end_) (after : Bool) :
    s.text ≤ s.linePlace after ∧ s.linePlace after ≤ s.end_ := by
  have hle := s.le_endLine s.dot
  have hlt := s.endLine_lt h₁
  have hge := s.text_le_beginLine h₀
  have hbe := s.beginLine_le s.dot
  unfold linePlace
  split
  · omega
  · split <;> omega

/-- Where `p` and `P` put a register. -/
def putSpot (s : Ed) (after : Bool) : Int :=
  if s.regtype s.ydreg = .whole then s.linePlace after
  else if after ∧ s.dot < s.end_ - 1 ∧ s.mem s.dot ≠ NL then s.dot + 1
  else s.dot

theorem putSpot_range (h₀ : s.text ≤ s.dot) (h₁ : s.dot < s.end_) (after : Bool) :
    s.text ≤ s.putSpot after ∧ s.putSpot after ≤ s.end_ := by
  have hplace := linePlace_range h₀ h₁ after
  unfold putSpot
  split
  · exact hplace
  · split <;> omega

/-- Only the cursor goes there. -/
theorem putPlace_dot {u : Ed} (h₁ : u.dot < u.end_) (after : Bool) (b : List UInt8) :
    ∃ cnt v, u.putPlace after b = (cnt, v) ∧ v.toBuf = u.toBuf ∧ v.dot = u.putSpot after ∧
      v.cmdcnt = u.cmdcnt := by
  have hstop := u.endLine_stop h₁
  have hlt := u.endLine_lt h₁
  unfold putPlace putSpot linePlace
  by_cases hwhole : u.regtype u.ydreg = .whole
  · rw [if_pos hwhole, if_pos hwhole]
    cases after
    · refine ⟨0, u.dotBegin, rfl, ?_⟩
      unfold dotBegin
      rw [undoQueueCommit_eq]
      exact ⟨rfl, rfl, rfl⟩
    · simp only [Bool.not_true, Bool.false_eq_true, if_false]
      split
      · exact ⟨0, _, rfl, rfl, rfl, rfl⟩
      · rename_i hinner
        refine ⟨0, u.dotNext, rfl, ?_⟩
        unfold dotNext
        rw [undoQueueCommit_eq]
        refine ⟨rfl, ?_, rfl⟩
        show u.nextLine u.dot = _
        unfold Buf.nextLine
        exact if_pos ⟨by omega, hstop.resolve_right hinner⟩
  · rw [if_neg hwhole, if_neg hwhole]
    cases after
    · exact ⟨_, u, rfl, rfl, rfl, rfl⟩
    · refine ⟨_, u.dotRight, rfl, ?_⟩
      unfold dotRight
      rw [undoQueueCommit_eq]
      dsimp only
      simp only [true_and]
      split <;> exact ⟨rfl, rfl, rfl⟩

/-- Putting a register. -/
theorem putReg_bytes {u : Ed} (hf : u.Fits) (h₀ : u.text ≤ u.dot) (h₁ : u.dot < u.end_) {b : Reg}
    (hreg : u.reg u.ydreg = some b) {after : Bool} (h : u.put after = some t) :
    t.bytes = u.bytes.take (u.putSpot after - u.text).toNat ++ copies u.rounds b.body ++
      u.bytes.drop (u.putSpot after - u.text).toNat := by
  have hplace := putSpot_range h₀ h₁ after
  obtain ⟨cnt, v, hv, hbuf, hdot, hcnt⟩ := putPlace_dot h₁ after b.body
  have hrounds : v.rounds = u.rounds := by
    unfold rounds
    rw [hcnt]
  unfold put at h
  rw [hreg] at h
  dsimp only at h
  rw [hv] at h
  obtain ⟨⟨go, undo, w⟩, hw, hrest⟩ := Option.bind_eq_some_iff.mp h
  have hbytes := putLoop_bytes (by rw [hbuf]; exact hf) (by rw [hdot, hbuf]; exact hplace.1)
    (by rw [hdot, hbuf]; exact hplace.2) (Nat.le_refl _) hw
  rw [hdot, hbuf, hrounds] at hbytes
  cases hrest
  exact hbytes

/-- Putting whole lines. -/
theorem put_bytes {u : Ed} (hf : u.Fits) (h₀ : u.text ≤ u.dot) (h₁ : u.dot < u.end_) {b : Reg}
    (hreg : u.reg u.ydreg = some b) (hwhole : u.regtype u.ydreg = .whole) {after : Bool}
    (h : u.put after = some t) :
    t.bytes = u.bytes.take (u.linePlace after - u.text).toNat ++ copies u.rounds b.body ++
      u.bytes.drop (u.linePlace after - u.text).toNat := by
  have hbytes := putReg_bytes hf h₀ h₁ hreg h
  unfold putSpot at hbytes
  rwa [if_pos hwhole] at hbytes

/-! ## The commands -/

/-- A command that ends a selection first. -/
theorem doCmd_cleared {c : Int} (hm : s.cmdMode = .command) (hc : isCursorKey c = false)
    (hend : ¬(c = 27 ∨ c = key 'v'))
    (hop : ¬(c = KEYCODE_DELETE ∨ (c > 0 ∧ strchr (str "yYdDxXcC><") c)))
    (hmotion : isVisualMotion c = false) (h : doCmd c s = some t) :
    ∃ u v o, Glanced s u ∧ u.dot = s.dot ∧ u.cmdcnt = s.cmdcnt ∧ u.ydreg = s.ydreg ∧
      u.switch (doCmdWith fun _ _ => none) c s.dot = some (o, v) ∧ v.epilogue c o = some t := by
  obtain ⟨s₀, o, v, h₀, hd, he⟩ := doCmdWith_parts h
  have hl := statusOff_looked h₀
  have hidle := statusOff_idle h₀
  rw [dispatch_cleared (hl.cmdMode.trans hm) hc hend hop hmotion] at hd
  have hoff : Glanced s₀ { s₀ with viVisual := false } := .of_fields rfl rfl rfl rfl rfl rfl rfl rfl rfl
  exact ⟨{ s₀ with viVisual := false }, v, o, hl.trans hoff, hidle.dot, hidle.cmdcnt, hidle.ydreg,
    hd, he⟩

/-- `o` and `O`: what is in the text when the command is over. -/
theorem openLine_run (hf : s.Fits) (h₀ : s.text ≤ s.dot) (h₁ : s.dot < s.end_)
    (hm : s.cmdMode = .command) (hai : s.autoindent = false) (above : Bool)
    (run : doCmd (if above then key 'O' else key 'o') s = some t) {k : Nat}
    (hk : (k : Int) = (if above then s.beginLine s.dot else s.endLine s.dot) - s.text) :
    t.bytes = s.bytes.take k ++ [NL] ++ s.bytes.drop k := by
  obtain ⟨u, v, o, hl, hdot, -, -, hsw, he⟩ := doCmd_cleared hm (by cases above <;> decide)
    (by cases above <;> decide) (by cases above <;> decide) (by cases above <;> decide) run
  have hbuf := hl.buf
  obtain ⟨w, hw, hpair⟩ : ∃ w, u.openLine above = some w ∧ (s.dot, w) = (o, v) := by
    cases above
    · exact Option.map_eq_some_iff.mp hsw
    · exact Option.map_eq_some_iff.mp hsw
  cases hpair
  have hopts : u.autoindent = s.autoindent := congrArg Options.autoindent hl.options
  have hbytes := openLine_bytes (by rw [hbuf]; exact hf) (by rw [hdot, hbuf]; exact h₀)
    (by rw [hdot, hbuf]; exact h₁) (hopts.trans hai) above hw (k := k) (by rw [hdot, hbuf]; exact hk)
  rw [hbuf] at hbytes
  have hne : v.bytes ≠ [] := by
    rw [hbytes]
    simp
  rw [(epilogue_looked (Buf.text_ne_end hne) he).bytes, hbytes]

/-- `p` and `P` of whole lines: what is in the text when the command is over. -/
theorem put_run (hf : s.Fits) (h₀ : s.text ≤ s.dot) (h₁ : s.dot < s.end_)
    (hm : s.cmdMode = .command) {b : Reg} (hreg : s.reg s.ydreg = some b)
    (hwhole : s.regtype s.ydreg = .whole) (after : Bool)
    (run : doCmd (if after then key 'p' else key 'P') s = some t) :
    t.bytes = s.bytes.take (s.linePlace after - s.text).toNat ++ copies s.rounds b.body ++
      s.bytes.drop (s.linePlace after - s.text).toNat := by
  obtain ⟨u, v, o, hl, hdot, hcnt, hyd, hsw, he⟩ := doCmd_cleared hm (by cases after <;> decide)
    (by cases after <;> decide) (by cases after <;> decide) (by cases after <;> decide) run
  have hbuf := hl.buf
  obtain ⟨w, hw, hpair⟩ : ∃ w, u.put after = some w ∧ (s.dot, w) = (o, v) := by
    cases after
    · exact Option.map_eq_some_iff.mp hsw
    · exact Option.map_eq_some_iff.mp hsw
  cases hpair
  have hplace : u.linePlace after = s.linePlace after := by
    unfold linePlace
    rw [hdot, hbuf]
  have hrounds : u.rounds = s.rounds := by
    unfold rounds
    rw [hcnt]
  have hbytes := put_bytes (by rw [hbuf]; exact hf) (by rw [hdot, hbuf]; exact h₀)
    (by rw [hdot, hbuf]; exact h₁) (by rw [hl.reg, hyd]; exact hreg)
    (by rw [hl.regtype, hyd]; exact hwhole) hw
  rw [hplace, hrounds, hbuf] at hbytes
  have hne : v.bytes ≠ [] := by
    intro hnil
    have hlen := s.length_bytes
    have hlength := congrArg List.length (hbytes.symm.trans hnil)
    simp only [List.length_append, List.length_take, List.length_drop, List.length_nil] at hlength
    omega
  rw [(epilogue_looked (Buf.text_ne_end hne) he).bytes, hbytes]

/-- **Adding lines.**  `O` always adds its line, and `P` adds those of the register when that is
closed.  `o` and `p` add behind a line that has its newline. -/
theorem addLines_iff (hf : s.Fits) (h₀ : s.text ≤ s.dot) (h₁ : s.dot < s.end_)
    (hm : s.cmdMode = .command) (hai : s.autoindent = false) (t : Ed) :
    (doCmd (key 'o') s = some t →
      (AddsLines s t (s.lineNumber s.dot) [[]] ↔ s.mem (s.endLine s.dot) = NL)) ∧
    (doCmd (key 'O') s = some t → AddsLines s t (s.lineNumber s.dot - 1) [[]]) ∧
    ∀ b, s.reg s.ydreg = some b → s.regtype s.ydreg = .whole →
      (doCmd (key 'p') s = some t →
        (AddsLines s t (s.lineNumber s.dot) (List.replicate s.rounds (texts NL b.body)).flatten ↔
          b.body = [] ∨ s.mem (s.endLine s.dot) = NL ∧
            (Closed NL b.body ∨ s.rounds = 1 ∧ s.endLine s.dot = s.end_ - 1))) ∧
      (doCmd (key 'P') s = some t →
        (AddsLines s t (s.lineNumber s.dot - 1)
            (List.replicate s.rounds (texts NL b.body)).flatten ↔
          Closed NL b.body)) := by
  have hlen := s.length_bytes
  have hle := s.le_endLine s.dot
  have hlt := s.endLine_lt h₁
  have hge := s.text_le_beginLine h₀
  have hbe := s.beginLine_le s.dot
  have hstop := s.endLine_stop h₁
  have hbegin := s.newlines_beginLine h₀ h₁
  have hstart := s.beginLine_start h₀
  have hrounds : 1 ≤ s.rounds := by
    unfold rounds
    split <;> omega
  have hclosed : Closed NL [NL] := .inr rfl
  refine ⟨fun run => ?_, fun run => ?_, fun b hreg hwhole => ⟨fun run => ?_, fun run => ?_⟩⟩
  · obtain ⟨k, hk⟩ : ∃ k : Nat, (k : Int) = s.endLine s.dot - s.text :=
      ⟨(s.endLine s.dot - s.text).toNat, by omega⟩
    have hbytes := openLine_run hf h₀ h₁ hm hai false run hk
    have hkl : k < s.bytes.length := by omega
    have hget := Buf.getElem_bytes hkl
    rw [hk, show s.text + (s.endLine s.dot - s.text) = s.endLine s.dot by omega] at hget
    rw [List.drop_eq_getElem_cons hkl, hget] at hbytes
    by_cases hnl : s.mem (s.endLine s.dot) = NL
    · refine iff_of_true ?_ hnl
      refine (addsLines_below (n := 1) (x := [NL]) h₀ h₁ hnl (Nat.le_refl 1) ?_).mpr (.inl hclosed)
      rw [show (s.endLine s.dot + 1 - s.text).toNat = k + 1 by omega,
        ← List.take_concat_get' s.bytes k hkl, hget, hnl, hbytes, hnl]
      simp [copies]
    · refine iff_of_false (fun hadds => ?_) hnl
      obtain ⟨hlast, -, hlength⟩ := s.lineTexts_open h₀ h₁ hnl
      have hcut : Closed NL (s.bytes.take k ++ [NL]) := .inr (by simp)
      have hpiece : texts NL [s.mem (s.endLine s.dot)] = [[s.mem (s.endLine s.dot)]] := by
        simp [texts, runs, hnl]
      -- the cursor line has its last byte behind the new newline
      unfold AddsLines at hadds
      rw [← hlength, List.take_length, List.drop_length, List.append_nil] at hadds
      unfold Buf.lineTexts at hadds
      rw [hbytes, List.drop_eq_nil_of_le (by omega), texts_append hcut, hpiece] at hadds
      have hends := congrArg List.getLast? hadds
      simp at hends
  · have hbytes := openLine_run (k := (s.beginLine s.dot - s.text).toNat) hf h₀ h₁
      hm hai true run (by simp only [if_true]; omega)
    refine (addsLines_above (n := 1) (x := [NL]) h₀ h₁ (Nat.le_refl 1) ?_).mpr hclosed
    rw [hbytes]
    simp [copies]
  · have hbytes := put_run hf h₀ h₁ hm hreg hwhole true run
    unfold linePlace at hbytes
    simp only [Bool.not_true, Bool.false_eq_true, if_false] at hbytes
    by_cases hnl : s.mem (s.endLine s.dot) = NL
    · have hplace : (if s.endLine s.dot = s.end_ - 1 then s.end_ else s.endLine s.dot + 1) =
          s.endLine s.dot + 1 := by
        split <;> omega
      rw [hplace] at hbytes
      rw [addsLines_below h₀ h₁ hnl hrounds hbytes]
      simp only [hnl, true_and]
      refine ⟨.inr, fun h => h.elim (fun hnil => .inl (.inl hnil)) id⟩
    · have hlast := hstop.resolve_left hnl
      rw [if_pos hlast, show (s.end_ - s.text).toNat = s.bytes.length by omega, List.take_length,
        List.drop_length, List.append_nil] at hbytes
      rw [addsLines_open h₀ h₁ hnl hrounds hbytes]
      simp [hnl]
  · exact addsLines_above h₀ h₁ hrounds (put_run hf h₀ h₁ hm hreg hwhole false run)

/-- A text, and lines in the unnamed register. -/
def holdingLines (lines register : List UInt8) (count : Int) : Ed :=
  { EditOp.holding lines with
    rows := 24
    columns := 80
    tabstop := 8
    ydreg := 26
    cmdcnt := count
    reg := fun _ => some ⟨register, 0⟩
    regtype := fun _ => .whole }

/-- `2p` of a line on the first of two. -/
theorem addLines_put_twice :
    ∃ t, doCmd (key 'p') (holdingLines [97, NL, 98, NL] [99, NL] 2) = some t ∧
      AddsLines (holdingLines [97, NL, 98, NL] [99, NL] 2) t 1 [[99], [99]] := by
  have hrun : (doCmd (key 'p') (holdingLines [97, NL, 98, NL] [99, NL] 2)).isSome := by decide +kernel
  obtain ⟨t, ht⟩ := Option.isSome_iff_exists.mp hrun
  have hadds := addLines_iff (s := holdingLines [97, NL, 98, NL] [99, NL] 2)
    ⟨by decide, by decide⟩ (by decide) (by decide) rfl rfl t
  exact ⟨t, ht, ((hadds.2.2 _ rfl rfl).1 ht).mpr (.inr ⟨by decide +kernel, .inl (by decide)⟩)⟩

/-- `o` on a line without its newline: the new newline goes in front of the last byte. -/
theorem openLine_splits_last :
    ¬ ∀ s t : Ed, s.Fits → s.text ≤ s.dot → s.dot < s.end_ → s.cmdMode = .command →
      s.autoindent = false → doCmd (key 'o') s = some t →
      AddsLines s t (s.lineNumber s.dot) [[]] := by
  intro h
  have hrun : (doCmd (key 'o') (holdingLines [97, 98] [] 0)).isSome := by decide +kernel
  obtain ⟨t, ht⟩ := Option.isSome_iff_exists.mp hrun
  have hbad : t.lineTexts = [[97, 98], []] :=
    h _ t ⟨by decide, by decide⟩ (by decide) (by decide) rfl rfl ht
  have hrest : (doCmd (key 'o') (holdingLines [97, 98] [] 0)).map (·.lineTexts) =
      some [[97], [98]] := by decide +kernel
  rw [ht, Option.map_some, hbad] at hrest
  revert hrest
  decide

end Ed

end Evim
