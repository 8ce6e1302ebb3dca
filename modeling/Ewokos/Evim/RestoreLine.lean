import Ewokos.Lib.Snapshot
import Ewokos.Evim.DeleteAll
import Ewokos.Evim.LineCount

/-!
# evim: `U`

The line that `edit_file` saves for `U`, over runs of its loop, and what `U` does with it.

* `Round` — one key, after which the address of the start of the cursor's line is another one
  exactly if the cursor has come to another line.
* `round_hit`, `round_miss` — what the loop saves for the next key.
* `restoreLine_bytes` — the text behind `U`.
* `restoreLine_iff` — `U` puts back the line as the cursor came to it.
-/

set_option autoImplicit false

namespace Evim

open Cells Snapshot
open CString hiding strchr

namespace Ed

variable {s t u : Ed} {l : List UInt8}

/-! ## The line of the cursor -/

/-- The bytes of the line under the cursor. -/
def cursorLine (s : Ed) : List UInt8 :=
  slice s.mem (s.beginLine s.dot) (s.endLine s.dot + 1 - s.beginLine s.dot).toNat

/-- The text in front of that line. -/
def beforeLine (s : Ed) : List UInt8 := s.bytes.take (s.beginLine s.dot - s.text).toNat

/-- The text behind it. -/
def behindLine (s : Ed) : List UInt8 := s.bytes.drop (s.endLine s.dot + 1 - s.text).toNat

/-- The next key is a `J`, which puts lines behind the one of the cursor. -/
def TypesJoin (s : Ed) : Prop :=
  s.cmdMode = .command ∧ s.viVisual = false ∧ s.getOneChar.map Prod.fst = some (key 'J')

instance (s : Ed) : Decidable s.TypesJoin := inferInstanceAs (Decidable (_ ∧ _))

/-- The cursor is still on the same line: the number of the line is what it was, and so is the number
of lines unless lines have been joined. -/
def SameLine (s t : Ed) : Prop :=
  t.lineNumber t.dot = s.lineNumber s.dot ∧ (t.lines.length = s.lines.length ∨ s.TypesJoin)

instance (s t : Ed) : Decidable (SameLine s t) := inferInstanceAs (Decidable (_ ∧ _))

theorem cursorLine_ne_nil (s : Ed) : s.cursorLine ≠ [] := by
  have hlo := s.beginLine_le s.dot
  have hhi := s.le_endLine s.dot
  refine List.ne_nil_of_length_pos ?_
  unfold cursorLine
  rw [length_slice]
  omega

/-! ## What the loop saves -/

/-- `saveLine` has just yanked the line, or has found its address. -/
theorem saveLine_curLine (s : Ed) : s.saveLine.editFileCurLine = some (s.beginLine s.dot) := by
  unfold saveLine
  dsimp only
  split
  · rfl
  · rename_i h
    exact not_not.mp h

theorem saveLine_ydreg (s : Ed) : s.saveLine.ydreg = s.ydreg := by
  unfold saveLine
  dsimp only
  split <;> rfl

theorem saveLine_buf (s : Ed) : s.saveLine.toBuf = s.toBuf := by
  unfold saveLine
  dsimp only
  split <;> rfl

theorem saveLine_dot (s : Ed) : s.saveLine.dot = s.dot := by
  unfold saveLine
  dsimp only
  split <;> rfl

theorem saveLine_cmdMode (s : Ed) : s.saveLine.cmdMode = s.cmdMode := by
  unfold saveLine
  dsimp only
  split <;> rfl

theorem saveLine_hit (h : s.editFileCurLine = some (s.beginLine s.dot)) : s.saveLine = s := by
  unfold saveLine
  dsimp only
  exact if_neg (not_not.mpr h)

theorem saveLine_miss (h : s.editFileCurLine ≠ some (s.beginLine s.dot)) (hnul : 0 ∉ s.cursorLine) :
    s.saveLine.reg Ureg = some ⟨s.cursorLine, s.regSerial⟩ := by
  have hlo := s.beginLine_le s.dot
  have hhi := s.le_endLine s.dot
  unfold saveLine textYank
  dsimp only
  rw [if_pos h, if_neg (by omega)]
  dsimp only
  rw [Function.update_self, show s.endLine s.dot - s.beginLine s.dot + 1 =
    s.endLine s.dot + 1 - s.beginLine s.dot by omega]
  have hall : s.cursorLine.takeWhile (· != 0) = s.cursorLine := by
    rw [List.takeWhile_eq_self_iff]
    intro c hc
    exact bne_iff_ne.mpr fun h => hnul (h ▸ hc)
  unfold cursorLine at hall ⊢
  rw [hall]

/-- Reading keys does not change what is saved. -/
theorem saveLine_reg_of_idle (h : Idle s t) : t.saveLine.reg = s.saveLine.reg := by
  unfold Idle at h
  rw [h]
  unfold saveLine
  dsimp only
  split <;> rfl

/-! ## Runs of the loop -/

/-- One key of a run in which `l` is due: the address of the start of the cursor's line changes
exactly if the cursor comes to another line, unless that line reads as `l`; a line that is saved
anew holds no NUL; and the saved line has not been freed. -/
structure Round (l : List UInt8) (s t : Ed) : Prop where
  editing : s.editing > 0
  step : s.editStep = some t
  text_le_dot : t.text ≤ t.dot
  dot_lt_end : t.dot < t.end_
  agree : (t.beginLine t.dot = s.beginLine s.dot ↔ SameLine s t) ∨ t.cursorLine = l
  kept : t.beginLine t.dot = s.beginLine s.dot → t.reg Ureg ≠ none
  nonul : t.beginLine t.dot ≠ s.beginLine s.dot → 0 ∉ t.cursorLine

/-- `l` is what `U` finds at the next key. -/
structure Saved (s : Ed) (l : List UInt8) : Prop where
  fits : s.Fits
  text_le_dot : s.text ≤ s.dot
  dot_lt_end : s.dot < s.end_
  ydreg : s.ydreg < Ureg
  nonempty : l ≠ []
  reg : ∃ b, s.saveLine.reg Ureg = some b ∧ b.body = l

/-- What the command of a round leaves of the saved line. -/
theorem Saved.left (hs : s.Saved l) (h : s.editStep = some t) :
    t.Fits ∧ t.ydreg < Ureg ∧ t.editFileCurLine = some (s.beginLine s.dot) ∧
      (t.reg Ureg = s.saveLine.reg Ureg ∨ t.reg Ureg = none) := by
  obtain ⟨c, s₁, hkey, hwork⟩ := editStep_served h
  have hidle := (getOneChar_keyed hkey).idle
  have hbuf := hidle.looked.buf
  have hyd : s₁.saveLine.ydreg < Ureg := by
    rw [saveLine_ydreg, hidle.ydreg]
    exact hs.ydreg
  refine ⟨hwork.fits ?_, hwork.lineKept.ydreg hyd, ?_, ?_⟩
  · rw [saveLine_buf, hbuf]
    exact hs.fits
  · rw [hwork.lineKept.curLine, saveLine_curLine, hbuf, hidle.dot]
  · rw [← saveLine_reg_of_idle hidle]
    exact hwork.lineKept.saved hyd

theorem round_hit (hs : s.Saved l) (h : Round l s t)
    (hkey : t.beginLine t.dot = s.beginLine s.dot) : t.Saved l := by
  obtain ⟨hfits, hyd, hcur, hreg⟩ := hs.left h.step
  refine ⟨hfits, h.text_le_dot, h.dot_lt_end, hyd, hs.nonempty, ?_⟩
  rw [saveLine_hit (by rw [hcur, hkey]), hreg.resolve_right (h.kept hkey)]
  exact hs.reg

theorem round_miss (hs : s.Saved l) (h : Round l s t)
    (hkey : t.beginLine t.dot ≠ s.beginLine s.dot) : t.Saved t.cursorLine := by
  obtain ⟨hfits, hyd, hcur, -⟩ := hs.left h.step
  refine ⟨hfits, h.text_le_dot, h.dot_lt_end, hyd, t.cursorLine_ne_nil,
    ⟨t.cursorLine, t.regSerial⟩, ?_, rfl⟩
  refine saveLine_miss (fun hsame => hkey ?_) (h.nonul hkey)
  exact (Option.some.inj (hcur.symm.trans hsame)).symm

/-- The first key of `edit_file`. -/
structure Starts (s s₀ : Ed) (fn : Option (List UInt8)) : Prop where
  start : s.editStart fn = some s₀
  text_le_dot : s₀.text ≤ s₀.dot
  dot_lt_end : s₀.dot < s₀.end_
  other : s.editFileCurLine ≠ some (s₀.beginLine s₀.dot)
  nonul : 0 ∉ s₀.cursorLine

theorem Starts.saved {s₀ : Ed} {fn : Option (List UInt8)} (h : Starts s s₀ fn) :
    s₀.Saved s₀.cursorLine := by
  obtain ⟨⟨rc, s₁⟩, h₁, h₂⟩ := Option.bind_eq_some_iff.mp h.start
  have hfits : s₁.Fits := initTextBuffer_fits h₁
  have hnew := (initTextBuffer_edits h₁).lineKept.curLine
  have hdraw := redraw_looked h₂
  refine ⟨?_, h.text_le_dot, h.dot_lt_end, ?_, s₀.cursorLine_ne_nil,
    ⟨s₀.cursorLine, s₀.regSerial⟩, ?_, rfl⟩
  · rw [hdraw.buf]
    exact hfits
  · exact hdraw.lineKept.ydreg (by decide : 26 < Ureg)
  · refine saveLine_miss ?_ h.nonul
    rw [show s₀.editFileCurLine = s.editFileCurLine from hdraw.lineKept.curLine.trans hnew]
    exact h.other

/-- **The loop has the line as the cursor came to it.** -/
theorem saved_of_since {s₀ : Ed} (h₀ : s₀.Saved s₀.cursorLine)
    (run : Since Round SameLine cursorLine s₀ u l) : u.Saved l := by
  have hcached : Cached Round (fun s => s.beginLine s.dot) cursorLine s₀ u l :=
    run.cached fun h => h.agree
  exact hcached.keeps h₀ round_hit round_miss

/-! ## `U` -/

/-- `U` takes the line out and inserts the saved bytes where the deletion leaves off. -/
theorem restoreLine_inserts {b : Reg} (h : s.reg Ureg = some b) :
    s.restoreLine.bytes =
      ((s.textHoleDelete (s.beginLine s.dot) (s.endLine s.dot) .allow).2.stringInsert
        (s.textHoleDelete (s.beginLine s.dot) (s.endLine s.dot) .allow).1 b.body .chain).2.bytes := by
  unfold restoreLine
  rw [h]
  rfl

theorem length_beforeLine (h₀ : s.text ≤ s.dot) (h₁ : s.dot < s.end_) :
    s.beforeLine.length = (s.beginLine s.dot - s.text).toNat := by
  have hlo := s.beginLine_le s.dot
  unfold beforeLine
  rw [List.length_take, Buf.length_bytes]
  omega

theorem length_behindLine (h₀ : s.text ≤ s.dot) (h₁ : s.dot < s.end_) :
    s.behindLine.length = (s.end_ - (s.endLine s.dot + 1)).toNat := by
  have hhi := s.le_endLine s.dot
  unfold behindLine
  rw [List.length_drop, Buf.length_bytes]
  omega

/-- A line above ends with a newline. -/
theorem beforeLine_newline (h₀ : s.text ≤ s.dot) (h₁ : s.dot < s.end_) (hne : s.beforeLine ≠ []) :
    s.beforeLine = s.beforeLine.dropLast ++ [NL] := by
  have hlo := s.beginLine_le s.dot
  have hlen := length_beforeLine h₀ h₁
  have hpos := List.length_pos_of_ne_nil hne
  have hnl := ((s.beginLine_start h₀).resolve_left (by omega)).2
  have hsplit := bytes_split (s := s) (p := s.beginLine s.dot - 1) (by omega) (by omega)
  rw [hnl, show (s.beginLine s.dot - 1 - s.text).toNat + 1 =
    (s.beginLine s.dot - s.text).toNat by omega] at hsplit
  unfold beforeLine
  rw [hsplit, List.dropLast_concat]

/-- **The text behind `U`.** -/
theorem restoreLine_bytes {b : Reg} (hf : s.Fits) (h₀ : s.text ≤ s.dot) (h₁ : s.dot < s.end_)
    (h : s.reg Ureg = some b) :
    s.restoreLine.bytes =
      if s.behindLine ≠ [] ∨ s.beforeLine = [] then s.beforeLine ++ b.body ++ s.behindLine
      else s.beforeLine.dropLast ++ b.body ++ [NL] := by
  have hp₀ := s.text_le_beginLine h₀
  have hpq : s.beginLine s.dot ≤ s.endLine s.dot := (s.beginLine_le _).trans (s.le_endLine _)
  have hq := s.endLine_lt h₁
  have hbefore := length_beforeLine h₀ h₁
  have hbehind := length_behindLine h₀ h₁
  have hstate := textHoleDelete_state s hp₀ hpq hq .allow
  have hbytes := textHoleDelete_bytes s hp₀ hpq hq .allow
  have hfits := textHoleDelete_fits s hf hp₀ hpq hq .allow
  have hdest := textHoleDelete_dest s hp₀ hpq hq .allow
  have hsplit : (s.textHoleDelete (s.beginLine s.dot) (s.endLine s.dot) .allow).2.bytes =
      s.beforeLine ++ s.behindLine := hbytes
  rw [restoreLine_inserts h]
  generalize s.textHoleDelete (s.beginLine s.dot) (s.endLine s.dot) .allow = r at *
  obtain ⟨p, s₁⟩ := r
  dsimp only at hstate hdest hsplit hfits ⊢
  have htext : s₁.text = s.text := by rw [hstate]
  have hend : s₁.end_ = s.end_ - (s.endLine s.dot - s.beginLine s.dot + 1) := by rw [hstate]
  by_cases hcase : s.behindLine ≠ [] ∨ s.beforeLine = []
  · have hp : p = s.beginLine s.dot := by
      rw [hdest]
      rcases hcase with hne | hnil
      · have := List.length_pos_of_ne_nil hne
        rw [if_neg (by omega), if_neg (by omega)]
      · have := List.length_eq_zero_iff.mpr hnil
        split
        · omega
        · rw [if_neg (by omega)]
    rw [if_pos hcase, stringInsert_bytes s₁ hfits (by omega) (by omega), hsplit, hp, htext, ← hbefore,
      List.take_left, List.drop_left]
  · obtain ⟨hnil, hne⟩ := not_or.mp hcase
    have hnil := not_not.mp hnil
    have hzero := List.length_eq_zero_iff.mpr hnil
    have hpos := List.length_pos_of_ne_nil hne
    have hp : p = s.beginLine s.dot - 1 := by
      rw [hdest, if_neg (by omega), if_pos (by omega)]
      omega
    have hlast : s.beforeLine.dropLast.length = (p - s₁.text).toNat := by
      rw [List.length_dropLast, hbefore, hp, htext]
      omega
    rw [if_neg hcase, stringInsert_bytes s₁ hfits (by omega) (by omega), hsplit, hnil, List.append_nil,
      ← hlast, beforeLine_newline h₀ h₁ hne, List.dropLast_concat, List.take_left, List.drop_left]

/-- A newline in front and one behind are the same only around newlines. -/
theorem append_newline_iff : ∀ {l : List UInt8}, l ++ [NL] = NL :: l ↔ ∀ c ∈ l, c = NL
  | [] => by simp
  | c :: l => by
    rw [List.cons_append, List.cons.injEq, List.forall_mem_cons]
    constructor
    · rintro ⟨rfl, h⟩
      exact ⟨rfl, append_newline_iff.mp h⟩
    · rintro ⟨rfl, h⟩
      exact ⟨rfl, append_newline_iff.mpr h⟩

/-- What `U` does in command mode. -/
theorem doCmd_restore (hm : s.cmdMode = .command) (h : doCmd (key 'U') s = some t) :
    ∃ u o, Glanced s u ∧ u.dot = s.dot ∧ u.reg = s.reg ∧
      u.restoreLine.epilogue (key 'U') o = some t := by
  obtain ⟨s₀, o, u, h₀, h₁, h₂⟩ := doCmdWith_parts h
  have hl := statusOff_looked h₀
  have hi := statusOff_idle h₀
  have hv : Glanced s₀ { s₀ with viVisual := false } := .of_fields rfl rfl rfl rfl rfl rfl rfl rfl rfl
  have hswitch : ∀ v : Ed, v.switch (doCmdWith fun _ _ => none) (key 'U') s.dot =
      some (s.dot, v.restoreLine) := fun v => rfl
  rw [dispatch_cleared (hl.cmdMode.trans hm) (by decide) (by decide) (by decide) (by decide),
    hswitch] at h₁
  cases h₁
  refine ⟨_, _, hl.trans hv, hi.dot, ?_, h₂⟩
  unfold Idle at hi
  rw [hi]

/-- The bytes that a round with `U` leaves. -/
theorem editStep_restore {u₁ : Ed} (hs : u.Saved l) (hm : u.cmdMode = .command)
    (hkey : u.getOneChar = some (key 'U', u₁)) (h : u.editStep = some t) :
    t.bytes =
      if u.behindLine ≠ [] ∨ u.beforeLine = [] then u.beforeLine ++ l ++ u.behindLine
      else u.beforeLine.dropLast ++ l ++ [NL] := by
  obtain ⟨v, hcall, hdraw⟩ := Option.bind_eq_some_iff.mp h
  obtain ⟨⟨c, u₂⟩, hkey₂, hdo⟩ := Option.bind_eq_some_iff.mp hcall
  obtain ⟨rfl, rfl⟩ := Prod.mk.inj (Option.some.inj (hkey.symm.trans hkey₂))
  have hidle := (getOneChar_keyed hkey).idle
  have hremember : u₁.saveLine.rememberCmd (key 'U') = u₁.saveLine :=
    if_neg fun h => absurd h.2.2.2.2.2.2 (by decide)
  dsimp only at hdo
  rw [hremember] at hdo
  have hmode : u₁.saveLine.cmdMode = .command :=
    (saveLine_cmdMode u₁).trans (hidle.looked.cmdMode.trans hm)
  obtain ⟨w, o, hw, hdot, hreg, hend⟩ := doCmd_restore hmode hdo
  have hbuf : w.toBuf = u.toBuf := hw.buf.trans ((saveLine_buf u₁).trans hidle.looked.buf)
  have hdot : w.dot = u.dot := hdot.trans ((saveLine_dot u₁).trans hidle.dot)
  obtain ⟨b, hb, rfl⟩ := hs.reg
  have hb : w.reg Ureg = some b := by
    rw [hreg, saveLine_reg_of_idle hidle]
    exact hb
  have hrestore := restoreLine_bytes (by rw [hbuf]; exact hs.fits)
    (by rw [hbuf, hdot]; exact hs.text_le_dot) (by rw [hbuf, hdot]; exact hs.dot_lt_end) hb
  have hlines : w.beforeLine = u.beforeLine ∧ w.behindLine = u.behindLine := by
    unfold beforeLine behindLine
    rw [hbuf, hdot]
    exact ⟨rfl, rfl⟩
  rw [hlines.1, hlines.2] at hrestore
  have hne : w.restoreLine.bytes ≠ [] := by
    rw [hrestore]
    have := hs.nonempty
    split <;> simp [this]
  have hlast : t.bytes = v.bytes := by
    rcases ite_eq_iff.mp hdraw with ⟨-, h⟩ | ⟨-, h⟩
    · exact ((refresh_looked v).trans (showStatusLine_looked h)).bytes
    · cases h
      rfl
  rw [hlast, (epilogue_looked (Buf.text_ne_end hne) hend).bytes, hrestore]

/-- **`U` puts back the line as the cursor came to it**, and leaves the others, unless the line is
the last one, is not the only one, and came with more than newlines. -/
theorem restoreLine_iff {s₀ u₁ : Ed} {fn : Option (List UInt8)} (start : Starts s s₀ fn)
    (run : Since Round SameLine cursorLine s₀ u l) (hm : u.cmdMode = .command)
    (hkey : u.getOneChar = some (key 'U', u₁)) (h : u.editStep = some t) :
    t.bytes = u.beforeLine ++ l ++ u.behindLine ↔
      u.behindLine ≠ [] ∨ u.beforeLine = [] ∨ ∀ c ∈ l, c = NL := by
  have hs := saved_of_since start.saved run
  have hbytes := editStep_restore hs hm hkey h
  by_cases hcase : u.behindLine ≠ [] ∨ u.beforeLine = []
  · rw [if_pos hcase] at hbytes
    exact ⟨fun _ => hcase.elim .inl fun h => .inr (.inl h), fun _ => hbytes⟩
  · rw [if_neg hcase] at hbytes
    obtain ⟨hnil, hne⟩ := not_or.mp hcase
    have hnil := not_not.mp hnil
    have hnl := beforeLine_newline hs.text_le_dot hs.dot_lt_end hne
    have hlines : t.bytes = u.beforeLine ++ l ++ u.behindLine ↔ l ++ [NL] = NL :: l := by
      rw [hbytes, hnil, List.append_nil]
      conv_lhs => rw [hnl, List.dropLast_concat, List.append_assoc, List.append_assoc,
        List.append_cancel_left_eq]
      exact Iff.rfl
    rw [hlines, append_newline_iff]
    constructor
    · exact fun h => .inr (.inr h)
    · rintro (h | h | h)
      · exact absurd hnil h
      · exact absurd h hne
      · exact h

/-- `main` on this file, with these keys to come. -/
def typedOn (file : String) (keys : List Char) : Ed :=
  mainStart { Env.still with
    keys := keys.map fun c => ⟨key c, false⟩
    stat := fun _ => some (str file).length
    opened := fun _ => true
    count := fun _ => (str file).length
    content := fun _ i => (str file).getD i 0 } 24 80

/-- `x` takes a byte of the first of three lines, `J` joins the second to it, and `U` puts the line
back. -/
theorem restoreLine_iff_first :
    ∃ s₀ u u₁ t, Starts (typedOn "ab\ncd\nef\n" ['x', 'J', 'U']) s₀ (some [102]) ∧
      Since Round SameLine cursorLine s₀ u s₀.cursorLine ∧ u.cmdMode = .command ∧
      u.getOneChar = some (key 'U', u₁) ∧ u.editStep = some t ∧ u.bytes = str "b cd\nef\n" ∧
      t.bytes = str "ab\nef\n" := by
  have h₀ : ((typedOn "ab\ncd\nef\n" ['x', 'J', 'U']).editStart (some [102])).isSome := by
    decide +kernel
  have hfirst : ∀ s₀ ∈ (typedOn "ab\ncd\nef\n" ['x', 'J', 'U']).editStart (some [102]),
      s₀.text ≤ s₀.dot ∧ s₀.dot < s₀.end_ ∧ 0 ∉ s₀.cursorLine ∧ s₀.editing > 0 ∧
        s₀.editStep.isSome ∧ s₀.cursorLine = str "ab\n" := by decide +kernel
  have hsecond : ∀ s₀ ∈ (typedOn "ab\ncd\nef\n" ['x', 'J', 'U']).editStart (some [102]),
      ∀ s₁ ∈ s₀.editStep, s₁.text ≤ s₁.dot ∧ s₁.dot < s₁.end_ ∧
        s₁.beginLine s₁.dot = s₀.beginLine s₀.dot ∧ SameLine s₀ s₁ ∧ (s₁.reg Ureg).isSome ∧
        s₁.editing > 0 ∧ s₁.editStep.isSome := by decide +kernel
  have hthird : ∀ s₀ ∈ (typedOn "ab\ncd\nef\n" ['x', 'J', 'U']).editStart (some [102]),
      ∀ s₁ ∈ s₀.editStep, ∀ u ∈ s₁.editStep, u.text ≤ u.dot ∧ u.dot < u.end_ ∧
        u.beginLine u.dot = s₁.beginLine s₁.dot ∧ SameLine s₁ u ∧ (u.reg Ureg).isSome ∧
        u.cmdMode = .command ∧ (u.getOneChar.map Prod.fst) = some (key 'U') ∧ u.editStep.isSome ∧
        u.bytes = str "b cd\nef\n" ∧ u.beforeLine = [] ∧ u.behindLine = str "ef\n" := by
    decide +kernel
  obtain ⟨s₀, h₀⟩ := Option.isSome_iff_exists.mp h₀
  obtain ⟨hlo₀, hhi₀, hnul, hediting₀, h₁, hline⟩ := hfirst s₀ h₀
  obtain ⟨s₁, h₁⟩ := Option.isSome_iff_exists.mp h₁
  obtain ⟨hlo₁, hhi₁, hkey₁, hsame₁, hreg₁, hediting₁, hu⟩ := hsecond s₀ h₀ s₁ h₁
  obtain ⟨u, hu⟩ := Option.isSome_iff_exists.mp hu
  obtain ⟨hlo, hhi, hkey, hsame, hreg, hm, hU, ht, hbytes, hbefore, hbehind⟩ :=
    hthird s₀ h₀ s₁ h₁ u hu
  obtain ⟨⟨c, u₁⟩, hU, rfl⟩ := Option.map_eq_some_iff.mp hU
  obtain ⟨t, ht⟩ := Option.isSome_iff_exists.mp ht
  have start : Starts (typedOn "ab\ncd\nef\n" ['x', 'J', 'U']) s₀ (some [102]) :=
    ⟨h₀, hlo₀, hhi₀, nofun, hnul⟩
  have hcut : Round s₀.cursorLine s₀ s₁ :=
    ⟨hediting₀, h₁, hlo₁, hhi₁, .inl ⟨fun _ => hsame₁, fun _ => hkey₁⟩,
      fun _ => Option.isSome_iff_ne_none.mp hreg₁, fun h => absurd hkey₁ h⟩
  have hjoin : Round s₀.cursorLine s₁ u :=
    ⟨hediting₁, hu, hlo, hhi, .inl ⟨fun _ => hsame, fun _ => hkey⟩,
      fun _ => Option.isSome_iff_ne_none.mp hreg, fun h => absurd hkey h⟩
  have run : Since Round SameLine cursorLine s₀ u s₀.cursorLine :=
    .stays (.stays .first hcut hsame₁) hjoin hsame
  refine ⟨s₀, u, u₁, t, start, run, hm, hU, ht, hbytes, ?_⟩
  rw [(restoreLine_iff start run hm hU ht).mpr (.inl (by rw [hbehind]; decide)), hline, hbefore,
    hbehind]
  rfl

/-- `j` comes to the last line, and `U`, without an edit, joins it to the line above. -/
theorem restoreLine_joins :
    ∃ s₀ u t, (typedOn "ab\ncd\n" ['j', 'U']).editStart (some [102]) = some s₀ ∧
      s₀.bytes = str "ab\ncd\n" ∧
      Since (fun _ s t => s.editing > 0 ∧ s.editStep = some t) SameLine cursorLine s₀ u
        u.cursorLine ∧
      u.bytes = str "ab\ncd\n" ∧ u.cmdMode = .command ∧
      u.getOneChar.map Prod.fst = some (key 'U') ∧ u.editStep = some t ∧
      t.bytes = str "abcd\n\n" ∧ t.bytes ≠ u.beforeLine ++ u.cursorLine ++ u.behindLine := by
  have h₀ : ((typedOn "ab\ncd\n" ['j', 'U']).editStart (some [102])).isSome := by decide +kernel
  have hfirst : ∀ s₀ ∈ (typedOn "ab\ncd\n" ['j', 'U']).editStart (some [102]),
      s₀.bytes = str "ab\ncd\n" ∧ s₀.editing > 0 ∧ s₀.editStep.isSome := by decide +kernel
  have hsecond : ∀ s₀ ∈ (typedOn "ab\ncd\n" ['j', 'U']).editStart (some [102]),
      ∀ u ∈ s₀.editStep, ¬SameLine s₀ u ∧ u.bytes = str "ab\ncd\n" ∧ u.cmdMode = .command ∧
        u.getOneChar.map Prod.fst = some (key 'U') ∧ u.editStep.isSome ∧
        ∀ t ∈ u.editStep, t.bytes = str "abcd\n\n" ∧
          t.bytes ≠ u.beforeLine ++ u.cursorLine ++ u.behindLine := by decide +kernel
  obtain ⟨s₀, h₀⟩ := Option.isSome_iff_exists.mp h₀
  obtain ⟨hbytes, hediting, hu⟩ := hfirst s₀ h₀
  obtain ⟨u, hu⟩ := Option.isSome_iff_exists.mp hu
  obtain ⟨hother, hbytes', hm, hU, ht, hlast⟩ := hsecond s₀ h₀ u hu
  obtain ⟨t, ht⟩ := Option.isSome_iff_exists.mp ht
  obtain ⟨hjoined, hne⟩ := hlast t ht
  exact ⟨s₀, u, t, h₀, hbytes, .enters .first ⟨hediting, hu⟩ hother, hbytes', hm, hU, ht,
    hjoined, hne⟩

end Ed

end Evim
