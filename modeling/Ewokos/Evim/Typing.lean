import Ewokos.Evim.AutoIndent
import Ewokos.Evim.QueueSpan

/-!
# evim: keys in insert mode

The rounds of the loop of `edit_file` while it is in insert mode, from any state on.  A key is
typed, or it is a cursor key, which goes to the commands.

* `Roomy.editStep` — the text keeps its room, the cursor its place and `tabstop` its value.
* `enter_harmless_iff` — on any such run, when Enter leaves the bytes of the text alone.
-/

set_option autoImplicit false

namespace Evim

open Cells
open CString hiding strchr

/-- What typing keeps. -/
structure Typed (s t : Ed) : Prop where
  fits : s.Fits → t.Fits
  tabstop : t.tabstop = s.tabstop

namespace Typed

variable {s t u : Ed}

theorem refl (s : Ed) : Typed s s := ⟨id, rfl⟩

theorem trans (h₁ : Typed s t) (h₂ : Typed t u) : Typed s u :=
  ⟨fun h => h₂.fits (h₁.fits h), h₂.tabstop.trans h₁.tabstop⟩

theorem of_buf (hb : t.toBuf = s.toBuf) (ho : t.toOptions = s.toOptions) : Typed s t :=
  ⟨fun h => by rw [hb]; exact h, congrArg Options.tabstop ho⟩

theorem looked (h : Glanced s t) : Typed s t := of_buf h.buf h.options

theorem ite {p : Prop} [Decidable p] (h₁ : Typed s t) (h₂ : Typed s u) :
    Typed s (if p then t else u) := by
  split
  · exact h₁
  · exact h₂

/-- The size of the text does not depend on what is written into it. -/
theorem write (s : Ed) (m : Memory UInt8) : Typed s { s with mem := m } := ⟨fun h => ⟨h.1, h.2⟩, rfl⟩

end Typed

namespace Ed

variable {s t : Ed}

/-! ## Typed characters -/

theorem textHoleMake_typed (s : Ed) (p n : Int) : Typed s (s.textHoleMake p n).2 := by
  refine ⟨fun h => ?_, by rw [textHoleMake_frame]⟩
  by_cases hn : n ≤ 0
  · unfold textHoleMake
    rw [if_pos hn]
    exact h
  · obtain ⟨k, rfl⟩ : ∃ k : Nat, n = k := ⟨n.toNat, by omega⟩
    exact textHoleMake_fits s h p k

theorem undoPushInsert_typed (s : Ed) (p : Int) (len : Nat) (undo : Undo) :
    Typed s (s.undoPushInsert p len undo) := by
  rw [undoPushInsert_eq]
  exact .of_buf rfl rfl

theorem textHoleDelete_typed (s : Ed) {p q : Int} (h : p ≤ q + 1) (undo : Undo) :
    Typed s (s.textHoleDelete p q undo).2 := by
  obtain ⟨u, hu⟩ : ∃ u, s.undoPushDelete p (q - p + 1).toNat undo = { s with toUndos := u } :=
    ⟨_, s.undoPushDelete_eq p _ undo⟩
  obtain ⟨src, dest, hd⟩ : ∃ src dest, (if q < p then (p + 1, q) else (q + 1, p)) = (src, dest) :=
    ⟨_, _, rfl⟩
  -- the text only becomes shorter
  have hless (m : Memory UInt8) (e : Int) (v : Undos) (he : s.text ≤ e ∧ (e ≤ s.end_ ∨ e = s.text)) :
      Typed s { s with toUndos := v, mem := m, end_ := e } := by
    refine ⟨fun hf => ?_, rfl⟩
    have hlt := hf.lt_size
    have hle := hf.text_le_end
    constructor <;> simp only <;> omega
  simp only [textHoleDelete, hu, hd]
  split
  · exact .of_buf rfl rfl
  · split
    · exact .of_buf rfl rfl
    · rw [Int.sub_add_cancel]
      by_cases hsrc : src ≥ s.end_
      · rw [if_pos hsrc]
        by_cases hall : s.end_ - (q - p + 1) ≤ s.text
        · rw [if_pos hall]
          exact hless _ _ _ ⟨Int.le_refl _, .inr rfl⟩
        · rw [if_neg hall]
          exact hless s.mem (s.end_ - (q - p + 1)) u ⟨by omega, .inl (by omega)⟩
      · rw [if_neg hsrc]
        by_cases hall : s.end_ - (q - p + 1) ≤ s.text
        · rw [if_pos hall]
          exact hless _ _ _ ⟨Int.le_refl _, .inr rfl⟩
        · rw [if_neg hall]
          exact hless _ (s.end_ - (q - p + 1)) u ⟨by omega, .inl (by omega)⟩

theorem stupidInsert_typed (s : Ed) (p : Int) (c : UInt8) : Typed s (s.stupidInsert p c).2 :=
  (s.textHoleMake_typed p 1).trans (.write _ _)

theorem insertLiteral_typed {p q : Int} {undo : Undo}
    (h : s.insertLiteral p undo = some (q, t)) : Typed s t := by
  have hs := s.stupidInsert_typed p (chr '^')
  unfold insertLiteral at h
  generalize s.stupidInsert p (chr '^') = r at h hs
  obtain ⟨⟨c, s₂⟩, h₁, h₂⟩ := Option.bind_eq_some_iff.mp h
  cases h₂
  refine hs.trans ((Typed.looked (refresh_looked r.2)).trans ((Typed.looked (getOneChar_looked h₁)).trans
    ?_))
  exact (Typed.write s₂ _).trans (undoPushInsert_typed _ _ _ _)

theorem stopInsert_typed (s : Ed) (bol p : Int) (undo : Undo) :
    Typed s (s.stopInsert bol p undo).2 := by
  have h₁ : Typed s { s with cmdMode := .command } := .of_buf rfl rfl
  have h₂ := h₁.trans (.looked (Glanced.commit _))
  have h₃ := (h₂.trans (.looked (looked_cmdcnt _ 0))).trans (.looked (endCmdQ_looked _))
  unfold stopInsert
  dsimp only
  generalize Ed.endCmdQ { Ed.undoQueueCommit { s with cmdMode := .command } with cmdcnt := 0 } = u
    at h₃
  split
  · have := u.indentLen_nonneg bol
    exact h₃.trans (u.textHoleDelete_typed (by omega) undo)
  · exact h₃

theorem outdentLoop_typed (bol prev : Int) :
    ∀ (n : Nat) (s : Ed) (p r : Int), Typed s (outdentLoop bol prev n s p r).2
  | 0, s, _, _ => .refl s
  | n + 1, s, p, r => by
    unfold outdentLoop
    split
    · exact (s.textHoleDelete_typed (by omega) .queued).trans (outdentLoop_typed bol prev n _ _ _)
    · exact .refl s

theorem outdent_typed (s : Ed) (bol p : Int) : Typed s (s.outdent bol p).2 := by
  have h := outdentLoop_typed bol (s.prevTabstop (s.getColumn (bol + s.indentLen bol)))
    (bol + s.indentLen bol - bol).toNat s p (bol + s.indentLen bol)
  unfold outdent
  dsimp only
  split
  · exact h.trans (.of_buf rfl rfl)
  · exact h.trans (.of_buf rfl rfl)

theorem expandLoop_typed (undo : Undo) :
    ∀ (n : Nat) (s : Ed) (p : Int), Typed s (expandLoop undo n s p).2
  | 0, s, _ => .refl s
  | n + 1, s, p =>
    (s.undoPushInsert_typed p 1 undo).trans
      ((stupidInsert_typed _ p 32).trans (expandLoop_typed undo n _ _))

theorem eraseChar_typed (s : Ed) (p : Int) : Typed s (s.eraseChar p).2 := by
  unfold eraseChar
  split
  · exact s.textHoleDelete_typed (by omega) .queued
  · exact .refl s

theorem indentWith_typed (s : Ed) (p ntab nspc : Int) (undo : Undo) :
    Typed s (s.indentWith p ntab nspc undo).2 :=
  (s.textHoleMake_typed p (ntab + nspc)).trans
    ((undoPushInsert_typed _ _ _ undo).trans (.write _ _))

theorem autoIndent_typed (s : Ed) (p : Int) (undo : Undo) : Typed s (s.autoIndent p undo).2 := by
  have hcol (n : Int) : Typed s { s with indentcol := n } := .of_buf rfl rfl
  unfold autoIndent
  generalize (if s.indentcol < 0 then p else s.prevLine p) = bol
  dsimp only
  split
  · exact .write s _
  · split
    · exact (hcol _).trans (indentWith_typed _ _ _ _ _)
    · exact hcol _

theorem insertPlain_typed {p q : Int} {c : UInt8} {undo : Undo}
    (h : s.insertPlain p c undo = some (q, t)) : Typed s t := by
  unfold insertPlain at h
  generalize (if c = 13 then NL else c) = c at h
  dsimp only at h
  have hc : Typed s (if c = NL then s.undoQueueCommit else s) :=
    .ite (.looked (Glanced.commit s)) (.refl s)
  generalize (if c = NL then s.undoQueueCommit else s) = s₀ at h hc
  have hi := s₀.stupidInsert_typed p c
  generalize s₀.stupidInsert p c = r at h hi
  obtain ⟨s₂, h₁, h₂⟩ := Option.bind_eq_some_iff.mp h
  have hs : Typed s s₂ := by
    refine hc.trans (hi.trans ?_)
    split at h₁
    · exact .looked (showmatching_looked h₁)
    · cases h₁
      exact .refl _
  split at h₂
  · have h₃ := s₂.autoIndent_typed (p + 1 + r.1) undo
    rw [Option.some.inj h₂] at h₃
    exact hs.trans h₃
  · cases h₂
    exact hs.trans (.of_buf rfl rfl)

/-- Every branch of `char_insert`. -/
theorem charInsert_typed {p q : Int} {c : UInt8} {undo : Undo}
    (h : s.charInsert p c undo = some (q, t)) : Typed s t := by
  have hcol (u : Ed) (n : Int) : Typed u { u with indentcol := n } := .of_buf rfl rfl
  unfold charInsert at h
  dsimp only at h
  split at h
  · obtain ⟨⟨q₁, s₁⟩, h₁, e⟩ := Option.map_eq_some_iff.mp h
    cases e
    exact (insertLiteral_typed h₁).trans (hcol _ _)
  · split at h
    · cases h
      exact (s.stopInsert_typed _ p undo).trans (hcol _ _)
    · split at h
      · have h₁ := s.outdent_typed (s.beginLine p) p
        rw [Option.some.inj h] at h₁
        exact h₁
      · split at h
        · cases h
          exact (expandLoop_typed undo _ s p).trans (hcol _ _)
        · split at h
          · cases h
            exact (s.eraseChar_typed p).trans (hcol _ _)
          · exact insertPlain_typed h

theorem insertKey_typed {c : Int} (h : s.insertKey c = some t) : Typed s t := by
  unfold insertKey at h
  split at h
  · cases h
    unfold startReplace
    rw [undoQueueCommit_eq]
    exact .of_buf rfl rfl
  · split at h
    · obtain ⟨⟨d, u⟩, hu, hrest⟩ := Option.bind_eq_some_iff.mp h
      cases hrest
      exact (charInsert_typed hu).trans (.looked (looked_dot _ _))
    · cases h
      exact .refl s

/-! ## Cursor keys -/

theorem yankDeleteDot_typed (s : Ed) (start stop : Int) (bt : BufType) (yf : Bool) (undo : Undo) :
    Typed s (s.yankDeleteDot start stop bt yf undo) := by
  obtain ⟨a, b, he, hab⟩ : ∃ a b, (if start > stop then (stop, start) else (start, stop)) = (a, b) ∧
      a ≤ b := by
    by_cases h : start > stop
    · exact ⟨stop, start, by rw [if_pos h], by omega⟩
    · exact ⟨start, stop, by rw [if_neg h], by omega⟩
  have hyank : Typed s (s.textYank a b s.ydreg bt) := .of_buf rfl rfl
  unfold yankDeleteDot yankDelete
  rw [he]
  dsimp only
  split
  · exact .of_buf rfl rfl
  · split
    · exact (hyank.trans (textHoleDelete_typed _ (by omega) undo)).trans (.of_buf rfl rfl)
    · exact hyank.trans (.of_buf rfl rfl)

/-- The cursor keys, in insert mode: motions, and Delete. -/
theorem keyCommand_typed {motion : Int → Ed → Option Ed} {c o o' : Int}
    (hm : s.cmdMode = .insert) (hc : isCursorKey c = true)
    (h : s.keyCommand motion c o = some (o', t)) : Typed s t := by
  have hdelete : caseOf KEYCODE_DELETE = .delete := by decide
  have hlook : c ≠ KEYCODE_DELETE → ∃ l, l ≠ .gotoMark ∧ caseOf c = l ∧
      s.command motion c l = s.look c l := by
    intro hne
    simp only [isCursorKey, Bool.or_eq_true, beq_iff_eq, hne, or_false] at hc
    rcases hc with ((((((rfl | rfl) | rfl) | rfl) | rfl) | rfl) | rfl) | rfl
    all_goals exact ⟨_, by decide, rfl, rfl⟩
  unfold keyCommand at h
  rw [if_neg (by rw [hm]; simp)] at h
  unfold switch at h
  by_cases hdel : c = KEYCODE_DELETE
  · rw [hdel, hdelete] at h
    obtain ⟨u, hu, hpair⟩ := Option.map_eq_some_iff.mp h
    cases hpair
    cases hu
    exact .ite (s.yankDeleteDot_typed _ _ _ _ _) (.refl s)
  · obtain ⟨l, hl, hcase, hrun⟩ := hlook hdel
    rw [hcase] at h
    split at h
    · exact absurd rfl hl
    · obtain ⟨u, hu, hpair⟩ := Option.map_eq_some_iff.mp h
      cases hpair
      rw [hrun] at hu
      have hl := look_text hu
      exact .of_buf hl.buf hl.options

/-! ## Rounds -/

theorem epilogue_typed {c o : Int} (h : s.epilogue c o = some t) : Typed s t := by
  obtain ⟨u, hu, h⟩ := Option.bind_eq_some_iff.mp h
  obtain ⟨v, hv, hlast⟩ := Option.bind_eq_some_iff.mp h
  have hrefill : Typed s u := by
    unfold refill at hu
    split at hu
    · obtain ⟨⟨q, w⟩, hw, hpair⟩ := Option.map_eq_some_iff.mp hu
      cases hpair
      exact (charInsert_typed hw).trans (.looked (looked_dot _ _))
    · cases hu
      exact .refl s
  cases hlast
  refine hrefill.trans (Typed.trans ?_
    (.looked ((v.settle_looked c o).trans (offNewline_looked _))))
  split at hv
  · exact .looked (boundHere_looked hv)
  · cases hv
    exact .refl _

/-- One key in insert mode. -/
theorem dispatch_typed {motion : Int → Ed → Option Ed} {c o o' : Int} (hm : s.cmdMode = .insert)
    (h : s.dispatch motion c o = some (o', t)) : Typed s t := by
  unfold dispatch at h
  split at h
  · rename_i hc
    exact keyCommand_typed hm hc h
  · rw [hm] at h
    obtain ⟨u, hu, hpair⟩ := Option.map_eq_some_iff.mp h
    cases hpair
    exact insertKey_typed hu

/-- The rounds of the loop in insert mode, from `s₀` on. -/
inductive Inserts (s₀ : Ed) : Ed → Prop where
  | first : Inserts s₀ s₀
  | key {s s' : Ed} : Inserts s₀ s → s.cmdMode = .insert → s.editStep = some s' → Inserts s₀ s'

/-- What `char_insert` relies on. -/
structure Roomy (s : Ed) : Prop where
  fits : s.Fits
  text_le_dot : s.text ≤ s.dot
  dot_le_end : s.dot ≤ s.end_
  tabstop : 1 ≤ s.tabstop

/-- A round keeps it. -/
theorem Roomy.editStep (h : Roomy s) (hm : s.cmdMode = .insert) (run : s.editStep = some t) :
    Roomy t := by
  obtain ⟨c, u, v, o, w, o', x, -, hready, hd, he, hidle⟩ := editStep_parts run
  have hv : Typed s v := by
    unfold Ready at hready
    rw [hready]
    exact .of_buf rfl rfl
  have hw := hv.trans (dispatch_typed (hready.kept.cmdMode.trans hm) hd)
  have hx := hw.trans (epilogue_typed he)
  have hall := hx.trans (.of_buf hidle.looked.buf hidle.looked.options)
  obtain ⟨-, hlo, hhi, -⟩ := epilogue_cursor he (hw.fits h.fits).text_le_end
  have hbuf := hidle.looked.buf
  have hdot := hidle.dot
  refine ⟨hall.fits h.fits, ?_, ?_, by rw [hall.tabstop]; exact h.tabstop⟩
  · rw [hbuf, hdot]
    exact hlo
  · rw [hbuf, hdot]
    exact hhi

/-- So does any number of rounds. -/
theorem Inserts.roomy {s₀ : Ed} (run : Inserts s₀ s) (h : Roomy s₀) : Roomy s := by
  induction run with
  | first => exact h
  | key _ hm hstep ih => exact ih.editStep hm hstep

theorem Pushes.congr {p : Int} (hb : t.toBuf = s.toBuf) (ho : t.toOptions = s.toOptions)
    (hi : t.indentcol = s.indentcol) : t.Pushes p ↔ s.Pushes p := by
  have hai := congrArg Options.autoindent ho
  have hts := congrArg Options.tabstop ho
  have hcol (a : Int) (n : Nat) : t.columnAt a n = s.columnAt a n :=
    columnAt_shift hts fun i _ => by rw [hb]
  unfold Pushes
  simp only [hb, hai, hi, hcol]

/-- Enter in insert mode: one newline at the cursor. -/
theorem insertKey_enter {c : Int} (hc : c = 10 ∨ c = 13) (h : s.insertKey c = some t) :
    ∃ q u, s.charInsert s.dot 10 .queued = some (q, u) ∧ t = { u with dot := q } := by
  have hins : s.insertKey c = s.charInsertDot 10 .queued := by
    rcases hc with rfl | rfl
    · rfl
    · rfl
  rw [hins] at h
  obtain ⟨⟨q, u⟩, hu, hrest⟩ := Option.bind_eq_some_iff.mp h
  exact ⟨q, u, hu, (Option.some.inj hrest).symm⟩

/-- **Enter under `autoindent`.**  In every run of insert mode, Enter adds one newline and keeps
the bytes that are neither blanks nor newlines, unless it takes a line with text on it for one of
nothing but indentation. -/
theorem enter_harmless_iff {s₀ : Ed} (h₀ : Roomy s₀) (run : Inserts s₀ s)
    (hm : s.cmdMode = .insert) {c : Int} {u : Ed} (typed : s.getOneChar = some (c, u))
    (hc : c = 10 ∨ c = 13) (step : s.editStep = some t) :
    AddsNewline s t ↔ ¬ s.Pushes s.dot := by
  have hr := run.roomy h₀
  obtain ⟨c', u', v, o, w, o', x, hkey, hready, hd, he, hidle⟩ := editStep_parts step
  obtain ⟨rfl, rfl⟩ := Prod.mk.inj (Option.some.inj (typed.symm.trans hkey))
  have hsame : v.toBuf = s.toBuf ∧ v.toOptions = s.toOptions ∧ v.indentcol = s.indentcol ∧
      v.dot = s.dot ∧ v.cmdMode = s.cmdMode := by
    unfold Ready at hready
    rw [hready]
    exact ⟨rfl, rfl, rfl, rfl, rfl⟩
  obtain ⟨hbuf, hopts, hind, hdot, hmode⟩ := hsame
  have hcursor : isCursorKey c = false := by rcases hc with rfl | rfl <;> rfl
  unfold dispatch at hd
  rw [hcursor, hmode, hm] at hd
  obtain ⟨w', hw, hpair⟩ := Option.map_eq_some_iff.mp hd
  cases hpair
  obtain ⟨q, y, hy, rfl⟩ := insertKey_enter hc hw
  have hiff := charInsert_addsNewline_iff (p := v.dot) (by rw [hbuf]; exact hr.fits)
    (by rw [hbuf, hdot]; exact hr.text_le_dot) (by rw [hbuf, hdot]; exact hr.dot_le_end)
    (by rw [show v.tabstop = s.tabstop from congrArg Options.tabstop hopts]; exact hr.tabstop) hy
  have hplain : v.insertPlain v.dot NL .queued = some (q, y) := hy
  have hlonger := insertPlain_length hplain
  have hfits := hr.fits.text_le_end
  rw [hbuf] at hlonger
  have hbytes : t.bytes = y.bytes := by
    rw [hidle.looked.bytes, (epilogue_looked (s := { y with dot := q }) (by simp only; omega) he).bytes]
  have hcontent : t.content = y.content := by
    unfold Buf.content
    rw [hbytes]
  rw [← Pushes.congr hbuf hopts hind, ← hdot, ← hiff]
  constructor
  · rintro ⟨h₁, h₂⟩
    exact ⟨by rw [← hcontent, h₁, hbuf], by rw [← hbytes, h₂, hbuf]⟩
  · rintro ⟨h₁, h₂⟩
    exact ⟨by rw [hcontent, h₁, hbuf], by rw [hbytes, h₂, hbuf]⟩

/-- `n` rounds of the loop, all of them in insert mode. -/
def insertLoop : Nat → Ed → Option Ed
  | 0, s => some s
  | n + 1, s => if s.cmdMode = .insert then s.editStep.bind (insertLoop n) else none

theorem Inserts.rounds {s₀ : Ed} : ∀ {n : Nat} {s s' : Ed},
    Inserts s₀ s → insertLoop n s = some s' → Inserts s₀ s'
  | 0, _, _, run, h => by
    cases h
    exact run
  | n + 1, s, s', run, h => by
    unfold insertLoop at h
    split at h
    · rename_i hm
      obtain ⟨s₁, h₁, h₂⟩ := Option.bind_eq_some_iff.mp h
      exact Inserts.rounds (.key run hm h₁) h₂
    · cases h

/-- A line indented by two blanks, and the cursor at its end in insert mode. -/
def typingAt (keys : List Int) : Ed :=
  { EditOp.holding [32, 32, 120, NL] with
    rows := 24
    columns := 80
    tabstop := 8
    autoindent := true
    cmdMode := .insert
    dot := 4099
    env := { Env.still with keys := keys.map fun c => ⟨c, false⟩ } }

theorem typingAt_roomy (keys : List Int) : Roomy (typingAt keys) := by
  refine ⟨⟨?_, ?_⟩, ?_, ?_, ?_⟩ <;> simp [typingAt, EditOp.holding]

/-- The first Enter. -/
theorem enter_harmless_first :
    ∃ t, (typingAt [13]).editStep = some t ∧ AddsNewline (typingAt [13]) t := by
  have hrun : (typingAt [13]).editStep.isSome := by decide +kernel
  obtain ⟨t, ht⟩ := Option.isSome_iff_exists.mp hrun
  refine ⟨t, ht, (enter_harmless_iff (typingAt_roomy [13]) .first rfl (c := 13) rfl (.inr rfl)
    ht).mpr ?_⟩
  rintro ⟨-, n, hn, -, -, hcol⟩
  have hpos := columnAt_pos (typingAt_roomy [13]).tabstop
    ((typingAt [13]).beginLine (typingAt [13]).dot) n
  have hzero : (typingAt [13]).indentcol = 0 := rfl
  omega

/-- Enter, up, end of line, Enter: the second one loses the text of the line. -/
theorem enter_loses_text :
    ¬ ∀ (s₀ s t u : Ed) (c : Int), Roomy s₀ → s₀.autoindent = true → s₀.bytes.getLast? = some NL →
      Inserts s₀ s → s.cmdMode = .insert → s.getOneChar = some (c, u) → c = 10 ∨ c = 13 →
      s.editStep = some t → AddsNewline s t := by
  intro h
  have hrun : (insertLoop 3 (typingAt [13, KEYCODE_UP, KEYCODE_END, 13])).isSome := by decide +kernel
  obtain ⟨s, hs⟩ := Option.isSome_iff_exists.mp hrun
  have hlast : ((insertLoop 3 (typingAt [13, KEYCODE_UP, KEYCODE_END, 13])).bind fun s =>
      s.getOneChar.map fun r => (r.1, s.cmdMode, s.bytes.count NL,
        s.editStep.map fun t => t.bytes.count NL)) = some (13, .insert, 2, some 4) := by
    decide +kernel
  rw [hs, Option.bind_some] at hlast
  obtain ⟨⟨c, u⟩, htyped, hrest⟩ := Option.map_eq_some_iff.mp hlast
  obtain ⟨rfl, hm, hcount, hstep⟩ := by simpa using hrest
  obtain ⟨t, ht, hnew⟩ := hstep
  have hbad := h _ s t u _ (typingAt_roomy _) rfl (by decide) (Inserts.first.rounds hs) hm htyped
    (.inr rfl) ht
  have := hbad.newlines
  omega

end Ed

end Evim
