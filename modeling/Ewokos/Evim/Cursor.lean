import Ewokos.Evim.CommandEdits
import Ewokos.Evim.Session
import Ewokos.Evim.UndoExact

/-!
# evim: the cursor stays in the buffer

* `Edit.text_le_end` — whatever is done to the text, `text ≤ end` survives.
* `epilogue_cursor` — behind label `dc1` the buffer is not empty and `text ≤ dot ≤ end`.

Main result: `cursor_in_text` — so it is at every return of `do_cmd` from the loop of
`edit_file`.  The bound is tight: `dot = end` does occur (`undo_leaves_dot_at_end`).
-/

set_option autoImplicit false

namespace Evim

open Cells

namespace Ed

variable {s s' : Ed}

/-! ## `text ≤ end` -/

theorem textHoleMake_text_le_end (h : s.text ≤ s.end_) (p size : Int) :
    (s.textHoleMake p size).2.text ≤ (s.textHoleMake p size).2.end_ := by
  unfold textHoleMake
  split
  · exact h
  · dsimp only
    split <;> simp only [growText] <;> omega

theorem textHoleDelete_text_le_end (h : s.text ≤ s.end_) (p q : Int) (undo : Undo) :
    (s.textHoleDelete p q undo).2.text ≤ (s.textHoleDelete p q undo).2.end_ := by
  rcases s.textHoleDelete_cases p q undo with e | ⟨m, e, hle, -, he⟩
  · rw [e, undoPushDelete_eq]
    exact h
  · rw [he, undoPushDelete_eq]
    exact hle

theorem undoApply_text_le_end (h : s.text ≤ s.end_) (e : UndoObject) :
    (s.undoApply e).text ≤ (s.undoApply e).end_ := by
  unfold undoApply
  split
  · exact textHoleMake_text_le_end h _ _
  · exact textHoleMake_text_le_end h _ _
  · exact textHoleDelete_text_le_end h _ _ _
  · exact textHoleDelete_text_le_end h _ _ _
  · exact h

end Ed

open Ed in
/-- `text ≤ end` survives every primitive change. -/
theorem Edit.text_le_end {s s' : Ed} (h : Edit s s') (hs : s.text ≤ s.end_) :
    s'.text ≤ s'.end_ := by
  cases h with
  | look h =>
    rw [h.text, h.end_]
    exact hs
  | still hb hu =>
    rw [hb]
    exact hs
  | push src len t =>
    rw [undoPush_eq]
    exact hs
  | write m => exact hs
  | hole p size => exact textHoleMake_text_le_end hs p size
  | delete h undo => exact textHoleDelete_text_le_end hs _ _ undo
  | pop h =>
    rw [popObject_buf]
    exact undoApply_text_le_end hs _
  | fresh hb hu => exact Int.le_of_eq hb
  | flush => exact hs
  | clean => exact hs

theorem Edits.text_le_end {s s' : Ed} (h : Edits s s') (hs : s.text ≤ s.end_) :
    s'.text ≤ s'.end_ := h.keeps Edit.text_le_end hs

namespace Ed

variable {s s' : Ed}

/-! ## Runs -/

theorem saveLine_edits (s : Ed) : Edits s s.saveLine :=
  Edits.ite (Edits.still rfl rfl) (Edits.refl s)

theorem rememberCmd_looked (s : Ed) (c : Int) : Glanced s (s.rememberCmd c) :=
  .ite (.of_fields rfl rfl rfl rfl rfl rfl rfl rfl rfl) (Glanced.refl s)

/-- A round of the loop: a key is read, the line is saved, and the command works on. -/
theorem editStep_served {t : Ed} (h : s.editStep = some t) :
    ∃ c s₁, s.getOneChar = some (c, s₁) ∧ Served (c ≠ key '.') s₁.saveLine t := by
  obtain ⟨s₂, h₂, h⟩ := Option.bind_eq_some_iff.mp h
  obtain ⟨⟨c, s₁⟩, h₁, h₂⟩ := Option.bind_eq_some_iff.mp h₂
  refine ⟨c, s₁, h₁, .before (rememberCmd_looked _ c).worked ((doCmd_edits h₂).behind ?_)⟩
  rcases ite_eq_iff.mp h with ⟨-, h⟩ | ⟨-, h⟩
  · exact (refresh_looked s₂).worked.trans (showStatusLine_looked h).worked
  · cases h
    exact Worked.refl _

/-- What the loop does between reading a key and calling `do_cmd`. -/
theorem beforeCmd_edits {c : Int} {s₁ : Ed} (h : s.getOneChar = some (c, s₁)) :
    Edits s (s₁.saveLine.rememberCmd c) :=
  (getOneChar_looked h).edits.trans (s₁.saveLine_edits.trans (rememberCmd_looked _ c).edits)

theorem editStep_edits (h : s.editStep = some s') : Edits s s' := by
  obtain ⟨s₂, h₂, h⟩ := Option.bind_eq_some_iff.mp h
  obtain ⟨⟨c, s₁⟩, h₁, h₂⟩ := Option.bind_eq_some_iff.mp h₂
  refine (beforeCmd_edits h₁).trans ((doCmd_edits h₂).edits.trans ?_)
  rcases ite_eq_iff.mp h with ⟨-, h⟩ | ⟨-, h⟩
  · exact (refresh_looked s₂).edits.trans (showStatusLine_looked h).edits
  · cases h
    exact Edits.refl _

theorem Waits.edits {s₀ : Ed} (h : Waits s₀ s) : Edits s₀ s := by
  induction h with
  | first => exact Edits.refl s₀
  | next _ _ h ih => exact ih.trans (editStep_edits h)

/-! ## The repair of an empty buffer -/

/-- A hole makes the text longer by its size. -/
theorem textHoleMake_length (s : Ed) (p size : Int) :
    (s.textHoleMake p size).2.end_ - (s.textHoleMake p size).2.text =
      s.end_ - s.text + max size 0 := by
  unfold textHoleMake
  split
  · dsimp only
    omega
  · dsimp only
    split <;> simp only [growText] <;> omega

theorem autoIndent_length (s : Ed) (p : Int) (undo : Undo) :
    s.end_ - s.text ≤ (s.autoIndent p undo).2.end_ - (s.autoIndent p undo).2.text := by
  unfold autoIndent
  generalize (if s.indentcol < 0 then p else s.prevLine p) = bol
  dsimp only
  split
  · exact Int.le_refl _
  · split
    · unfold indentWith
      dsimp only
      rw [undoPushInsert_eq]
      dsimp only
      rw [textHoleMake_length]
      dsimp only
      omega
    · exact Int.le_refl _

theorem insertPlain_length {p q : Int} {c : UInt8} {undo : Undo}
    (h : s.insertPlain p c undo = some (q, s')) : s.end_ - s.text < s'.end_ - s'.text := by
  unfold insertPlain at h
  generalize (if c = 13 then NL else c) = c at h
  dsimp only at h
  have hc : Looked s (if c = NL then s.undoQueueCommit else s) :=
    .ite (Looked.commit s) (Looked.refl s)
  generalize (if c = NL then s.undoQueueCommit else s) = s₀ at h hc
  have hi : (s₀.stupidInsert p c).2.end_ - (s₀.stupidInsert p c).2.text = s₀.end_ - s₀.text + 1 :=
    s₀.textHoleMake_length p 1
  rw [hc.text, hc.end_] at hi
  generalize s₀.stupidInsert p c = r at h hi
  obtain ⟨b, s₁⟩ := r
  obtain ⟨s₂, h₁, h₂⟩ := Option.bind_eq_some_iff.mp h
  have hl : Looked s₁ s₂ := by
    split at h₁
    · exact (showmatching_looked h₁).toLooked
    · cases h₁
      exact Looked.refl _
  have ht := hl.text
  have he := hl.end_
  dsimp only at hi
  split at h₂
  · have h₃ := s₂.autoIndent_length (p + 1 + b) undo
    rw [Option.some.inj h₂] at h₃
    dsimp only at h₃
    omega
  · cases h₂
    dsimp only
    omega

/-- Behind the repair the buffer is not empty. -/
theorem refill_nonempty (h : s.refill = some s') (hs : s.text ≤ s.end_) :
    s'.text < s'.end_ ∧ (s' = s ∨ s'.dot = s'.text) := by
  unfold refill at h
  split at h
  · rename_i he
    obtain ⟨⟨q, s₁⟩, h₁, e⟩ := Option.map_eq_some_iff.mp h
    have hl : s.end_ - s.text < s₁.end_ - s₁.text := insertPlain_length h₁
    cases e
    exact ⟨by dsimp only; omega, Or.inr rfl⟩
  · cases h
    exact ⟨by omega, Or.inl rfl⟩

/-! ## The epilogue -/

theorem boundDot_range {p q : Int} (h : s.boundDot p = some (q, s')) (hs : s.text < s.end_) :
    s.text ≤ q ∧ q < s.end_ := by
  have at_error : ∀ {t t' : Ed} {a b : Int}, t.errorAt a = some (b, t') → b = a ∧ Looked t t' := by
    intro t t' a b e
    refine ⟨?_, (errorAt_looked e).toLooked⟩
    obtain ⟨u, hu, e⟩ := Option.map_eq_some_iff.mp e
    cases e
    rfl
  obtain ⟨⟨p₁, s₁⟩, h₁, h₂⟩ := Option.bind_eq_some_iff.mp h
  have hp : Looked s s₁ ∧ p₁ < s.end_ := by
    split at h₁
    · obtain ⟨e, hl⟩ := at_error h₁
      exact ⟨hl, by omega⟩
    · cases h₁
      exact ⟨Looked.refl _, by omega⟩
  obtain ⟨hl, hlt⟩ := hp
  have ht := hl.text
  dsimp only at h₂
  split at h₂
  · obtain ⟨e, -⟩ := at_error h₂
    omega
  · cases h₂
    omega

theorem boundHere_range (h : s.boundHere = some s') (hs : s.text < s.end_) :
    s'.text = s.text ∧ s'.end_ = s.end_ ∧ s.text ≤ s'.dot ∧ s'.dot < s.end_ := by
  have hl := boundHere_looked h
  obtain ⟨⟨d, s₁⟩, h₁, e⟩ := Option.bind_eq_some_iff.mp h
  have hr := boundDot_range h₁ hs
  refine ⟨hl.text, hl.end_, ?_⟩
  cases e
  exact hr

theorem settle_dot (s : Ed) (c o : Int) : (s.settle c o).dot = s.dot := by
  unfold settle checkContext
  dsimp only
  split <;> split <;> first | rfl | (split <;> rfl)

theorem offNewline_dot (hs : s.text ≤ s.dot) :
    s.text ≤ s.offNewline.dot ∧ s.offNewline.dot ≤ s.dot := by
  have := s.text_le_beginLine hs
  unfold offNewline
  split
  · dsimp only
    omega
  · omega

/-- **Behind label `dc1`** the buffer is not empty and the cursor is in it or at its end, where
only the command itself can have left it. -/
theorem epilogue_cursor {c o : Int} (h : s.epilogue c o = some s') (hs : s.text ≤ s.end_) :
    s'.text < s'.end_ ∧ s'.text ≤ s'.dot ∧ s'.dot ≤ s'.end_ ∧
      (s'.dot = s'.end_ → s.dot = s.end_) := by
  obtain ⟨t, h₁, h⟩ := Option.bind_eq_some_iff.mp h
  obtain ⟨u, h₂, e⟩ := Option.bind_eq_some_iff.mp h
  obtain ⟨ht, hr⟩ := refill_nonempty h₁ hs
  have hu : u.text = t.text ∧ u.end_ = t.end_ ∧ t.text ≤ u.dot ∧ u.dot ≤ t.end_ ∧
      (u.dot = t.end_ → t.dot = t.end_) := by
    split at h₂
    · obtain ⟨e₁, e₂, h₃, h₄⟩ := boundHere_range h₂ ht
      exact ⟨e₁, e₂, h₃, by omega, by omega⟩
    · cases h₂
      exact ⟨rfl, rfl, by omega, by omega, id⟩
  obtain ⟨e₁, e₂, h₃, h₄, h₅⟩ := hu
  have hl := (u.settle_looked c o).trans (offNewline_looked _)
  have hd := offNewline_dot (s := u.settle c o) (by
    rw [(u.settle_looked c o).text, settle_dot]
    omega)
  rw [(u.settle_looked c o).text, settle_dot] at hd
  cases e
  rw [hl.text, hl.end_]
  refine ⟨by omega, by omega, by omega, fun he => ?_⟩
  rcases hr with rfl | hr
  · exact h₅ (by omega)
  · have := h₅ (by omega)
    omega

/-- `u` is what the command itself, before label `dc1`, makes of `s`. -/
def Acted (motion : Int → Ed → Option Ed) (c : Int) (s u : Ed) : Prop :=
  ∃ s₁ o, Ed.showStatusLine { s with keepIndex := false, cmdError := false } = some s₁ ∧
    s₁.dispatch motion c s.dot = some (o, u)

/-- What a call of `do_cmd` returns with, whatever is called for a motion inside. -/
theorem doCmdWith_cursor {motion : Int → Ed → Option Ed}
    (hm : ∀ {c : Int} {t t' : Ed}, motion c t = some t' → Served (c ≠ key '.') t t') {c : Int}
    (h : doCmdWith motion c s = some s') (hs : s.text ≤ s.end_) :
    s'.text < s'.end_ ∧ s'.text ≤ s'.dot ∧ s'.dot ≤ s'.end_ ∧
      (s'.dot = s'.end_ → ∃ u, Acted motion c s u ∧ u.dot = u.end_) := by
  have h₀ : Glanced s { s with keepIndex := false, cmdError := false } :=
    .of_fields rfl rfl rfl rfl rfl rfl rfl rfl rfl
  obtain ⟨s₁, h₁, h⟩ := Option.bind_eq_some_iff.mp h
  obtain ⟨⟨o, s₂⟩, h₂, h⟩ := Option.bind_eq_some_iff.mp h
  have he := (h₀.trans (showStatusLine_looked h₁)).edits.trans (dispatch_edits hm h₂).edits
  obtain ⟨h₃, h₄, h₅, h₆⟩ := epilogue_cursor h (he.text_le_end hs)
  exact ⟨h₃, h₄, h₅, fun hd => ⟨s₂, ⟨s₁, o, h₁, h₂⟩, h₆ hd⟩⟩

/-- **The cursor stays in the buffer**: after every call of `do_cmd` the buffer is not empty and
the cursor is in it, or at its end if the command itself stopped there. -/
theorem cursor_in_text {s₀ t : Ed} (h₀ : s₀.text ≤ s₀.end_) (hw : Waits s₀ s)
    (ht : s.callCmd = some t) :
    t.text < t.end_ ∧ t.text ≤ t.dot ∧ t.dot ≤ t.end_ ∧
      (t.dot = t.end_ → ∃ c s₁ u, s.getOneChar = some (c, s₁) ∧
        Acted (doCmdWith fun _ _ => none) c (s₁.saveLine.rememberCmd c) u ∧ u.dot = u.end_) := by
  obtain ⟨⟨c, s₁⟩, h₁, h⟩ := Option.bind_eq_some_iff.mp ht
  have hs := (hw.edits.trans (beforeCmd_edits h₁)).text_le_end h₀
  obtain ⟨h₂, h₃, h₄, h₅⟩ := doCmdWith_cursor motion_edits h hs
  refine ⟨h₂, h₃, h₄, fun he => ?_⟩
  obtain ⟨u, hu, hd⟩ := h₅ he
  exact ⟨c, s₁, u, h₁, hu, hd⟩

/-- The start of `edit_file` on a file `a\n`, with these keys to come. -/
def oneLine (keys : List Char) : Option Ed :=
  (mainStart { Env.still with
    keys := keys.map fun c => ⟨key c, false⟩
    stat := fun _ => some 2
    opened := fun _ => true
    count := fun _ => 2
    content := fun _ i => if i = 0 then 97 else NL } 24 80).editStart (some [102])

/-- `b` and `c` are inserted in front of the letter, and behind the ESC `x` deletes the `c`. -/
theorem cursor_in_text_oneLine :
    ∃ s₀ s t, oneLine ['i', 'b', 'c', '\x1b', 'x'] = some s₀ ∧ Waits s₀ s ∧ s.callCmd = some t ∧
      t.bytes = [98, 97, NL] ∧ t.text < t.end_ ∧ t.text ≤ t.dot ∧ t.dot ≤ t.end_ := by
  have hs : (oneLine ['i', 'b', 'c', '\x1b', 'x']).isSome := by decide +kernel
  have hb : ∀ s₀ ∈ oneLine ['i', 'b', 'c', '\x1b', 'x'],
      s₀.text ≤ s₀.end_ ∧ (editLoop 4 s₀).isSome := by decide +kernel
  have hr : ∀ s₀ ∈ oneLine ['i', 'b', 'c', '\x1b', 'x'], ∀ s ∈ editLoop 4 s₀,
      s.callCmd.isSome ∧ ∀ t ∈ s.callCmd, t.bytes = [98, 97, NL] := by decide +kernel
  obtain ⟨s₀, h₀⟩ := Option.isSome_iff_exists.mp hs
  obtain ⟨htext, hl⟩ := hb s₀ h₀
  obtain ⟨s, hs⟩ := Option.isSome_iff_exists.mp hl
  obtain ⟨hc, hbytes⟩ := hr s₀ h₀ s hs
  obtain ⟨t, ht⟩ := Option.isSome_iff_exists.mp hc
  have hw : Waits s₀ s := Waits.first.rounds hs
  obtain ⟨h₂, h₃, h₄, -⟩ := cursor_in_text htext hw ht
  exact ⟨s₀, s, t, h₀, hw, ht, hbytes t ht, h₂, h₃, h₄⟩

/-- `yy`, `p` and `u` leave the cursor behind the last byte, in command mode. -/
theorem undo_leaves_dot_at_end :
    ∃ s₀ s t, oneLine ['y', 'y', 'p', 'u'] = some s₀ ∧ s₀.bytes = [97, NL] ∧ Waits s₀ s ∧
      s.callCmd = some t ∧ t.cmdMode = .command ∧ ¬t.dot < t.end_ := by
  have h₀ : (oneLine ['y', 'y', 'p', 'u']).isSome := by decide +kernel
  have hb : ∀ s₀ ∈ oneLine ['y', 'y', 'p', 'u'],
      s₀.bytes = [97, NL] ∧ (editLoop 2 s₀).isSome := by decide +kernel
  have hr : ∀ s₀ ∈ oneLine ['y', 'y', 'p', 'u'], ∀ s ∈ editLoop 2 s₀, s.callCmd.isSome ∧
      ∀ t ∈ s.callCmd, t.cmdMode = .command ∧ ¬t.dot < t.end_ := by decide +kernel
  obtain ⟨s₀, h₀⟩ := Option.isSome_iff_exists.mp h₀
  obtain ⟨hbytes, hl⟩ := hb s₀ h₀
  obtain ⟨s, hs⟩ := Option.isSome_iff_exists.mp hl
  obtain ⟨hc, ht⟩ := hr s₀ h₀ s hs
  obtain ⟨t, hct⟩ := Option.isSome_iff_exists.mp hc
  exact ⟨s₀, s, t, h₀, hbytes, Waits.first.rounds hs, hct, ht t hct⟩

end Ed

end Evim
