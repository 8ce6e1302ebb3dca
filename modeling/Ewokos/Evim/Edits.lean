import Ewokos.Evim.Looking
import Ewokos.Evim.UndoExact

/-!
# evim: a command is a sequence of primitive changes

`Edit` lists the ways in which the text or the undo state can change at all: the primitives of
`vim_text.c` with the arguments they are called with, and steps that leave both alone.  `Edits`
is any sequence of them.  Every branch of `char_insert`, every colon command and every case of the
`switch` is such a sequence (`doCmd_edits`), so a property kept by each primitive is kept by
`do_cmd`.  `Worked` adds what is not about the text: the line that `edit_file` keeps for `U`, the keys
that are to come and the block that holds the text.
-/

set_option autoImplicit false

namespace Evim

open Cells

/-- One primitive change. -/
inductive Edit : Ed → Ed → Prop where
  | look {s s' : Ed} (h : Looked s s') : Edit s s'
  | still {s s' : Ed} (hb : s'.toBuf = s.toBuf) (hu : s'.toUndos = s.toUndos) : Edit s s'
  | push (s : Ed) (src : Int) (len : Nat) (t : UndoType) : Edit s (s.undoPush src len t)
  | write (s : Ed) (m : Memory UInt8) : Edit s { s with mem := m }
  | hole (s : Ed) (p size : Int) : Edit s (s.textHoleMake p size).2
  | delete (s : Ed) {p q : Int} (h : p ≤ q + 1) (undo : Undo) :
    Edit s (s.textHoleDelete p q undo).2
  | pop (s : Ed) {e : UndoObject} {rest : List UndoObject} (h : s.undoStack = e :: rest) :
    Edit s (s.popObject e rest)
  | fresh {s s' : Ed} (hb : s'.text = s'.end_) (hu : s'.toUndos = s.toUndos) : Edit s s'
  | flush (s : Ed) : Edit s s.flushUndoData
  | clean (s : Ed) : Edit s { s with modifiedCount := 0 }

/-- A sequence of primitive changes. -/
def Edits : Ed → Ed → Prop := Relation.ReflTransGen Edit

/-- What every primitive change keeps, a sequence of them keeps. -/
theorem Edits.keeps {P : Ed → Prop} (step : ∀ {s s'}, Edit s s' → P s → P s') {s s' : Ed}
    (h : Edits s s') (hs : P s) : P s' := by
  induction h with
  | refl => exact hs
  | tail _ e ih => exact step e ih

theorem Edits.refl (s : Ed) : Edits s s := Relation.ReflTransGen.refl

theorem Edits.trans {s t u : Ed} (h₁ : Edits s t) (h₂ : Edits t u) : Edits s u :=
  Relation.ReflTransGen.trans h₁ h₂

theorem Edit.edits {s s' : Ed} (h : Edit s s') : Edits s s' := Relation.ReflTransGen.single h

theorem Looked.edits {s s' : Ed} (h : Looked s s') : Edits s s' := (Edit.look h).edits

/-- A step that leaves the text and the undo state alone. -/
theorem Edits.still {s s' : Ed} (hb : s'.toBuf = s.toBuf) (hu : s'.toUndos = s.toUndos) :
    Edits s s' := (Edit.still hb hu).edits

theorem Edits.ite {s t u : Ed} {p : Prop} [Decidable p] (h₁ : Edits s t) (h₂ : Edits s u) :
    Edits s (if p then t else u) := by
  split
  · exact h₁
  · exact h₂

namespace Ed

theorem textHoleMake_lineKept (s : Ed) (p size : Int) : LineKept s (s.textHoleMake p size).2 := by
  unfold textHoleMake
  split
  · exact .refl s
  · dsimp only
    split <;> exact .same rfl rfl

theorem textHoleDelete_lineKept (s : Ed) (p q : Int) (undo : Undo) :
    LineKept s (s.textHoleDelete p q undo).2 := by
  have hpush : LineKept s (s.undoPushDelete p (q - p + 1).toNat undo) := by
    refine .same ?_ ?_ <;> rw [undoPushDelete_eq]
  rcases s.textHoleDelete_cases p q undo with h | ⟨m, e, -, -, h⟩ <;> rw [h] <;>
    exact hpush.trans (.same rfl rfl)

theorem textHoleMake_keysKept (s : Ed) (p size : Int) : KeysKept s (s.textHoleMake p size).2 := by
  unfold textHoleMake
  split
  · exact .refl s
  · dsimp only
    split <;> exact .same rfl rfl

theorem textHoleDelete_keysKept (s : Ed) (p q : Int) (undo : Undo) :
    KeysKept s (s.textHoleDelete p q undo).2 := by
  have hpush : KeysKept s (s.undoPushDelete p (q - p + 1).toNat undo) := by
    refine .same ?_ ?_ <;> rw [undoPushDelete_eq]
  rcases s.textHoleDelete_cases p q undo with h | ⟨m, e, -, -, h⟩ <;> rw [h] <;>
    exact hpush.trans (.same rfl rfl)

theorem popObject_lineKept (s : Ed) (e : UndoObject) (rest : List UndoObject) :
    LineKept s (s.popObject e rest) := by
  have happly : LineKept s (s.undoApply e) := by
    unfold undoApply
    split
    · exact (s.textHoleMake_lineKept _ _).trans (.same rfl rfl)
    · exact (s.textHoleMake_lineKept _ _).trans (.same rfl rfl)
    · exact (s.textHoleDelete_lineKept _ _ _).trans (.same rfl rfl)
    · exact (s.textHoleDelete_lineKept _ _ _).trans (.same rfl rfl)
    · exact .refl s
  have hdrop (v : Ed) : LineKept v
      { v with undoStack := rest, modifiedCount := v.modifiedCount - 1 } := .same rfl rfl
  have hdot (v : Ed) : LineKept v { v with dot := v.text + e.start }.refresh :=
    ((looked_dot v _).trans (refresh_looked _)).lineKept
  unfold popObject
  refine happly.trans (LineKept.trans ?_ (hdrop _))
  split
  · exact hdot _
  · exact hdot _
  · exact .refl _

theorem popObject_keysKept (s : Ed) (e : UndoObject) (rest : List UndoObject) :
    KeysKept s (s.popObject e rest) := by
  have happly : KeysKept s (s.undoApply e) := by
    unfold undoApply
    split
    · exact (s.textHoleMake_keysKept _ _).trans (.same rfl rfl)
    · exact (s.textHoleMake_keysKept _ _).trans (.same rfl rfl)
    · exact (s.textHoleDelete_keysKept _ _ _).trans (.same rfl rfl)
    · exact (s.textHoleDelete_keysKept _ _ _).trans (.same rfl rfl)
    · exact .refl s
  have hdrop (v : Ed) : KeysKept v
      { v with undoStack := rest, modifiedCount := v.modifiedCount - 1 } := .same rfl rfl
  have hdot (v : Ed) : KeysKept v { v with dot := v.text + e.start }.refresh :=
    ((looked_dot v _).trans (refresh_looked _)).keysKept
  unfold popObject
  refine happly.trans (KeysKept.trans ?_ (hdrop _))
  split
  · exact hdot _
  · exact hdot _
  · exact .refl _

end Ed

namespace Buf.Fits

variable {s : Ed} (hf : s.Fits)
include hf

theorem textHoleMake (p size : Int) : (s.textHoleMake p size).2.Fits := by
  by_cases hn : size ≤ 0
  · unfold Ed.textHoleMake
    rw [if_pos hn]
    exact hf
  · rw [show size = (size.toNat : Int) by omega]
    exact s.textHoleMake_fits hf p size.toNat

theorem popObject (e : UndoObject) (rest : List UndoObject) : (s.popObject e rest).Fits := by
  have happly : (s.undoApply e).Fits := by
    unfold Ed.undoApply
    split
    · exact ⟨(hf.textHoleMake _ _).text_le_end, (hf.textHoleMake _ _).lt_size⟩
    · exact ⟨(hf.textHoleMake _ _).text_le_end, (hf.textHoleMake _ _).lt_size⟩
    · exact s.textHoleDelete_fits_of_le hf (by omega) .no
    · exact s.textHoleDelete_fits_of_le hf (by omega) .no
    · exact hf
  rw [Ed.popObject_buf]
  exact happly

end Buf.Fits

/-- A sequence of primitive changes that leaves the line for `U` alone, makes no keys come up and
keeps the text in its block. -/
structure Worked (s s' : Ed) : Prop where
  edits : Edits s s'
  lineKept : LineKept s s'
  keysKept : KeysKept s s'
  fits : s.Fits → s'.Fits

theorem Glanced.worked {s s' : Ed} (h : Glanced s s') : Worked s s' :=
  ⟨h.toLooked.edits, h.lineKept, h.keysKept, fun hf => by rw [h.buf]; exact hf⟩

namespace Worked

variable {s t u : Ed}

theorem refl (s : Ed) : Worked s s := ⟨.refl s, .refl s, .refl s, id⟩

theorem trans (h₁ : Worked s t) (h₂ : Worked t u) : Worked s u :=
  ⟨h₁.edits.trans h₂.edits, h₁.lineKept.trans h₂.lineKept, h₁.keysKept.trans h₂.keysKept,
    fun hf => h₂.fits (h₁.fits hf)⟩

theorem ite {p : Prop} [Decidable p] (h₁ : Worked s t) (h₂ : Worked s u) :
    Worked s (if p then t else u) := by
  split
  · exact h₁
  · exact h₂

theorem still (hb : t.toBuf = s.toBuf) (hu : t.toUndos = s.toUndos) (hr : t.toRegs = s.toRegs)
    (hc : t.editFileCurLine = s.editFileCurLine) (hk : t.env.keys = s.env.keys)
    (hq : t.ioq = s.ioq) : Worked s t :=
  ⟨.still hb hu, .same hr hc, .same hk hq, fun hf => by rw [hb]; exact hf⟩

theorem push (s : Ed) (src : Int) (len : Nat) (t : UndoType) : Worked s (s.undoPush src len t) := by
  refine ⟨(Edit.push s src len t).edits, .same ?_ ?_, .same ?_ ?_, fun hf => ?_⟩ <;>
    rw [Ed.undoPush_eq]
  exact hf

theorem write (s : Ed) (m : Memory UInt8) : Worked s { s with mem := m } :=
  ⟨(Edit.write s m).edits, .same rfl rfl, .same rfl rfl, fun hf => ⟨hf.text_le_end, hf.lt_size⟩⟩

theorem hole (s : Ed) (p size : Int) : Worked s (s.textHoleMake p size).2 :=
  ⟨(Edit.hole s p size).edits, s.textHoleMake_lineKept p size, s.textHoleMake_keysKept p size,
    fun hf => hf.textHoleMake p size⟩

theorem delete (s : Ed) {p q : Int} (h : p ≤ q + 1) (undo : Undo) :
    Worked s (s.textHoleDelete p q undo).2 :=
  ⟨(Edit.delete s h undo).edits, s.textHoleDelete_lineKept p q undo,
    s.textHoleDelete_keysKept p q undo, fun hf => s.textHoleDelete_fits_of_le hf h undo⟩

theorem pop (s : Ed) {e : UndoObject} {rest : List UndoObject} (h : s.undoStack = e :: rest) :
    Worked s (s.popObject e rest) :=
  ⟨(Edit.pop s h).edits, s.popObject_lineKept e rest, s.popObject_keysKept e rest,
    fun hf => hf.popObject e rest⟩

theorem fresh (hb : t.text = t.end_) (hs : 0 < t.textSize) (hu : t.toUndos = s.toUndos)
    (hr : t.toRegs = s.toRegs) (hc : t.editFileCurLine = s.editFileCurLine)
    (hk : t.env.keys = s.env.keys) (hq : t.ioq = s.ioq) : Worked s t :=
  ⟨(Edit.fresh hb hu).edits, .same hr hc, .same hk hq, fun _ => ⟨by omega, by omega⟩⟩

theorem flush (s : Ed) : Worked s s.flushUndoData :=
  ⟨(Edit.flush s).edits, .same rfl rfl, .same rfl rfl, id⟩

theorem clean (s : Ed) : Worked s { s with modifiedCount := 0 } :=
  ⟨(Edit.clean s).edits, .same rfl rfl, .same rfl rfl, id⟩

end Worked

/-- `Worked`, but that the queue may be loaded where `p` does not hold. -/
structure Served (p : Prop) (s s' : Ed) : Prop where
  edits : Edits s s'
  lineKept : LineKept s s'
  keys : s'.env.keys <:+ s.env.keys
  keysKept : p → KeysKept s s'
  fits : s.Fits → s'.Fits

namespace Served

variable {p : Prop} {s t u : Ed}

theorem worked (h : Served p s t) (hp : p) : Worked s t :=
  ⟨h.edits, h.lineKept, h.keysKept hp, h.fits⟩

theorem imp {q : Prop} (h : Served p s t) (hpq : q → p) : Served q s t :=
  ⟨h.edits, h.lineKept, h.keys, fun hq => h.keysKept (hpq hq), h.fits⟩

theorem before (h₁ : Worked s t) (h₂ : Served p t u) : Served p s u :=
  ⟨h₁.edits.trans h₂.edits, h₁.lineKept.trans h₂.lineKept, h₂.keys.trans h₁.keysKept.keys,
    fun hp => h₁.keysKept.trans (h₂.keysKept hp), fun hf => h₂.fits (h₁.fits hf)⟩

theorem behind (h₁ : Served p s t) (h₂ : Worked t u) : Served p s u :=
  ⟨h₁.edits.trans h₂.edits, h₁.lineKept.trans h₂.lineKept, h₂.keysKept.keys.trans h₁.keys,
    fun hp => (h₁.keysKept hp).trans h₂.keysKept, fun hf => h₂.fits (h₁.fits hf)⟩

end Served

theorem Worked.served {s t : Ed} (h : Worked s t) (p : Prop) : Served p s t :=
  ⟨h.edits, h.lineKept, h.keysKept.keys, fun _ => h.keysKept, h.fits⟩

namespace Ed

variable {s s' : Ed}

/-! ## Registers, modes and the undo stack -/

/-- A yank into the register that is named. -/
theorem textYank_edits (s : Ed) (p q : Int) (t : BufType) :
    Worked s (s.textYank p q s.ydreg t) := by
  refine ⟨.still rfl rfl, ⟨rfl, id, fun h => .inl ?_⟩, .same rfl rfl, id⟩
  exact Function.update_of_ne (Nat.ne_of_gt h) _ _

theorem undoPushInsert_edits (s : Ed) (p : Int) (len : Nat) (undo : Undo) :
    Worked s (s.undoPushInsert p len undo) := by
  cases undo with
  | no => exact Worked.refl s
  | allow => exact (Worked.push s p len .ins)
  | chain => exact (Worked.push s p len .insChain)
  | queued => exact (Worked.push s p len .insQueued)

theorem stringInsert_edits (s : Ed) (p : Int) (str : List UInt8) (undo : Undo) :
    Worked s (s.stringInsert p str undo).2 :=
  (s.undoPushInsert_edits p str.length undo).trans
    ((Worked.hole _ p str.length).trans (Worked.write _ _))

theorem stupidInsert_edits (s : Ed) (p : Int) (c : UInt8) : Worked s (s.stupidInsert p c).2 :=
  (Worked.hole s p 1).trans (Worked.write _ _)

theorem yankDelete_edits (s : Ed) (start stop : Int) (t : BufType) (yf : Bool) (undo : Undo) :
    Worked s (s.yankDelete start stop t yf undo).2 := by
  have hle : ∃ a b, (if start > stop then (stop, start) else (start, stop)) = (a, b) ∧ a ≤ b := by
    by_cases h : start > stop
    · exact ⟨stop, start, by rw [if_pos h], by omega⟩
    · exact ⟨start, stop, by rw [if_neg h], by omega⟩
  obtain ⟨a, b, he, hab⟩ := hle
  unfold yankDelete
  rw [he]
  dsimp only
  split
  · exact Worked.refl s
  · split
    · exact (s.textYank_edits _ _ _).trans (Worked.delete _ (by omega) undo)
    · exact s.textYank_edits _ _ _

theorem yankDeleteDot_edits (s : Ed) (start stop : Int) (t : BufType) (yf : Bool) (undo : Undo) :
    Worked s (s.yankDeleteDot start stop t yf undo) :=
  (s.yankDelete_edits start stop t yf undo).trans (looked_dot _ _).worked

theorem startInsert_edits (s : Ed) : Worked s s.startInsert := by
  have h : Worked s { s with cmdMode := .insert } := Worked.still rfl rfl rfl rfl rfl rfl
  exact h.trans (Glanced.commit _).worked

theorem startReplace_edits (s : Ed) : Worked s s.startReplace := by
  have h : Worked s { s with cmdMode := .replace } := Worked.still rfl rfl rfl rfl rfl rfl
  exact h.trans (Glanced.commit _).worked

theorem undoPopFrom_edits : ∀ (n : Nat) (s : Ed), Worked s (undoPopFrom n s)
  | 0, s => Worked.refl s
  | n + 1, s => by
    refine (Glanced.commit s).worked.trans ?_
    unfold undoPopFrom
    dsimp only
    split
    · exact (statusLine_looked _ _).worked
    · rename_i e rest he
      split
      · exact (Worked.pop _ he).trans (undoPopFrom_edits n _)
      · exact (Worked.pop _ he).trans (undoPopFrom_edits n _)
      · exact (Worked.pop _ he)

/-! ## Typed characters -/

theorem insertLiteral_edits {p q : Int} {undo : Undo}
    (h : s.insertLiteral p undo = some (q, s')) : Worked s s' := by
  have hs := s.stupidInsert_edits p (CString.chr '^')
  unfold insertLiteral at h
  generalize s.stupidInsert p (CString.chr '^') = r at h hs
  obtain ⟨b, s₁⟩ := r
  obtain ⟨⟨c, s₂⟩, h₁, h₂⟩ := Option.bind_eq_some_iff.mp h
  cases h₂
  refine hs.trans ((refresh_looked s₁).worked.trans ((getOneChar_looked h₁).worked.trans ?_))
  exact (Worked.write s₂ _).trans (undoPushInsert_edits _ _ _ _)

theorem stopInsert_edits (s : Ed) (bol p : Int) (undo : Undo) :
    Worked s (s.stopInsert bol p undo).2 := by
  have h₁ : Worked s { s with cmdMode := .command } := Worked.still rfl rfl rfl rfl rfl rfl
  have h₂ := h₁.trans (Glanced.commit _).worked
  have h₃ := (h₂.trans (looked_cmdcnt _ 0).worked).trans (endCmdQ_looked _).worked
  unfold stopInsert
  dsimp only
  generalize Ed.endCmdQ { Ed.undoQueueCommit { s with cmdMode := .command } with cmdcnt := 0 } = t
    at h₃
  split
  · have := t.indentLen_nonneg bol
    exact h₃.trans (Worked.delete t (by omega) undo)
  · exact h₃

theorem outdentLoop_edits (bol prev : Int) :
    ∀ (n : Nat) (s : Ed) (p r : Int), Worked s (outdentLoop bol prev n s p r).2
  | 0, s, _, _ => Worked.refl s
  | n + 1, s, p, r => by
    unfold outdentLoop
    split
    · exact (Worked.delete s (by omega) .queued).trans (outdentLoop_edits bol prev n _ _ _)
    · exact Worked.refl s

/-- `indentcol` is no part of the text. -/
theorem indentcol_edits (s : Ed) (n : Int) : Worked s { s with indentcol := n } :=
  Worked.still rfl rfl rfl rfl rfl rfl

theorem outdent_edits (s : Ed) (bol p : Int) : Worked s (s.outdent bol p).2 := by
  have h := outdentLoop_edits bol (s.prevTabstop (s.getColumn (bol + s.indentLen bol)))
    (bol + s.indentLen bol - bol).toNat s p (bol + s.indentLen bol)
  unfold outdent
  dsimp only
  split <;> exact h.trans (indentcol_edits _ _)

theorem expandLoop_edits (undo : Undo) :
    ∀ (n : Nat) (s : Ed) (p : Int), Worked s (expandLoop undo n s p).2
  | 0, s, _ => Worked.refl s
  | n + 1, s, p =>
    (s.undoPushInsert_edits p 1 undo).trans
      ((stupidInsert_edits _ p 32).trans (expandLoop_edits undo n _ _))

theorem eraseChar_edits (s : Ed) (p : Int) : Worked s (s.eraseChar p).2 := by
  unfold eraseChar
  split
  · exact (Worked.delete s (by omega) .queued)
  · exact Worked.refl s

theorem indentWith_edits (s : Ed) (p ntab nspc : Int) (undo : Undo) :
    Worked s (s.indentWith p ntab nspc undo).2 :=
  (Worked.hole s p (ntab + nspc)).trans
    ((undoPushInsert_edits _ _ _ undo).trans (Worked.write _ _))

theorem autoIndent_edits (s : Ed) (p : Int) (undo : Undo) : Worked s (s.autoIndent p undo).2 := by
  unfold autoIndent
  generalize (if s.indentcol < 0 then p else s.prevLine p) = bol
  dsimp only
  split
  · exact (Worked.write s _)
  · split
    · exact (s.indentcol_edits _).trans (indentWith_edits _ _ _ _ _)
    · exact s.indentcol_edits _

theorem insertPlain_edits {p q : Int} {c : UInt8} {undo : Undo}
    (h : s.insertPlain p c undo = some (q, s')) : Worked s s' := by
  unfold insertPlain at h
  generalize (if c = 13 then NL else c) = c at h
  dsimp only at h
  have hc : Worked s (if c = NL then s.undoQueueCommit else s) :=
    Worked.ite (Glanced.commit s).worked (Worked.refl s)
  generalize (if c = NL then s.undoQueueCommit else s) = s₀ at h hc
  have hi := s₀.stupidInsert_edits p c
  generalize s₀.stupidInsert p c = r at h hi
  obtain ⟨b, s₁⟩ := r
  obtain ⟨s₂, h₁, h₂⟩ := Option.bind_eq_some_iff.mp h
  have hs : Worked s s₂ := by
    refine hc.trans (hi.trans ?_)
    split at h₁
    · exact (showmatching_looked h₁).worked
    · cases h₁
      exact Worked.refl _
  split at h₂
  · have h₃ := s₂.autoIndent_edits (p + 1 + b) undo
    rw [Option.some.inj h₂] at h₃
    exact hs.trans h₃
  · cases h₂
    exact hs.trans (indentcol_edits _ _)

/-- **Every branch of `char_insert` is a sequence of primitive changes.** -/
theorem charInsert_edits {p q : Int} {c : UInt8} {undo : Undo}
    (h : s.charInsert p c undo = some (q, s')) : Worked s s' := by
  unfold charInsert at h
  dsimp only at h
  split at h
  · obtain ⟨⟨q₁, s₁⟩, h₁, e⟩ := Option.map_eq_some_iff.mp h
    cases e
    exact (insertLiteral_edits h₁).trans (indentcol_edits _ _)
  · split at h
    · cases h
      exact (s.stopInsert_edits _ p undo).trans (indentcol_edits _ _)
    · split at h
      · have h₁ := s.outdent_edits (s.beginLine p) p
        rw [Option.some.inj h] at h₁
        exact h₁
      · split at h
        · cases h
          exact (expandLoop_edits undo _ s p).trans (indentcol_edits _ _)
        · split at h
          · cases h
            exact (s.eraseChar_edits p).trans (indentcol_edits _ _)
          · exact insertPlain_edits h

theorem charInsertDot_edits {c : Int} {undo : Undo} (h : s.charInsertDot c undo = some s') :
    Worked s s' := by
  obtain ⟨⟨d, s₁⟩, h₁, e⟩ := Option.bind_eq_some_iff.mp h
  cases e
  exact (charInsert_edits h₁).trans (looked_dot _ _).worked

theorem emptyLine_edits (h : s.emptyLine = some s') : Worked s s' := by
  obtain ⟨s₁, h₁, e⟩ := Option.bind_eq_some_iff.mp h
  cases e
  exact (charInsertDot_edits h₁).trans (Worked.ite (dotPrev_looked _).worked (Worked.refl _))

theorem replaceKey_edits {c : Int} (h : s.replaceKey c = some s') : Worked s s' := by
  unfold replaceKey at h
  split at h
  · have h₁ : Worked s (if c ≠ 27 then s.yankDeleteDot s.dot s.dot .part true .allow else s) :=
      Worked.ite (s.yankDeleteDot_edits _ _ _ _ _) (Worked.refl s)
    exact h₁.trans (charInsertDot_edits h)
  · cases h
    exact Worked.refl s

theorem insertKey_edits {c : Int} (h : s.insertKey c = some s') : Worked s s' := by
  unfold insertKey at h
  split at h
  · cases h
    exact s.startReplace_edits
  · split at h
    · exact charInsertDot_edits h
    · cases h
      exact Worked.refl s

/-! ## Files -/

/-- The files being edited are no part of the text. -/
theorem updateFilename_edits (s : Ed) (fn : Option (List UInt8)) : Worked s (s.updateFilename fn) := by
  cases fn <;> exact Worked.still rfl rfl rfl rfl rfl rfl

theorem initFilename_edits (s : Ed) (fn : List UInt8) : Worked s (s.initFilename fn) := by
  refine Worked.still ?_ ?_ ?_ ?_ ?_ ?_ <;> unfold initFilename <;> split <;> rfl

theorem noFile_looked (s : Ed) (fn : List UInt8) (initial : Bool) :
    Glanced s (s.noFile fn initial).2 := .ite (Glanced.refl s) (statusLineBoldErrno_looked s fn)

theorem readInto_edits (s : Ed) (fn : List UInt8) (p : Int) {size : Int} (hs : 0 ≤ size)
    (initial : Bool) : Worked s (s.readInto fn p size initial).2 := by
  have h₁ := s.ask_looked (·.opened)
  unfold readInto
  generalize s.ask (·.opened) = r at h₁
  obtain ⟨fd, s₁⟩ := r
  refine h₁.worked.trans ?_
  dsimp only
  split
  · exact (noFile_looked _ _ _).worked
  · have h₂ := s₁.ask_looked fun e t => (min (e.count t) size, e.content t)
    have hcnt : (s₁.ask fun e t => (min (e.count t) size, e.content t)).1.1 ≤ size :=
      Int.min_le_right _ _
    generalize s₁.ask (fun e t => (min (e.count t) size, e.content t)) = r at h₂ hcnt
    obtain ⟨⟨cnt, content⟩, s₂⟩ := r
    have hw := (Worked.write s₂ (memcpy s₂.mem p ((List.range cnt.toNat).map content)))
    dsimp only at hcnt ⊢
    refine h₂.worked.trans (hw.trans ?_)
    generalize ({ s₂ with mem := memcpy s₂.mem p ((List.range cnt.toNat).map content) } : Ed) = s₃
    split
    · exact (statusLineBoldErrno_looked s₃ fn).worked.trans (Worked.delete _ (by omega) .no)
    · split
      · exact (Worked.delete s₃ (by omega) .no).trans (statusLineBold_looked _ _).worked
      · exact s₃.undoPushInsert_edits p size.toNat .allow

theorem fileInsert_edits (s : Ed) (fn : Option (List UInt8)) (p : Int) (initial : Bool) :
    Worked s (s.fileInsert fn p initial).2 := by
  unfold fileInsert
  split
  · exact Worked.refl s
  · rename_i fn
    generalize (if p < s.text then s.text else p) = p
    have h₁ := s.ask_looked (·.stat)
    dsimp only
    generalize s.ask (·.stat) = r at h₁
    obtain ⟨st, s₁⟩ := r
    refine h₁.worked.trans ?_
    dsimp only
    split
    · exact (noFile_looked _ _ _).worked
    · rename_i stSize
      have hs : (0 : Int) ≤ if stSize < 0x7fffffff then (stSize : Int) else 0x7fffffff := by
        split <;> omega
      generalize (if stSize < 0x7fffffff then (stSize : Int) else 0x7fffffff) = size at hs ⊢
      exact (Worked.hole s₁ _ _).trans (readInto_edits _ _ _ hs _)

/-- The new block is filled by primitive changes. -/
theorem initTextBuffer_filled {fn : Option (List UInt8)} {rc : Int}
    (h : s.initTextBuffer fn = some (rc, s')) : Worked s.newText s' := by
  unfold initTextBuffer at h
  have h₁ : Worked s.newText (s.newText.updateFilename fn) := updateFilename_edits _ fn
  generalize s.newText.updateFilename fn = s₂ at h h₁
  dsimp only at h
  have h₃ := s₂.fileInsert_edits fn s₂.text true
  generalize s₂.fileInsert fn s₂.text true = r at h h₃
  obtain ⟨rc', s₃⟩ := r
  obtain ⟨s₄, h₄, e⟩ := Option.bind_eq_some_iff.mp h
  have h₅ : Worked s₃ s₄ := by
    rcases ite_eq_iff.mp h₄ with ⟨-, h₄⟩ | ⟨-, h₄⟩
    · obtain ⟨⟨q, t⟩, h₆, e⟩ := Option.map_eq_some_iff.mp h₄
      cases e
      exact charInsert_edits h₆
    · cases h₄
      exact Worked.refl _
  refine h₁.trans (h₃.trans (h₅.trans ?_))
  cases e
  refine (Worked.flush s₄).trans ((Worked.clean _).trans ?_)
  exact Worked.still rfl rfl rfl rfl rfl rfl

theorem initTextBuffer_edits {fn : Option (List UInt8)} {rc : Int}
    (h : s.initTextBuffer fn = some (rc, s')) : Worked s s' := by
  have hnew : Worked s s.newText := .fresh rfl (by decide : (0 : Int) < 10240) rfl rfl rfl rfl rfl
  exact hnew.trans (initTextBuffer_filled h)

/-- The block of a new text is large enough. -/
theorem initTextBuffer_fits {fn : Option (List UInt8)} {rc : Int}
    (h : s.initTextBuffer fn = some (rc, s')) : s'.Fits := by
  refine (initTextBuffer_filled h).fits ⟨Int.le_refl _, ?_⟩
  change (s.newText).text - (s.newText).text < 10240
  omega

/-! ## The colon commands -/

theorem patternAddress_looked (s : Ed) (p : List UInt8) : Glanced s (s.patternAddress p).2 := by
  have h : Glanced s (if (p.drop 1).takeWhile (· != head p) ≠ [] then
      { s with lastSearchPattern := head p :: (p.drop 1).takeWhile (· != head p) } else s) :=
    .ite (.of_fields rfl rfl rfl rfl rfl rfl rfl rfl rfl) (Glanced.refl s)
  unfold patternAddress
  dsimp only
  generalize (if (p.drop 1).takeWhile (· != head p) ≠ [] then
      { s with lastSearchPattern := head p :: (p.drop 1).takeWhile (· != head p) } else s) = t at h
  split
  · exact h.trans (statusLineBold_looked _ _)
  · exact h

theorem addressLoop_looked :
    ∀ (n : Nat) (a : Addr) (p : List UInt8) (s : Ed), Glanced s (addressLoop n a p s).2
  | 0, _, _, s => Glanced.refl s
  | n + 1, a, p, s => by
    unfold addressLoop
    split
    · exact addressLoop_looked n _ _ s
    · split
      · exact addressLoop_looked n _ _ s
      · split
        · exact addressLoop_looked n _ _ s
        · split
          · split
            · exact statusLineBold_looked _ _
            · exact addressLoop_looked n _ _ s
          · split
            · have h := s.patternAddress_looked p
              split
              · rename_i t he
                rw [he] at h
                exact h
              · rename_i addr p' t he
                rw [he] at h
                exact h.trans (addressLoop_looked n _ _ t)
            · split
              · exact addressLoop_looked n _ _ s
              · split
                · exact addressLoop_looked n _ _ s
                · exact Glanced.refl s

theorem getOneAddress_looked (s : Ed) (p : List UInt8) : Glanced s (s.getOneAddress p).2 := by
  unfold getOneAddress
  exact addressLoop_looked _ _ p s

theorem rangeLoop_looked :
    ∀ (n : Nat) (sep : Bool) (g : Range) (p : List UInt8) (s : Ed),
      Glanced s (rangeLoop n sep g p s).2
  | 0, _, _, _, s => Glanced.refl s
  | n + 1, sep, g, p, s => by
    unfold rangeLoop
    split
    · exact rangeLoop_looked n _ _ _ s
    · split
      · exact rangeLoop_looked n _ _ _ s
      · split
        · have h := s.getOneAddress_looked p
          split
          · rename_i t he
            rw [he] at h
            exact h
          · rename_i addr valid p' t he
            rw [he] at h
            split
            · exact h
            · exact h.trans (rangeLoop_looked n _ _ _ t)
        · split
          · exact (Glanced.ite (looked_dot _ _) (Glanced.refl s)).trans (rangeLoop_looked n _ _ _ _)
          · exact Glanced.refl s

theorem getAddress_looked (s : Ed) (p : List UInt8) : Glanced s (s.getAddress p).2 := by
  unfold getAddress
  exact (rangeLoop_looked _ _ _ p s).trans (looked_dot _ _)

/-- Options are no part of the text. -/
theorem setops_edits (s : Ed) (args : List UInt8) (flgNo : Nat) : Worked s (s.setops args flgNo) := by
  unfold setops
  dsimp only
  split
  · exact (statusLineBold_looked _ _).worked
  · split
    · exact (statusLineBold_looked _ _).worked
    · exact Worked.ite (statusLineBold_looked _ _).worked (Worked.still rfl rfl rfl rfl rfl rfl)
  · rename_i o _ _
    refine Worked.ite (statusLineBold_looked _ _).worked ?_
    cases o <;> exact Worked.still rfl rfl rfl rfl rfl rfl

theorem setLoop_edits : ∀ (n : Nat) (argp : List UInt8) (s : Ed), Worked s (setLoop n argp s)
  | 0, _, s => Worked.refl s
  | n + 1, argp, s => by
    unfold setLoop
    split
    · exact Worked.refl s
    · exact (s.setops_edits _ _).trans (setLoop_edits n _ _)

theorem colonSet_edits (s : Ed) (args : List UInt8) : Worked s (s.colonSet args) := by
  unfold colonSet
  split
  · exact (statusLineBold_looked _ _).worked
  · exact setLoop_edits _ _ s

theorem substLoop_edits (pat rep : List UInt8) (global : Bool) (i : Int) :
    ∀ (n : Nat) (q : Int) (l : Subs) (s : Ed), Worked s (substLoop pat rep global i n q l s).2
  | 0, _, _, s => Worked.refl s
  | n + 1, q, l, s => by
    unfold substLoop
    split
    · exact Worked.refl s
    · rename_i found _
      dsimp only
      have h₁ := (Worked.delete s (p := found) (q := found + pat.length - 1) (by omega)
        (if l.subs = 0 then Undo.allow else Undo.chain))
      generalize s.textHoleDelete found (found + pat.length - 1)
        (if l.subs = 0 then Undo.allow else Undo.chain) = r at h₁
      obtain ⟨b, s₁⟩ := r
      have h₂ : Worked s₁
          (if rep = [] then ((0 : Int), s₁) else s₁.stringInsert found rep .chain).2 := by
        split
        · exact Worked.refl s₁
        · exact s₁.stringInsert_edits found rep .chain
      dsimp only
      generalize (if rep = [] then ((0 : Int), s₁) else s₁.stringInsert found rep .chain) = r at h₂
      obtain ⟨b', s₂⟩ := r
      have h₃ := (h₁.trans h₂).trans (looked_dot s₂ (l.ls + b')).worked
      dsimp only
      split
      · exact h₃.trans (substLoop_edits pat rep global i n _ _ _)
      · exact h₃

theorem substLines_edits (pat rep : List UInt8) (global : Bool) :
    ∀ (n : Nat) (i q : Int) (l : Subs) (s : Ed), Worked s (substLines pat rep global n i q l s).2
  | 0, _, _, _, s => Worked.refl s
  | n + 1, i, q, l, s => by
    unfold substLines
    have h := substLoop_edits pat rep global i ((s.end_ - q).toNat + 1) q { l with ls := q } s
    generalize substLoop pat rep global i ((s.end_ - q).toNat + 1) q { l with ls := q } s = r at h
    obtain ⟨l₁, s₁⟩ := r
    exact h.trans (substLines_edits pat rep global n _ _ _ _)

theorem colonSubst_edits (s : Ed) (buf : List UInt8) (t : Target) :
    Worked s (s.colonSubst buf t).2 := by
  unfold colonSubst
  split
  · exact (statusLine_looked _ _).worked
  · rename_i pat rep global _
    split
    · exact (statusLineBold_looked _ _).worked
    · have h₁ : Worked s (if pat ≠ [] then { s with lastSearchPattern := CString.chr '/' :: pat }
          else s) := Worked.ite (Worked.still rfl rfl rfl rfl rfl rfl) (Worked.refl s)
      generalize (if pat ≠ [] then { s with lastSearchPattern := CString.chr '/' :: pat } else s) = s₁
        at h₁
      refine h₁.trans ?_
      dsimp only
      generalize (if (!t.gotAddress) = true then _ else _) = r
      obtain ⟨q, b, e⟩ := r
      have h₂ := substLines_edits (s₁.lastSearchPattern.drop 1) rep global (e - b + 1).toNat b q
        ⟨0, 0, 0, q⟩ s₁
      dsimp only
      generalize substLines (s₁.lastSearchPattern.drop 1) rep global (e - b + 1).toNat b q
        ⟨0, 0, 0, q⟩ s₁ = r at h₂
      obtain ⟨l, s₂⟩ := r
      refine h₂.trans ?_
      dsimp only
      split
      · exact (statusLineBold_looked _ _).worked
      · split
        · exact ((dotSkipOverWs_looked s₂).trans (statusLine_looked _ _)).worked
        · exact (dotSkipOverWs_looked s₂).worked

theorem colonDelete_edits (s : Ed) (t : Target) : Worked s (s.colonDelete t) :=
  (s.yankDeleteDot_edits _ _ _ _ _).trans (dotSkipOverWs_looked _).worked

theorem noWrite_looked (s : Ed) (cmd : List UInt8) : Glanced s (s.noWrite cmd) :=
  statusLineBold_looked _ _

theorem fileStatus_looked (s : Ed) (fn : List UInt8) (note : String) (li chars : Int) :
    Glanced s (s.fileStatus fn note li chars) := statusLine_looked _ _

theorem colonEdit_edits {cmd args : List UInt8} {useforce : Bool}
    (h : s.colonEdit cmd args useforce = some s') : Worked s s' := by
  unfold colonEdit at h
  split at h
  · cases h
    exact (noWrite_looked _ _).worked
  · split at h
    · cases h
      exact (statusLineBold_looked _ _).worked
    · obtain ⟨⟨size, s₁⟩, h₁, h₂⟩ := Option.bind_eq_some_iff.mp h
      cases h₂
      refine (initTextBuffer_edits h₁).trans (Worked.trans ?_ (fileStatus_looked _ _ _ _ _).worked)
      refine ⟨.still rfl rfl, ⟨rfl, id, fun h => .inr ?_⟩, .same rfl rfl, id⟩
      exact (Function.update_of_ne (Nat.ne_of_gt h) _ _).trans (Function.update_self ..)

theorem colonFile_edits (s : Ed) (args : List UInt8) (t : Target) : Worked s (s.colonFile args t) :=
  Worked.ite (statusLineBold_looked _ _).worked
    (Worked.ite (s.updateFilename_edits (some args)) (Worked.refl s))

theorem colonQuit_edits (s : Ed) (cmd : List UInt8) (useforce : Bool) :
    Worked s (s.colonQuit cmd useforce) := by
  have hb (m : List UInt8) : Worked s (s.statusLineBold m) := (statusLineBold_looked s m).worked
  unfold colonQuit
  dsimp only
  refine Worked.ite (Worked.still rfl rfl rfl rfl rfl rfl) ?_
  refine Worked.ite (hb _) (Worked.ite (hb _) (Worked.ite (hb _) (Worked.ite (hb _) ?_)))
  exact Worked.ite (Worked.still rfl rfl rfl rfl rfl rfl) (Worked.still rfl rfl rfl rfl rfl rfl)

theorem colonRead_edits (s : Ed) (args : List UInt8) (t : Target) : Worked s (s.colonRead args t) := by
  unfold colonRead
  split
  · exact (statusLineBold_looked _ _).worked
  · rename_i fn _
    have h₁ : Worked s (if args ≠ [] then s.initFilename fn else s) :=
      Worked.ite (s.initFilename_edits fn) (Worked.refl s)
    generalize (if args ≠ [] then s.initFilename fn else s) = s₁ at h₁
    refine h₁.trans ?_
    dsimp only
    generalize (if t.range.e = 0 then s₁.text else _) = q
    have h₂ := s₁.fileInsert_edits (some fn) q false
    generalize s₁.fileInsert (some fn) q false = r at h₂
    obtain ⟨size, s₂⟩ := r
    refine h₂.trans ?_
    dsimp only
    split
    · exact Worked.refl s₂
    · exact ((fileStatus_looked _ _ _ _ _).trans (looked_dot _ _)).worked

theorem colonRewind_edits (s : Ed) (cmd : List UInt8) (useforce : Bool) :
    Worked s (s.colonRewind cmd useforce) :=
  Worked.ite (noWrite_looked _ _).worked (Worked.still rfl rfl rfl rfl rfl rfl)

theorem fileWrite_looked (s : Ed) (fn : Option (List UInt8)) (first last : Int) :
    Glanced s (s.fileWrite fn first last).2 := by
  unfold fileWrite
  split
  · exact statusLineBold_looked _ _
  · have h₁ := s.ask_looked (·.opened)
    generalize s.ask (·.opened) = r at h₁
    obtain ⟨fd, s₁⟩ := r
    dsimp only
    split
    · exact h₁
    · exact h₁.trans (s₁.ask_looked (·.count))

theorem leaveWrite_edits (s : Ed) (cmd : List UInt8) (useforce : Bool) :
    Worked s (s.leaveWrite cmd useforce) := by
  unfold leaveWrite
  dsimp only
  refine Worked.ite (Worked.still rfl rfl rfl rfl rfl rfl) (Worked.ite ?_ (Worked.refl s))
  refine Worked.ite ?_ (Worked.still rfl rfl rfl rfl rfl rfl)
  refine Worked.ite (Worked.still rfl rfl rfl rfl rfl rfl) ?_
  exact (statusLineBold_looked _ _).worked

theorem writeRange_edits (s : Ed) (cmd : List UInt8) (fn : Option (List UInt8)) (q r : Int)
    (useforce : Bool) : Worked s (s.writeRange cmd fn q r useforce) := by
  unfold writeRange
  dsimp only
  generalize (if s.modifiedCount ≠ 0 ∨ head cmd ≠ CString.chr 'x' then r - q + 1 else 0) = size
  have h₁ : Worked s (if s.modifiedCount ≠ 0 ∨ head cmd ≠ CString.chr 'x' then s.fileWrite fn q r
      else (0, s)).2 := by
    split
    · exact (s.fileWrite_looked fn q r).worked
    · exact Worked.refl s
  generalize (if s.modifiedCount ≠ 0 ∨ head cmd ≠ CString.chr 'x' then s.fileWrite fn q r
      else (0, s)) = w at h₁
  obtain ⟨l, s₁⟩ := w
  refine h₁.trans ?_
  dsimp only
  split
  · exact Worked.ite (statusLineBoldErrno_looked _ _).worked (Worked.refl s₁)
  · generalize fn.getD (CString.str "(null)") = name
    refine (fileStatus_looked s₁ name "" (s₁.countLines q (q + l - 1)) l).worked.trans ?_
    split
    · exact (Worked.ite (Worked.clean _) (Worked.refl _)).trans (leaveWrite_edits _ _ _)
    · exact Worked.refl _

theorem colonWrite_edits (s : Ed) (cmd args : List UInt8) (t : Target) (useforce : Bool) :
    Worked s (s.colonWrite cmd args t useforce) := by
  unfold colonWrite
  split
  · have h₁ : Worked s (if !useforce ∧ s.currentFilename ≠ some args then s.ask (·.stat)
        else (none, s)).2 := by
      split
      · exact (s.ask_looked _).worked
      · exact Worked.refl s
    generalize (if !useforce ∧ s.currentFilename ≠ some args then s.ask (·.stat)
        else (none, s)) = r at h₁
    obtain ⟨st, s₁⟩ := r
    refine h₁.trans ?_
    dsimp only
    split
    · exact (statusLineBold_looked _ _).worked
    · exact (s₁.initFilename_edits args).trans (writeRange_edits _ _ _ _ _ _)
  · exact s.writeRange_edits _ _ _ _ _

theorem colonYank_edits (s : Ed) (t : Target) : Worked s (s.colonYank t) :=
  (s.textYank_edits _ _ _).trans (statusLine_looked _ _).worked

theorem colonGoto_looked (s : Ed) (e : Int) : Glanced s (s.colonGoto e) :=
  .ite ((looked_dot _ _).trans (dotSkipOverWs_looked _)) (Glanced.refl s)

/-- What holds after every command holds after `colonCommand`. -/
theorem colonCommand_rule {P : Ed → Prop} {buf : List UInt8} {t : Target} {x : Bool × Ed}
    (h : s.colonCommand buf t = some x) (goto : P (s.colonGoto t.range.e))
    (line : ∀ n : Int, P (s.statusLine (CString.dec n))) (delete : P (s.colonDelete t))
    (edit : ∀ cmd args force u, s.colonEdit cmd args force = some u → P u)
    (file : ∀ args, P (s.colonFile args t)) (list : ∀ u, s.hitReturn = some u → P u)
    (quit : ∀ cmd force, P (s.colonQuit cmd force)) (read : ∀ args, P (s.colonRead args t))
    (rewind : ∀ cmd force, P (s.colonRewind cmd force)) (options : ∀ args, P (s.colonSet args))
    (subst : P (s.colonSubst buf t).2) (version : P (s.statusLine (CString.str "vi 0.9.1-vim")))
    (write : ∀ cmd args force, P (s.colonWrite cmd args t force)) (yank : P (s.colonYank t))
    (other : ∀ cmd, P (s.notImplemented cmd)) : P x.2 := by
  unfold colonCommand at h
  generalize splitCmd buf = r at h
  obtain ⟨cmd, args, useforce⟩ := r
  rcases ite_eq_iff.mp h with ⟨-, h⟩ | ⟨-, h⟩
  · cases h
    exact goto
  rcases ite_eq_iff.mp h with ⟨-, h⟩ | ⟨-, h⟩
  · cases h
    exact line _
  rcases ite_eq_iff.mp h with ⟨-, h⟩ | ⟨-, h⟩
  · cases h
    exact delete
  rcases ite_eq_iff.mp h with ⟨-, h⟩ | ⟨-, h⟩
  · obtain ⟨s₁, h₁, e⟩ := Option.bind_eq_some_iff.mp h
    cases e
    exact edit _ _ _ _ h₁
  rcases ite_eq_iff.mp h with ⟨-, h⟩ | ⟨-, h⟩
  · cases h
    exact file args
  rcases ite_eq_iff.mp h with ⟨-, h⟩ | ⟨-, h⟩
  · obtain ⟨s₁, h₁, e⟩ := Option.bind_eq_some_iff.mp h
    cases e
    exact list _ h₁
  rcases ite_eq_iff.mp h with ⟨-, h⟩ | ⟨-, h⟩
  · cases h
    exact quit cmd useforce
  rcases ite_eq_iff.mp h with ⟨-, h⟩ | ⟨-, h⟩
  · cases h
    exact read args
  rcases ite_eq_iff.mp h with ⟨-, h⟩ | ⟨-, h⟩
  · cases h
    exact rewind cmd useforce
  rcases ite_eq_iff.mp h with ⟨-, h⟩ | ⟨-, h⟩
  · cases h
    exact options args
  rcases ite_eq_iff.mp h with ⟨-, h⟩ | ⟨-, h⟩
  · rw [Option.some.inj h] at subst
    exact subst
  rcases ite_eq_iff.mp h with ⟨-, h⟩ | ⟨-, h⟩
  · cases h
    exact version
  rcases ite_eq_iff.mp h with ⟨-, h⟩ | ⟨-, h⟩
  · cases h
    exact write cmd args useforce
  rcases ite_eq_iff.mp h with ⟨-, h⟩ | ⟨-, h⟩
  · cases h
    exact yank
  · cases h
    exact other cmd

/-- **Every colon command is a sequence of primitive changes.** -/
theorem colonCommand_edits {buf : List UInt8} {t : Target} {x : Bool × Ed}
    (h : s.colonCommand buf t = some x) : Worked s x.2 :=
  colonCommand_rule h (s.colonGoto_looked _).worked (fun _ => (statusLine_looked _ _).worked)
    (s.colonDelete_edits t) (fun _ _ _ _ h => colonEdit_edits h) (fun args => s.colonFile_edits args t)
    (fun _ h => (hitReturn_looked h).worked) s.colonQuit_edits (fun args => s.colonRead_edits args t)
    s.colonRewind_edits s.colonSet_edits (s.colonSubst_edits buf t) (statusLine_looked _ _).worked
    (fun cmd args force => s.colonWrite_edits cmd args t force) (s.colonYank_edits t)
    fun _ => (notImplemented_looked _ _).worked

theorem colon_edits {buf : List UInt8} (h : s.colon buf = some s') : Worked s s' := by
  unfold colon at h
  generalize (buf.dropWhile (· == CString.chr ':')).dropWhile isblank = buf at h
  dsimp only at h
  split at h
  · exact (boundHere_looked h).worked
  · have h₁ := s.getAddress_looked buf
    generalize s.getAddress buf = r at h h₁
    obtain ⟨g, s₁⟩ := r
    refine h₁.worked.trans ?_
    cases g with
    | none => exact (boundHere_looked h).worked
    | some g =>
      obtain ⟨g, buf⟩ := g
      dsimp only at h
      split at h
      · exact ((statusLineBold_looked _ _).trans (boundHere_looked h)).worked
      · obtain ⟨⟨ret, s₂⟩, h₂, h₃⟩ := Option.bind_eq_some_iff.mp h
        refine (colonCommand_edits h₂).trans ?_
        dsimp only at h₃
        split at h₃
        · exact (boundHere_looked h₃).worked
        · cases h₃
          exact Worked.refl _

end Ed

end Evim
