import Ewokos.Evim.Substitution

/-!
# evim: a newline typed into the text

`char_insert` of a newline, up to the point where `autoindent` looks at it.

* `textHoleMake_frame`, `stringInsert_frame` — besides the text, an insertion only moves the
  pointers that are rebased with the block.
* `charInsert_newline` — the newline is inserted like a string of one char.
-/

set_option autoImplicit false

namespace Evim

open Cells
open CString hiding strchr

theorem Buf.getElem_bytes {s : Buf} {k : Nat} (h : k < s.bytes.length) :
    s.bytes[k] = s.mem (s.text + k) := by
  unfold Buf.bytes
  exact getElem_slice _ _ _ _ _

namespace Ed

/-- Opening a hole changes the text and moves the pointers with the block. -/
theorem textHoleMake_frame (s : Ed) (p n : Int) : (s.textHoleMake p n).2 =
    { s with
      toBuf := (s.textHoleMake p n).2.toBuf
      screenbegin := s.screenbegin + (s.textHoleMake p n).1
      dot := s.dot + (s.textHoleMake p n).1
      mark := fun i => (s.mark i).map (· + (s.textHoleMake p n).1)
      viVisualAnchor := s.viVisualAnchor.map (· + (s.textHoleMake p n).1)
      env := (s.textHoleMake p n).2.env } := by
  unfold textHoleMake
  split
  · simp
  · dsimp only
    split
    · rfl
    · simp

/-- So does inserting a string; it may be recorded. -/
theorem stringInsert_frame (s : Ed) (p : Int) (str : List UInt8) (undo : Undo) :
    (s.stringInsert p str undo).2 =
      { s with
        toBuf := (s.stringInsert p str undo).2.toBuf
        toUndos := (s.stringInsert p str undo).2.toUndos
        screenbegin := s.screenbegin + (s.stringInsert p str undo).1
        dot := s.dot + (s.stringInsert p str undo).1
        mark := fun i => (s.mark i).map (· + (s.stringInsert p str undo).1)
        viVisualAnchor := s.viVisualAnchor.map (· + (s.stringInsert p str undo).1)
        env := (s.stringInsert p str undo).2.env } := by
  unfold stringInsert
  rw [undoPushInsert_eq]
  dsimp only
  rw [textHoleMake_frame]

/-- The indent behind a newline is inserted like a string, and remembered. -/
theorem autoIndent_frame (s : Ed) (p : Int) (undo : Undo) : (s.autoIndent p undo).2 =
    { s with
      toBuf := (s.autoIndent p undo).2.toBuf
      toUndos := (s.autoIndent p undo).2.toUndos
      screenbegin := (s.autoIndent p undo).2.screenbegin
      dot := (s.autoIndent p undo).2.dot
      mark := (s.autoIndent p undo).2.mark
      viVisualAnchor := (s.autoIndent p undo).2.viVisualAnchor
      indentcol := (s.autoIndent p undo).2.indentcol
      env := (s.autoIndent p undo).2.env } := by
  unfold autoIndent
  generalize (if s.indentcol < 0 then p else s.prevLine p) = bol
  dsimp only
  split
  · rfl
  split
  · unfold indentWith
    dsimp only
    rw [undoPushInsert_eq, textHoleMake_frame]
  · rfl

/-- What `char_insert` of a newline does. -/
theorem charInsert_newline (s : Ed) (p : Int) (undo : Undo) {r : Int × Ed}
    (hr : s.undoQueueCommit.stringInsert p [NL] .no = r) :
    s.charInsert p 10 undo =
      some (if s.autoindent then r.2.autoIndent (p + 1 + r.1) undo
        else (p + 1 + r.1, { r.2 with indentcol := 0 })) := by
  have hai : r.2.autoindent = s.autoindent := by
    rw [← hr, stringInsert_frame, undoQueueCommit_eq]
  have hpair : strchr (str ")]" ++ [125]) NL.toNat = false := by decide
  have hplain : s.charInsert p 10 undo = s.insertPlain p NL undo := rfl
  rw [hplain]
  unfold insertPlain
  simp only [show NL ≠ 13 by decide, if_false, if_true, stupidInsert_eq, hr, hpair,
    Bool.false_eq_true, and_false, Option.bind_eq_bind, Option.bind_some, and_true, hai]
  split <;> rfl

/-- Without `autoindent` nothing but the newline is new. -/
theorem charInsert_newline_bytes {s t : Ed} {p q : Int} (hf : s.Fits) (h₀ : s.text ≤ p)
    (h₁ : p ≤ s.end_) (hai : s.autoindent = false) {undo : Undo}
    (h : s.charInsert p 10 undo = some (q, t)) :
    t.bytes = s.bytes.take (p - s.text).toNat ++ [NL] ++ s.bytes.drop (p - s.text).toNat := by
  have hcommit := s.undoQueueCommit_eq
  have hbytes := stringInsert_bytes s.undoQueueCommit (p := p) (by rw [hcommit]; exact hf)
    (by rw [hcommit]; exact h₀) (by rw [hcommit]; exact h₁) [NL] .no
  have hins := charInsert_newline s p undo rfl
  rw [hai] at hins
  obtain ⟨rfl, rfl⟩ := Prod.mk.inj (Option.some.inj (hins.symm.trans h))
  refine hbytes.trans ?_
  rw [hcommit]

end Ed

end Evim
