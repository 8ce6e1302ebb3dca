import Mathlib

/-!
# Undo logs over sequences

A log of recorded edits of a sequence, newest entry first.

* `Change` — an insertion (its span) or a deletion (its position and the deleted values);
  `Change.revert` takes the change back.
* `Entry` — a change with a `chained` mark; a group is a run of chained entries down to and
  including the next entry that is not chained.
* `popGroup` reverts the newest group, `unwind` the whole log.

Principal results: `revert_ins` and `revert_del` (a recorded edit is taken back exactly).
-/

set_option autoImplicit false

namespace UndoLog

variable {α : Type}

/-- A recorded change of a sequence. -/
inductive Change (α : Type) where
  | ins (start len : Nat)
  | del (start : Nat) (text : List α)
  deriving DecidableEq, Repr

/-- Take a change back. -/
def Change.revert : Change α → List α → List α
  | .ins start len, l => l.take start ++ l.drop (start + len)
  | .del start text, l => l.take start ++ text ++ l.drop start

/-- A change and whether undoing it goes on to the entry below. -/
structure Entry (α : Type) where
  change : Change α
  chained : Bool
  deriving DecidableEq, Repr

/-- An inserted block is removed again. -/
theorem revert_ins (l s : List α) {p : Nat} (hp : p ≤ l.length) :
    (Change.ins p s.length).revert (l.take p ++ s ++ l.drop p) = l := by
  have ht : (l.take p).length = p := by simp [hp]
  have hd : (l.take p ++ s ++ l.drop p).drop (p + s.length) = l.drop p :=
    List.drop_left' (by simp [hp])
  simp only [Change.revert]
  rw [hd, List.append_assoc, List.take_left' ht, List.take_append_drop]

/-- A deleted block is put back. -/
theorem revert_del (l : List α) {p n : Nat} (h : p + n ≤ l.length) :
    (Change.del p ((l.drop p).take n)).revert (l.take p ++ l.drop (p + n)) = l := by
  have ht : (l.take p).length = p := by simp; omega
  simp only [Change.revert]
  rw [List.take_left' ht, List.drop_left' ht, List.append_assoc, ← List.drop_drop,
    List.take_append_drop, List.take_append_drop]

/-! ## Groups

The log is a list of objects of any type `ε`, newest first; `entry` reads an object as an
entry. -/

section Groups

variable {ε : Type} (entry : ε → Entry α)

/-- Revert the newest group of the log. -/
def popGroup : List ε → List α → List α × List ε
  | [], l => (l, [])
  | e :: log, l =>
    if (entry e).chained then popGroup log ((entry e).change.revert l)
    else ((entry e).change.revert l, log)

/-- Revert the whole log. -/
def unwind : List ε → List α → List α
  | [], l => l
  | e :: log, l => unwind log ((entry e).change.revert l)

@[simp] theorem unwind_nil (l : List α) : unwind entry [] l = l := rfl

/-- A group of entries: at least one, the oldest is not chained and all later ones are. -/
def IsGroup : List ε → Prop
  | [] => False
  | [e] => (entry e).chained = false
  | e :: log => (entry e).chained = true ∧ IsGroup log

end Groups

end UndoLog
