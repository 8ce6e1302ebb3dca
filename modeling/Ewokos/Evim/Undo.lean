import Ewokos.Evim.Screen

/-!
# evim: block insert, block delete and the undo stack

`text_hole_make` … `undo_pop` of `bin/evim/vim_text.c`.

* `textHoleMake` may move the block: pointers the source adjusts are adjusted here, the others
  (`undo_queue_spos`, the caller's locals) keep their old address.
* `textHoleDelete` pushes its undo object before it looks at the span, as the source does.
* A queued push only fills `undo_queue`; `undoQueueCommit` turns the queue into an object.
-/

set_option autoImplicit false

namespace Evim.Ed

open Cells
open CString hiding strchr

/-! ## Opening a hole -/

/-- The growing branch of `text_hole_make`: `realloc`, and every pointer the source rebases.
Returns `bias`. -/
def growText (s : Ed) : Int × Ed :=
  let bias := s.env.moves s.env.tick
  let newText := s.text + bias
  (bias, { s with
    -- realloc copies the old block, the rest of memory is new
    mem := fun i =>
      if newText ≤ i ∧ i < newText + s.textSize then s.mem (i - bias)
      else s.env.junk s.env.tick i
    textSize := s.textSize + (s.end_ - (s.text + s.textSize)) + 10240
    screenbegin := s.screenbegin + bias
    dot := s.dot + bias
    end_ := s.end_ + bias
    mark := fun i => (s.mark i).map (· + bias)
    viVisualAnchor := s.viVisualAnchor.map (· + bias)
    text := newText
    env := { s.env with tick := s.env.tick + 1 } })

/-- `text_hole_make`: open a hole of `size` blanks at `p`.  Returns `bias`. -/
def textHoleMake (s : Ed) (p size : Int) : Int × Ed :=
  if size ≤ 0 then (0, s)
  else
    let s := { s with end_ := s.end_ + size }
    let (bias, s) := if s.end_ ≥ s.text + s.textSize then s.growText else (0, s)
    let p := p + bias
    let mem := memmove s.mem (p + size) p (s.end_ - size - p)
    (bias, { s with mem := memset mem p 32 size })

/-! ## Recording -/

/-- The second half of `undo_push`: allocate an object and push it.  `saved` is what the source
finds at `src`; only a deletion keeps it. -/
def pushObject (s : Ed) (start : Int) (saved : List UInt8) (length : Nat) (uType : UndoType) : Ed :=
  -- if this deletion empties text[], strip the newline
  let length := if (uType = .del ∨ uType = .delChain) ∧ s.text + length = s.end_ then length - 1
    else length
  let saved := if uType = .del ∨ uType = .delChain then saved.take length else []
  { s with
    undoStack := ⟨start, length, uType, saved⟩ :: s.undoStack
    modifiedCount := s.modifiedCount + 1 }

/-- `undo_queue_commit`. -/
def undoQueueCommit (s : Ed) : Ed :=
  if s.undoQ > 0 then
    let uType := match s.undoQueueState with
      | .ins => UndoType.ins
      | .del => UndoType.del
      | .empty => UndoType.empty
    -- deleted character undo events grow from the end
    let saved := (List.range s.undoQ).map fun i => s.undoQueue (VI_UNDO_QUEUE_MAX - s.undoQ + i)
    let s := s.pushObject (s.undoQueueSpos - s.text) saved s.undoQ uType
    { s with undoQueueState := .empty, undoQ := 0 }
  else s

/-- Queue one deleted character (`case UNDO_DEL` of the queue switch). -/
def queueDeleted (s : Ed) (src : Int) : Ed :=
  let s := { s with undoQueueState := .del, undoQueueSpos := src, undoQ := s.undoQ + 1 }
  let s := { s with
    undoQueue := Function.update s.undoQueue (VI_UNDO_QUEUE_MAX - s.undoQ) (s.mem src) }
  if s.undoQ = VI_UNDO_QUEUE_MAX then s.undoQueueCommit else s

/-- The counting loop of a queued insertion.  A full queue is committed on the way. -/
def queueCount : Nat → Ed → Ed
  | 0, s => s
  | n + 1, s =>
    let s := { s with undoQ := s.undoQ + 1 }
    queueCount n (if s.undoQ = VI_UNDO_QUEUE_MAX then s.undoQueueCommit else s)

/-- Queue an insertion (`case UNDO_INS` of the queue switch). -/
def queueInserted (s : Ed) (src : Int) (length : Nat) : Ed :=
  let s := if s.undoQueueState = .empty then
      { s with undoQueueState := .ins, undoQueueSpos := src }
    else s
  queueCount length s

/-- `undo_push` for a source position in the text. -/
def undoPush (s : Ed) (src : Int) (length : Nat) (uType : UndoType) : Ed :=
  match uType with
  | .empty => s
  | .delQueued =>
    if length ≠ 1 then s
    else match s.undoQueueState with
      | .empty | .del => s.queueDeleted src
      | .ins => s.undoQueueCommit.queueDeleted src
  | .insQueued =>
    if length < 1 then s
    else match s.undoQueueState with
      | .empty | .ins => s.queueInserted src length
      | .del => s.undoQueueCommit.queueInserted src length
  | uType => s.pushObject (src - s.text) (slice s.mem src length) length uType

/-- `undo_push_insert`. -/
def undoPushInsert (s : Ed) (p : Int) (len : Nat) (undo : Undo) : Ed :=
  match undo with
  | .no => s
  | .allow => s.undoPush p len .ins
  | .chain => s.undoPush p len .insChain
  | .queued => s.undoPush p len .insQueued

/-- `string_insert`: insert the string at `p`.  Returns `bias`. -/
def stringInsert (s : Ed) (p : Int) (str : List UInt8) (undo : Undo) : Int × Ed :=
  let s := s.undoPushInsert p str.length undo
  let (bias, s) := s.textHoleMake p str.length
  (bias, { s with mem := memcpy s.mem (p + bias) str })

/-- The push of `text_hole_delete`. -/
def undoPushDelete (s : Ed) (p : Int) (len : Nat) (undo : Undo) : Ed :=
  match undo with
  | .no => s
  | .allow => s.undoPush p len .del
  | .chain => s.undoPush p len .delChain
  | .queued => s.undoPush p len .delQueued

/-! ## Closing a hole -/

/-- `text_hole_delete`: delete `p` through `q`.  Returns where the text behind now starts. -/
def textHoleDelete (s : Ed) (p q : Int) (undo : Undo) : Int × Ed :=
  let (src, dest) := if q < p then (p + 1, q) else (q + 1, p)
  let holeSize := q - p + 1
  let cnt := s.end_ - src
  let s := s.undoPushDelete p holeSize.toNat undo
  let s := { s with modifiedCount := s.modifiedCount - 1 }
  if src < s.text ∨ src > s.end_ then (dest, s)
  else if dest < s.text ∨ dest ≥ s.end_ then (dest, s)
  else
    let s := { s with modifiedCount := s.modifiedCount + 1 }
    let s := if src ≥ s.end_ then s else { s with mem := memmove s.mem dest src cnt }
    let s := { s with end_ := s.end_ - holeSize }
    let dest := if dest ≥ s.end_ then s.end_ - 1 else dest
    if s.end_ ≤ s.text then (s.text, { s with end_ := s.text }) else (dest, s)

/-! ## Undo -/

/-- The message of `undo_pop`. -/
def undoStatus (s : Ed) (what : String) (e : UndoObject) : Ed :=
  s.statusLine (str "Undo [" ++ dec s.modifiedCount ++ str "] " ++ str what ++ str " " ++
    dec e.length ++ str " chars at position " ++ dec e.start)

/-- The text change of one `undo_pop`.  The restored bytes go to `u_start` as computed before the
hole was made. -/
def undoApply (s : Ed) (e : UndoObject) : Ed :=
  match e.uType with
  | .del | .delChain =>
    let uStart := s.text + e.start
    let (_, s) := s.textHoleMake uStart e.length
    { s with mem := memcpy s.mem uStart e.undoText }.undoStatus "restored" e
  | .ins | .insChain =>
    let uStart := e.start + s.text
    let (_, s) := s.textHoleDelete uStart (uStart - 1 + e.length) .no
    s.undoStatus "deleted" e
  | _ => s

/-- One level of `undo_pop`: revert the newest object, put the cursor there when its group ends,
and drop it. -/
def popObject (s : Ed) (e : UndoObject) (rest : List UndoObject) : Ed :=
  let s := s.undoApply e
  let s := match e.uType with
    | .del | .ins => { s with dot := s.text + e.start }.refresh
    | _ => s
  { s with undoStack := rest, modifiedCount := s.modifiedCount - 1 }

/-- `undo_pop`: commit, take the newest object back, and follow a chain. -/
def undoPopFrom : Nat → Ed → Ed
  | 0, s => s
  | fuel + 1, s =>
    let s := s.undoQueueCommit
    match s.undoStack with
    | [] => s.statusLine (str "Already at oldest change")
    | e :: rest =>
      match e.uType with
      | .delChain | .insChain => undoPopFrom fuel (s.popObject e rest)
      | _ => s.popObject e rest

/-- `undo_pop`.  Every level pops one object, the commit may add one. -/
def undoPop (s : Ed) : Ed := undoPopFrom (s.undoStack.length + 2) s

end Evim.Ed
