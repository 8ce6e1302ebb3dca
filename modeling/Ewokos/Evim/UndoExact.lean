import Ewokos.Lib.UndoLog
import Ewokos.Evim.EditSpec

/-!
# evim: the undo stack inverts the recorded primitives

* `UndoObject.entry` — an undo object as an entry of an abstract undo log.
* `StackOk` — every object of the stack fits the bytes it will be applied to, and no reverted
  text reaches the size of the allocation.
* `undoPop_spec` — on such a stack `undo_pop` reverts exactly the newest group, in place.
* `EditOp` — the recorded primitives; `editOp_push` — one of them pushes one object that takes
  it back; `run_stackOk` — so a run of them leaves a stack that is `StackOk`.

Main result: `undoPop_inverts` — after any run of recorded primitives, each `undo_pop` returns
to the bytes and the stack before the newest group was recorded, without growing the block.
-/

set_option autoImplicit false

namespace Evim

open Cells UndoLog
open CString hiding strchr

/-- An undo object as an entry of an undo log. -/
def UndoObject.entry (e : UndoObject) : Entry UInt8 where
  change := match e.uType with
    | .del | .delChain => .del e.start.toNat e.undoText
    | _ => .ins e.start.toNat e.length
  chained := match e.uType with
    | .delChain | .insChain => true
    | _ => false

/-- The object can be reverted on a buffer with these bytes. -/
def UndoObject.Sound (e : UndoObject) (l : List UInt8) : Prop :=
  0 ≤ e.start ∧
    match e.uType with
    | .del | .delChain => e.start.toNat ≤ l.length ∧ e.undoText.length = e.length
    | .ins | .insChain => 0 < e.length ∧ e.start.toNat + e.length ≤ l.length
    | _ => False

/-- Every object of the stack is sound where it will be applied, in an allocation of `size`. -/
def StackOk (size : Int) : List UndoObject → List UInt8 → Prop
  | [], _ => True
  | e :: st, l =>
    e.Sound l ∧ ((e.entry.change.revert l).length : Int) < size ∧
      StackOk size st (e.entry.change.revert l)

theorem StackOk.mono {a b : Int} (h : a ≤ b) :
    ∀ {st : List UndoObject} {l : List UInt8}, StackOk a st l → StackOk b st l
  | [], _, _ => trivial
  | _ :: _, _, ⟨h₁, h₂, h₃⟩ => ⟨h₁, by omega, StackOk.mono h h₃⟩

namespace Ed

/-! ## One level of `undo_pop` -/

theorem syncCursor_eq (s : Ed) (d : Int) :
    s.syncCursor d = { s with toScreen := (s.syncCursor d).toScreen } := by
  unfold syncCursor
  dsimp only
  split
  · unfold scrollTo
    dsimp only
    split <;> rfl
  · split
    · split
      · unfold scrollTo
        dsimp only
        split <;> rfl
      · rfl
    · rfl

theorem refresh_eq (s : Ed) :
    s.refresh = { s with toScreen := s.refresh.toScreen, cindex := s.refresh.cindex } := by
  unfold refresh
  dsimp only
  rw [syncCursor_eq]
  split <;> rfl

/-- One level of `undo_pop` changes the text as its object says. -/
theorem popObject_buf (s : Ed) (e : UndoObject) (rest : List UndoObject) :
    (s.popObject e rest).toBuf = (s.undoApply e).toBuf := by
  unfold popObject
  dsimp only
  split
  · rw [refresh_eq]
  · rw [refresh_eq]
  · rfl

/-- `t` is `s` with the change of `e` taken back, in the same block. -/
structure Reverted (s : Ed) (e : UndoObject) (t : Ed) : Prop where
  bytes : t.bytes = e.entry.change.revert s.bytes
  fits : t.Fits
  text : t.text = s.text
  textSize : t.textSize = s.textSize
  undos : t.toUndos = s.toUndos
  env : t.env = s.env

section Apply

variable {s : Ed} {e : UndoObject}

/-- The message of `undo_pop` changes the screen part only. -/
theorem Reverted.undoStatus {t : Ed} (h : Reverted s e t) (what : String) :
    Reverted s e (t.undoStatus what e) :=
  ⟨h.bytes, ⟨h.fits.1, h.fits.2⟩, h.text, h.textSize, h.undos, h.env⟩

/-- Deleted bytes are put back where they were, as long as the block stays. -/
theorem restore_bytes (hf : s.Fits) (h₀ : 0 ≤ e.start) (h₁ : e.start.toNat ≤ s.bytes.length)
    (h₂ : e.undoText.length = e.length)
    (hb : (s.textHoleMake (s.text + e.start) e.length).1 = 0) :
    Buf.bytes { (s.textHoleMake (s.text + e.start) e.length).2 with
      mem := memcpy (s.textHoleMake (s.text + e.start) e.length).2.mem (s.text + e.start)
        e.undoText } =
      s.bytes.take e.start.toNat ++ e.undoText ++ s.bytes.drop e.start.toNat := by
  have hlen : (s.bytes.length : Int) = s.end_ - s.text := by
    rw [Buf.length_bytes]
    have := hf.text_le_end
    omega
  obtain ⟨k, hk⟩ : ∃ k : Nat, e.start = k := ⟨e.start.toNat, by omega⟩
  rw [hk] at hb ⊢
  rw [hk, Int.toNat_natCast] at h₁
  have htx := textHoleMake_text s (s.text + k) e.length
  have hby := textHoleMake_bytes s hf (p := s.text + k) (by omega) (by omega) e.length
  have hend := textHoleMake_end s (s.text + k) e.length
  have hrep : List.replicate e.length (32 : UInt8) = List.replicate e.undoText.length 32 := by
    rw [h₂]
  rw [show (s.text + k - s.text).toNat = k by omega, hrep] at hby
  generalize (s.textHoleMake (s.text + k) e.length) = r at *
  rw [hb, Int.add_zero] at htx
  rw [Int.toNat_natCast, ← fillHole h₁, ← hby]
  unfold Buf.bytes
  simp only
  rw [htx]
  exact slice_memcpy _ _ _ (by omega)

/-- Putting deleted bytes back. -/
theorem restore_reverted (hf : s.Fits) (h₀ : 0 ≤ e.start) (h₁ : e.start.toNat ≤ s.bytes.length)
    (h₂ : e.undoText.length = e.length) (hc : e.entry.change = .del e.start.toNat e.undoText)
    (hs : ((e.entry.change.revert s.bytes).length : Int) < s.textSize) :
    Reverted s e { (s.textHoleMake (s.text + e.start) e.length).2 with
      mem := memcpy (s.textHoleMake (s.text + e.start) e.length).2.mem (s.text + e.start)
        e.undoText } := by
  have hlen : (s.bytes.length : Int) = s.end_ - s.text := by
    rw [Buf.length_bytes]
    have := hf.text_le_end
    omega
  rw [hc] at hs
  have hnew : (Change.revert (.del e.start.toNat e.undoText) s.bytes).length =
      s.bytes.length + e.length := by
    simp only [Change.revert, List.length_append, List.length_take, List.length_drop]
    omega
  rw [hnew] at hs
  obtain ⟨hb, htx, hsz, henv⟩ := textHoleMake_noGrow s (p := s.text + e.start) (n := e.length)
    (by omega)
  have hfit := textHoleMake_fits s hf (s.text + e.start) e.length
  have hun := textHoleMake_toUndos s (s.text + e.start) e.length
  refine ⟨?_, ⟨hfit.1, hfit.2⟩, htx, hsz, hun, henv⟩
  rw [hc]
  exact restore_bytes hf h₀ h₁ h₂ hb

/-- Removing inserted bytes. -/
theorem remove_reverted (hf : s.Fits) (h₀ : 0 ≤ e.start) (h₁ : 0 < e.length)
    (h₂ : e.start.toNat + e.length ≤ s.bytes.length)
    (hc : e.entry.change = .ins e.start.toNat e.length) :
    Reverted s e
      (s.textHoleDelete (e.start + s.text) (e.start + s.text - 1 + e.length) .no).2 := by
  have hlen : (s.bytes.length : Int) = s.end_ - s.text := by
    rw [Buf.length_bytes]
    have := hf.text_le_end
    omega
  have a₀ : s.text ≤ e.start + s.text := by omega
  have a₁ : e.start + s.text ≤ e.start + s.text - 1 + e.length := by omega
  have a₂ : e.start + s.text - 1 + e.length < s.end_ := by omega
  have hst := textHoleDelete_state s a₀ a₁ a₂ .no
  refine ⟨?_, textHoleDelete_fits s hf a₀ a₁ a₂ .no, ?_, ?_, ?_, ?_⟩
  · rw [textHoleDelete_bytes s a₀ a₁ a₂, hc]
    simp only [Change.revert]
    congr 2 <;> omega
  · rw [hst]
  · rw [hst]
  · rw [hst]
    rfl
  · rw [hst]

/-- Reverting one sound object. -/
theorem undoApply_reverted (hf : s.Fits) (he : e.Sound s.bytes)
    (hs : ((e.entry.change.revert s.bytes).length : Int) < s.textSize) :
    Reverted s e (s.undoApply e) := by
  obtain ⟨h₀, he⟩ := he
  unfold undoApply
  cases ht : e.uType <;> rw [ht] at he
  case del | delChain =>
    exact (restore_reverted hf h₀ he.1 he.2 (by unfold UndoObject.entry; rw [ht]) hs).undoStatus
      "restored"
  case ins | insChain =>
    exact (remove_reverted hf h₀ he.1 he.2 (by unfold UndoObject.entry; rw [ht])).undoStatus
      "deleted"
  all_goals exact he.elim

end Apply

/-! ## `undo_pop` -/

/-- The same block, and no call to the outside (so no `realloc`) in between. -/
structure InPlace (s t : Ed) : Prop where
  text : t.text = s.text
  textSize : t.textSize = s.textSize
  env : t.env = s.env

theorem InPlace.trans {s t u : Ed} (h : InPlace s t) (h' : InPlace t u) : InPlace s u :=
  ⟨h'.text.trans h.text, h'.textSize.trans h.textSize, h'.env.trans h.env⟩

/-- A state the undo stack can be popped from: nothing queued, and the stack is sound. -/
structure Poppable (s : Ed) : Prop where
  fits : s.Fits
  queue : s.undoQ = 0
  stack : StackOk s.textSize s.undoStack s.bytes

/-- One level, on an object that is sound where it is applied. -/
theorem popObject_poppable {s : Ed} {e : UndoObject} {rest : List UndoObject} (h : s.Poppable)
    (hst : s.undoStack = e :: rest) :
    (s.popObject e rest).bytes = e.entry.change.revert s.bytes ∧
      (s.popObject e rest).undoStack = rest ∧ (s.popObject e rest).Poppable ∧
        InPlace s (s.popObject e rest) := by
  have hok := h.stack
  rw [hst] at hok
  obtain ⟨hsnd, hsize, hrest⟩ := hok
  have hr := undoApply_reverted h.fits hsnd hsize
  obtain ⟨hbuf, hq, henv, hst'⟩ : (s.popObject e rest).toBuf = (s.undoApply e).toBuf ∧
      (s.popObject e rest).undoQ = (s.undoApply e).undoQ ∧
        (s.popObject e rest).env = (s.undoApply e).env ∧
          (s.popObject e rest).undoStack = rest := by
    unfold popObject
    dsimp only
    split
    · rw [refresh_eq]
      exact ⟨rfl, rfl, rfl, rfl⟩
    · rw [refresh_eq]
      exact ⟨rfl, rfl, rfl, rfl⟩
    · exact ⟨rfl, rfl, rfl, rfl⟩
  have htx : (s.popObject e rest).text = s.text := by rw [hbuf, hr.text]
  have hsz : (s.popObject e rest).textSize = s.textSize := by rw [hbuf, hr.textSize]
  have hby : (s.popObject e rest).bytes = e.entry.change.revert s.bytes := by rw [hbuf, hr.bytes]
  refine ⟨hby, hst', ⟨?_, ?_, ?_⟩, htx, hsz, ?_⟩
  · rw [hbuf]
    exact hr.fits
  · rw [hq, congrArg Undos.undoQ hr.undos, h.queue]
  · rw [hst', hby, hsz]
    exact hrest
  · rw [henv, hr.env]

/-- Following a chain is what the mark of the entry says. -/
theorem undoPopFrom_cons {fuel : Nat} {s : Ed} {e : UndoObject} {rest : List UndoObject}
    (hq : s.undoQ = 0) (hst : s.undoStack = e :: rest) :
    undoPopFrom (fuel + 1) s =
      if e.entry.chained then undoPopFrom fuel (s.popObject e rest) else s.popObject e rest := by
  conv_lhs => unfold undoPopFrom
  rw [undoQueueCommit_of_empty hq]
  simp only [hst, UndoObject.entry]
  obtain ⟨start, length, uType, undoText⟩ := e
  cases uType <;> rfl

/-- `undo_pop` pops one group of the log, in place. -/
theorem undoPopFrom_spec {fuel : Nat} {s : Ed} (h : s.Poppable)
    (hfuel : s.undoStack.length < fuel) :
    ((undoPopFrom fuel s).bytes, (undoPopFrom fuel s).undoStack) =
        popGroup UndoObject.entry s.undoStack s.bytes ∧
      (undoPopFrom fuel s).Poppable ∧ InPlace s (undoPopFrom fuel s) := by
  induction fuel generalizing s with
  | zero => omega
  | succ fuel ih =>
    cases hst : s.undoStack with
    | nil =>
      have he : undoPopFrom (fuel + 1) s = s.statusLine (str "Already at oldest change") := by
        unfold undoPopFrom
        rw [undoQueueCommit_of_empty h.queue]
        simp only [hst]
      rw [he]
      exact ⟨Prod.ext rfl hst, ⟨⟨h.fits.1, h.fits.2⟩, h.queue, h.stack⟩, rfl, rfl, rfl⟩
    | cons e rest =>
      obtain ⟨hby, hst', hp, hin⟩ := popObject_poppable h hst
      rw [undoPopFrom_cons h.queue hst]
      unfold popGroup
      split
      · obtain ⟨h₁, h₂, h₃⟩ := ih hp (by rw [hst']; simp [hst] at hfuel; omega)
        rw [hst', hby] at h₁
        exact ⟨h₁, h₂, hin.trans h₃⟩
      · exact ⟨by rw [hby, hst'], hp, hin⟩

theorem undoPop_spec {s : Ed} (h : s.Poppable) :
    (s.undoPop.bytes, s.undoPop.undoStack) = popGroup UndoObject.entry s.undoStack s.bytes ∧
      s.undoPop.Poppable ∧ InPlace s s.undoPop :=
  undoPopFrom_spec h (by omega)

/-! ## Runs of recorded primitives -/

end Ed

/-- A recorded edit: `text_hole_delete` of the bytes at offsets `p` through `q`, or
`string_insert` at offset `p`; `chain` selects `ALLOW_UNDO_CHAIN` over `ALLOW_UNDO`. -/
inductive EditOp where
  | delete (p q : Nat) (chain : Bool)
  | insert (p : Nat) (str : List UInt8) (chain : Bool)
  deriving DecidableEq, Repr

namespace EditOp

/-- `ALLOW_UNDO` or `ALLOW_UNDO_CHAIN`. -/
def flag (chain : Bool) : Undo := if chain then .chain else .allow

def chained : EditOp → Bool
  | delete _ _ chain => chain
  | insert _ _ chain => chain

def apply (s : Ed) : EditOp → Ed
  | delete p q chain => (s.textHoleDelete (s.text + p) (s.text + q) (flag chain)).2
  | insert p str chain => (s.stringInsert (s.text + p) str (flag chain)).2

/-- A span inside the buffer that leaves a byte, or a non-empty string into the buffer. -/
def InRange (s : Ed) : EditOp → Prop
  | delete p q _ => p ≤ q ∧ q < s.bytes.length ∧ q - p + 1 < s.bytes.length
  | insert p str _ => p ≤ s.bytes.length ∧ str ≠ []

def run (s : Ed) (ops : List EditOp) : Ed := ops.foldl apply s

/-- Every operation of the run is in range where it is applied. -/
def InRangeRun : Ed → List EditOp → Prop
  | _, [] => True
  | s, op :: ops => op.InRange s ∧ InRangeRun (op.apply s) ops

/-- The run without its last group: the most recent operation that is not chained goes, with
its chained followers. -/
def dropGroup (ops : List EditOp) : List EditOp := (ops.rdropWhile chained).dropLast

/-! ## What one operation records -/

/-- `t` is `s` after one recorded operation: one new object, which takes it back. -/
structure Recorded (s : Ed) (op : EditOp) (e : UndoObject) (t : Ed) : Prop where
  stack : t.undoStack = e :: s.undoStack
  chained : e.entry.chained = op.chained
  sound : e.Sound t.bytes
  revert : e.entry.change.revert t.bytes = s.bytes
  fits : t.Fits
  size : s.textSize ≤ t.textSize
  queue : t.undoQ = s.undoQ

/-- The object a deletion pushes, when it does not empty the buffer. -/
theorem deletePush {s : Ed} (src : Int) {len : Nat} (h : s.text + len ≠ s.end_) (chain : Bool) :
    s.undoPushDelete src len (flag chain) =
      { s with
        undoStack := ⟨src - s.text, len, if chain then .delChain else .del, slice s.mem src len⟩ ::
          s.undoStack
        modifiedCount := s.modifiedCount + 1 } := by
  cases chain <;>
    simp [flag, Ed.undoPushDelete, Ed.undoPush, Ed.pushObject, h, List.take_of_length_le]

theorem delete_recorded {s : Ed} (hf : s.Fits) {p q : Nat} {chain : Bool}
    (h : InRange s (delete p q chain)) :
    ∃ e, Recorded s (delete p q chain) e (apply s (delete p q chain)) := by
  obtain ⟨hpq, hq, hlen⟩ := h
  have hl := Buf.length_bytes s.toBuf
  have hle := hf.text_le_end
  have a₀ : s.text ≤ s.text + p := by omega
  have a₁ : s.text + p ≤ s.text + (q : Int) := by omega
  have a₂ : s.text + q < s.end_ := by omega
  have hby := Ed.textHoleDelete_bytes s a₀ a₁ a₂ (flag chain)
  have hst := Ed.textHoleDelete_state s a₀ a₁ a₂ (flag chain)
  have hfit := Ed.textHoleDelete_fits s hf a₀ a₁ a₂ (flag chain)
  rw [show (s.text + q - (s.text + p) + 1).toNat = q - p + 1 by omega,
    deletePush _ (by omega)] at hst
  rw [show (s.text + p - s.text).toNat = p by omega,
    show (s.text + q + 1 - s.text).toNat = p + (q - p + 1) by omega] at hby
  have hsl : slice s.mem (s.text + p) (q - p + 1) = (s.bytes.drop p).take (q - p + 1) := by
    unfold Buf.bytes
    rw [drop_slice _ _ (by omega), take_slice _ _ (by omega)]
  refine ⟨⟨p, q - p + 1, if chain then .delChain else .del, (s.bytes.drop p).take (q - p + 1)⟩,
    ?_, ?_, ?_, ?_, hfit, ?_, ?_⟩
  · simp only [apply, hst, hsl]
    rw [show s.text + p - s.text = p by omega]
  · cases chain <;> rfl
  · refine ⟨by simp, ?_⟩
    have h₁ : p ≤ (apply s (delete p q chain)).bytes.length := by
      simp only [apply, hby, List.length_append, List.length_take]
      omega
    have h₂ : ((s.bytes.drop p).take (q - p + 1)).length = q - p + 1 := by
      rw [List.length_take, List.length_drop]
      omega
    cases chain <;> exact ⟨h₁, h₂⟩
  · have hr := revert_del s.bytes (p := p) (n := q - p + 1) (by omega)
    simp only [apply, hby]
    cases chain <;> exact hr
  · simp [apply, hst]
  · simp [apply, hst]

theorem insert_recorded {s : Ed} (hf : s.Fits) {p : Nat} {str : List UInt8} {chain : Bool}
    (h : InRange s (insert p str chain)) :
    ∃ e, Recorded s (insert p str chain) e (apply s (insert p str chain)) := by
  obtain ⟨hp, hne⟩ := h
  have hl := Buf.length_bytes s.toBuf
  have hle := hf.text_le_end
  have hpos : 0 < str.length := List.length_pos_of_ne_nil hne
  have hby := Ed.stringInsert_bytes s hf (p := s.text + p) (by omega) (by omega) str (flag chain)
  have hfit := Ed.stringInsert_fits s hf (s.text + p) str (flag chain)
  have hun := Ed.stringInsert_toUndos s (s.text + p) str (flag chain)
  rw [show (s.text + p - s.text).toNat = p by omega] at hby
  refine ⟨⟨p, str.length, if chain then .insChain else .ins, []⟩,
    ?_, ?_, ?_, ?_, hfit, ?_, ?_⟩
  · refine (congrArg Undos.undoStack hun).trans ?_
    cases chain <;>
      simp [flag, Ed.undoPushInsert, Ed.undoPush, Ed.pushObject]
  · cases chain <;> rfl
  · refine ⟨by simp, ?_⟩
    have h₁ : p + str.length ≤ (apply s (insert p str chain)).bytes.length := by
      simp only [apply, hby, List.length_append, List.length_take]
      omega
    cases chain <;> exact ⟨hpos, h₁⟩
  · have hr := revert_ins s.bytes str hp
    simp only [apply, hby]
    cases chain <;> exact hr
  · exact Ed.stringInsert_size s _ _ _
  · refine (congrArg Undos.undoQ hun).trans ?_
    cases chain <;> rfl

theorem apply_recorded {s : Ed} (hf : s.Fits) {op : EditOp} (h : op.InRange s) :
    ∃ e, Recorded s op e (op.apply s) := by
  cases op with
  | delete p q chain => exact delete_recorded hf h
  | insert p str chain => exact insert_recorded hf h

/-! ## Runs -/

theorem run_append (s : Ed) (ops : List EditOp) (op : EditOp) :
    run s (ops ++ [op]) = op.apply (run s ops) := by
  simp [run]

theorem inRangeRun_append {s : Ed} {ops : List EditOp} {op : EditOp} :
    InRangeRun s (ops ++ [op]) ↔ InRangeRun s ops ∧ op.InRange (run s ops) := by
  induction ops generalizing s with
  | nil => simp [InRangeRun, run]
  | cons o ops ih =>
    simp only [List.cons_append, InRangeRun, ih, run, List.foldl_cons, and_assoc]

/-- After any run the stack is sound for the bytes it will be applied to. -/
theorem run_poppable {s : Ed} (h : s.Poppable) {ops : List EditOp} (hr : InRangeRun s ops) :
    (run s ops).Poppable := by
  induction ops using List.reverseRecOn with
  | nil => exact h
  | append_singleton ops op ih =>
    obtain ⟨hr', hop⟩ := inRangeRun_append.mp hr
    have hp := ih hr'
    obtain ⟨e, he⟩ := apply_recorded hp.fits hop
    rw [run_append]
    refine ⟨he.fits, he.queue.trans hp.queue, ?_⟩
    rw [he.stack]
    refine ⟨he.sound, ?_, ?_⟩
    · have := hp.fits.lt_size
      have := hp.fits.text_le_end
      have := he.size
      rw [he.revert, Buf.length_bytes]
      omega
    · rw [he.revert]
      exact hp.stack.mono he.size

/-- A pop takes the newest group of the run back. -/
theorem popGroup_run {s : Ed} (h : s.Poppable) (hst : s.undoStack = []) {ops : List EditOp}
    (hr : InRangeRun s ops) :
    popGroup UndoObject.entry (run s ops).undoStack (run s ops).bytes =
      ((run s (dropGroup ops)).bytes, (run s (dropGroup ops)).undoStack) := by
  induction ops using List.reverseRecOn with
  | nil => simp [run, dropGroup, hst, popGroup]
  | append_singleton ops op ih =>
    obtain ⟨hr', hop⟩ := inRangeRun_append.mp hr
    obtain ⟨e, he⟩ := apply_recorded (run_poppable h hr').fits hop
    rw [run_append, he.stack, popGroup, he.revert, he.chained]
    cases hc : op.chained with
    | true =>
      have hd : dropGroup (ops ++ [op]) = dropGroup ops := by
        simp [dropGroup, hc]
      rw [if_pos rfl, hd, ih hr']
    | false =>
      have hd : dropGroup (ops ++ [op]) = ops := by
        simp [dropGroup, hc]
      rw [if_neg (by simp), hd]

theorem inRangeRun_initial {s : Ed} {ops ops' : List EditOp} (h : InRangeRun s ops)
    (hp : ops' <+: ops) : InRangeRun s ops' := by
  obtain ⟨r, rfl⟩ := hp
  induction ops' generalizing s with
  | nil => trivial
  | cons o ops' ih => exact ⟨h.1, ih h.2⟩

theorem dropGroup_initial (ops : List EditOp) : dropGroup ops <+: ops :=
  (List.dropLast_prefix _).trans (List.rdropWhile_prefix _ _)

theorem dropGroup_iterate_initial (ops : List EditOp) (n : Nat) : dropGroup^[n] ops <+: ops := by
  induction n with
  | zero => exact List.prefix_rfl
  | succ n ih =>
    rw [Function.iterate_succ_apply']
    exact (dropGroup_initial _).trans ih

/-- Each `undo_pop` drops at least one operation of the run. -/
theorem dropGroup_iterate_length (ops : List EditOp) (n : Nat) :
    (dropGroup^[n] ops).length ≤ ops.length - n := by
  induction n with
  | zero => simp
  | succ n ih =>
    have h := (List.rdropWhile_prefix chained (dropGroup^[n] ops)).length_le
    rw [Function.iterate_succ_apply']
    simp only [dropGroup, List.length_dropLast]
    omega

/-- The stack of a run holds one object for each operation. -/
theorem run_stack_length {s : Ed} (h : s.Poppable) {ops : List EditOp} (hr : InRangeRun s ops) :
    (run s ops).undoStack.length = ops.length + s.undoStack.length := by
  induction ops using List.reverseRecOn with
  | nil => simp [run]
  | append_singleton ops op ih =>
    obtain ⟨hr', hop⟩ := inRangeRun_append.mp hr
    obtain ⟨e, he⟩ := apply_recorded (run_poppable h hr').fits hop
    rw [run_append, he.stack, List.length_cons, ih hr', List.length_append]
    simp only [List.length_singleton]
    omega

/-- Every pop of a run takes back its newest group, in place. -/
theorem undoPop_run {s : Ed} (h : s.Poppable) (hst : s.undoStack = []) {ops : List EditOp}
    (hr : InRangeRun s ops) (n : Nat) :
    (Ed.undoPop^[n] (run s ops)).bytes = (run s (dropGroup^[n] ops)).bytes ∧
      (Ed.undoPop^[n] (run s ops)).undoStack = (run s (dropGroup^[n] ops)).undoStack ∧
      (Ed.undoPop^[n] (run s ops)).Poppable ∧
      (run s ops).InPlace (Ed.undoPop^[n] (run s ops)) := by
  induction n with
  | zero => exact ⟨rfl, rfl, run_poppable h hr, rfl, rfl, rfl⟩
  | succ n ih =>
    obtain ⟨hb, hs, hp, hin⟩ := ih
    obtain ⟨hpop, hp', hin'⟩ := Ed.undoPop_spec hp
    have hr' := inRangeRun_initial hr (dropGroup_iterate_initial ops n)
    rw [hb, hs, popGroup_run h hst hr', Prod.mk.injEq] at hpop
    rw [Function.iterate_succ_apply', Function.iterate_succ_apply']
    exact ⟨hpop.1, hpop.2, hp', hin.trans hin'⟩

/-- **The undo stack inverts the recorded primitives.**  After a run of recorded primitives,
the `n`-th `undo_pop` leaves the bytes and the stack as they were just before
the `n`-th newest group, inside the block as it is; an empty stack means the initial bytes, and
as many pops as operations empty it. -/
theorem undoPop_inverts (s : Ed) (ops : List EditOp) (hf : s.Fits)
    (hst : s.undoStack = []) (hq : s.undoQ = 0) (hr : InRangeRun s ops) (n : Nat) :
    (Ed.undoPop^[n] (run s ops)).bytes = (run s (dropGroup^[n] ops)).bytes ∧
      (Ed.undoPop^[n] (run s ops)).undoStack = (run s (dropGroup^[n] ops)).undoStack ∧
      (run s ops).InPlace (Ed.undoPop^[n] (run s ops)) ∧
      ((Ed.undoPop^[n] (run s ops)).undoStack = [] →
        (Ed.undoPop^[n] (run s ops)).bytes = s.bytes) ∧
      (ops.length ≤ n → (Ed.undoPop^[n] (run s ops)).undoStack = []) := by
  have hp : s.Poppable := ⟨hf, hq, by rw [hst]; trivial⟩
  obtain ⟨hb, hs, -, hin⟩ := undoPop_run hp hst hr n
  have hlen := run_stack_length hp (inRangeRun_initial hr (dropGroup_iterate_initial ops n))
  refine ⟨hb, hs, hin, ?_, ?_⟩
  · intro he
    rw [← hs, he, hst] at hlen
    have hnil : dropGroup^[n] ops = [] := List.eq_nil_of_length_eq_zero (by simpa using hlen.symm)
    rw [hb, hnil]
    rfl
  · intro hn
    have hl := dropGroup_iterate_length ops n
    have hnil : dropGroup^[n] ops = [] := List.eq_nil_of_length_eq_zero (by omega)
    rw [hs, hnil]
    exact hst

/-- A buffer that holds `l` in a block of the first size. -/
def holding (l : List UInt8) : Ed :=
  { Ed.zeroed .still with
    mem := memcpy (fun _ => 0) 4096 l
    text := 4096
    end_ := 4096 + l.length
    textSize := 10240
    dot := 4096
    screenbegin := 4096 }

/-- An insertion with a chained deletion behind it, taken back by one pop. -/
theorem undoPop_inverts_chain :
    InRangeRun (holding [97, 98, 10]) [insert 1 [120] false, delete 0 0 true] ∧
      (Ed.undoPop^[1] (run (holding [97, 98, 10]) [insert 1 [120] false, delete 0 0 true])).bytes =
        [97, 98, 10] := by
  have hr : InRangeRun (holding [97, 98, 10]) [insert 1 [120] false, delete 0 0 true] := by
    refine ⟨⟨by decide, by decide⟩, ⟨by decide, by decide, by decide⟩, trivial⟩
  have h := undoPop_inverts (holding [97, 98, 10]) [insert 1 [120] false, delete 0 0 true]
    ⟨by decide, by decide⟩ rfl rfl hr 1
  exact ⟨hr, h.1.trans (by decide)⟩

end EditOp

end Evim
