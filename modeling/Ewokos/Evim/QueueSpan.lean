import Ewokos.Evim.DeleteAll

/-!
# evim: the undo queue as one span of the text

A queued deletion overwrites `undo_queue_spos`, so the queue is one span of the text only if each
deletion takes the byte in front of the last one, or the queue was committed in between.

* `Removes` — primitive changes with a record of the bytes queued and where each was removed.
* `Session` — insert mode while backspaces and cursor keys are typed; `Owes` is its invariant.

Main result: `queueSpan_session`.
-/

set_option autoImplicit false

namespace Evim

open Cells UndoLog

/-- One byte is queued, at `p`: pushed, or pushed and deleted. -/
inductive Queues (s : Ed) (p : Int) : Ed → Prop where
  | push : Queues s p (s.undoPush p 1 .delQueued)
  | delete : Queues s p (s.textHoleDelete p p .queued).2

namespace Ed

variable {s s' : Ed}

/-- The bytes in the queue, each with the offset where an undo puts it. -/
def span (s : Ed) : List (Int × UInt8) :=
  (List.range s.undoQ).map fun (i : Nat) =>
    (s.undoQueueSpos - s.text + i, s.undoQueue (VI_UNDO_QUEUE_MAX - s.undoQ + i))

/-! ## What a primitive change does to the queue -/

/-- A commit empties the queue, unless it was empty. -/
theorem undoQueueCommit_sameQueue (s : Ed) :
    SameQueue s s.undoQueueCommit ∨ s.undoQueueCommit.undoQueueState ≠ .del := by
  by_cases hq : 0 < s.undoQ
  · right
    rw [(undoQueueCommit_queue hq).2]
    simp
  · left
    rw [undoQueueCommit_of_empty (by omega)]
    exact .refl s

/-- Counting insertions never queues deletions. -/
theorem queueCount_state : ∀ (n : Nat) {s : Ed}, s.undoQueueState ≠ .del →
    (queueCount n s).undoQueueState ≠ .del
  | 0, _, h => h
  | n + 1, s, h => by
    unfold queueCount
    dsimp only
    split
    · refine queueCount_state n ?_
      have hcommit := undoQueueCommit_queue (s := { s with undoQ := s.undoQ + 1 }) (Nat.succ_pos _)
      rw [hcommit.2]
      simp
    · exact queueCount_state n h

theorem queueInserted_state {s : Ed} (h : s.undoQueueState ≠ .del) (src : Int) (len : Nat) :
    (s.queueInserted src len).undoQueueState ≠ .del := by
  unfold queueInserted
  refine queueCount_state len ?_
  split
  · simp
  · exact h

/-- A push that is no queued deletion. -/
theorem undoPush_sameQueue {src : Int} {len : Nat} {t : UndoType}
    (hpos : s.undoQueueState = .del → 0 < s.undoQ) (h : ¬ (t = .delQueued ∧ len = 1)) :
    SameQueue s (s.undoPush src len t) ∨ (s.undoPush src len t).undoQueueState ≠ .del := by
  cases t with
  | ins => exact .inl ⟨rfl, rfl, rfl, rfl⟩
  | del => exact .inl ⟨rfl, rfl, rfl, rfl⟩
  | insChain => exact .inl ⟨rfl, rfl, rfl, rfl⟩
  | delChain => exact .inl ⟨rfl, rfl, rfl, rfl⟩
  | empty => exact .inl (.refl s)
  | delQueued =>
    simp only [undoPush]
    rw [if_pos fun hlen => h ⟨rfl, hlen⟩]
    exact .inl (.refl s)
  | insQueued =>
    simp only [undoPush]
    split
    · exact .inl (.refl s)
    · right
      split
      · rename_i hst
        exact queueInserted_state (by simp [hst]) src len
      · rename_i hst
        exact queueInserted_state (by simp [hst]) src len
      · rename_i hlen _ hst
        refine queueInserted_state ?_ src len
        rw [(undoQueueCommit_queue (hpos hst)).2]
        simp

end Ed

/-- A primitive change that queues no byte leaves the queue, or no deletion in it. -/
theorem Edit.sameQueue {s s' : Ed} (h : Edit s s') (hpos : s.undoQueueState = .del → 0 < s.undoQ)
    (hno : ∀ p, ¬ Queues s p s') : SameQueue s s' ∨ s'.undoQueueState ≠ .del := by
  cases h with
  | look h =>
    rcases h.undos with hu | hu
    · exact .inl (.of_toUndos hu)
    · rcases s.undoQueueCommit_sameQueue with hc | hc
      · exact .inl (hc.trans (.of_toUndos hu))
      · right
        rw [congrArg Undos.undoQueueState hu]
        exact hc
  | still hb hu => exact .inl (.of_toUndos hu)
  | push src len t =>
    refine Ed.undoPush_sameQueue hpos ?_
    rintro ⟨rfl, rfl⟩
    exact hno src .push
  | write m => exact .inl ⟨rfl, rfl, rfl, rfl⟩
  | hole p size => exact .inl (.of_toUndos (s.textHoleMake_toUndos p size))
  | @delete p q hpq undo =>
    have hsame := (s.textHoleDelete_queue p q undo).1
    have hpush : SameQueue s (s.undoPushDelete p (q - p + 1).toNat undo) ∨
        (s.undoPushDelete p (q - p + 1).toNat undo).undoQueueState ≠ .del := by
      cases undo with
      | no => exact .inl (.refl s)
      | allow => exact Ed.undoPush_sameQueue (t := .del) hpos (by simp)
      | chain => exact Ed.undoPush_sameQueue (t := .delChain) hpos (by simp)
      | queued =>
        refine Ed.undoPush_sameQueue (t := .delQueued) hpos ?_
        rintro ⟨-, hone⟩
        obtain rfl : q = p := by omega
        exact hno q .delete
    rcases hpush with hpush | hpush
    · exact .inl (hpush.trans hsame)
    · right
      rw [hsame.state]
      exact hpush
  | pop h => exact .inl (s.popObject_sameQueue _ _)
  | fresh hb hu => exact .inl (.of_toUndos hu)
  | flush => exact .inl ⟨rfl, rfl, rfl, rfl⟩
  | clean => exact .inl ⟨rfl, rfl, rfl, rfl⟩

/-! ## The record of a run -/

/-- A primitive change, with the bytes queued since the last commit and the offsets they were
removed at. -/
inductive Removes : Ed × List (Int × UInt8) → Ed × List (Int × UInt8) → Prop where
  /-- A byte is queued: it is the one in front of the bytes queued before. -/
  | queued {s s' : Ed} {log : List (Int × UInt8)} {p : Int} (h : Queues s p s')
      (next : s.undoQueueState = .del → s.undoQueueSpos = p + 1)
      (first : s.undoQueueState = .empty → s.undoQ = 0) :
      Removes (s, log)
        (s', (p - s.text, s.mem p) :: if s.undoQueueState = .del then log else [])
  /-- No byte is queued, and the text stays where it is while deletions are. -/
  | other {s s' : Ed} {log : List (Int × UInt8)} (h : Edit s s') (hno : ∀ p, ¬ Queues s p s')
      (rests : s.undoQueueState = .del → s'.text = s.text) : Removes (s, log) (s', log)

/-- What is queued is what the record says was removed, and where. -/
structure Spanned (s : Ed) (log : List (Int × UInt8)) : Prop where
  pos : 0 < s.undoQ
  lt : s.undoQ < VI_UNDO_QUEUE_MAX
  span : log = s.span

namespace Ed

theorem span_queueByte {s : Ed} (h : s.undoQ < VI_UNDO_QUEUE_MAX) {p : Int}
    (hspan : 0 < s.undoQ → s.undoQueueSpos = p + 1) :
    (s.queueByte p).span = (p - s.text, s.mem p) :: s.span := by
  unfold span
  change (List.range (s.undoQ + 1)).map (fun (i : Nat) => (p - s.text + i, Function.update s.undoQueue
    (VI_UNDO_QUEUE_MAX - (s.undoQ + 1)) (s.mem p) (VI_UNDO_QUEUE_MAX - (s.undoQ + 1) + i))) = _
  rw [List.range_succ_eq_map, List.map_cons, List.map_map]
  simp only [Nat.add_zero, Function.update_self, Nat.cast_zero, Int.add_zero]
  congr 1
  refine List.map_congr_left fun i hi => ?_
  have hlt := List.mem_range.mp hi
  change (_, Function.update _ _ _ _) = _
  rw [Function.update_of_ne (by omega), hspan (by omega)]
  refine Prod.ext ?_ ?_
  · dsimp only
    push_cast
    omega
  · dsimp only
    congr 1
    omega

/-- A byte queued in front of a span, or with nothing queued. -/
theorem queueDeleted_spanned {s : Ed} (hlt : s.undoQ < VI_UNDO_QUEUE_MAX) {p : Int}
    (hspan : 0 < s.undoQ → s.undoQueueSpos = p + 1)
    (hdel : (s.queueDeleted p).undoQueueState = .del) :
    Spanned (s.queueDeleted p) ((p - s.text, s.mem p) :: s.span) := by
  have hqueue := span_queueByte hlt hspan
  rw [queueDeleted_def] at hdel ⊢
  by_cases hfull : s.undoQ + 1 = VI_UNDO_QUEUE_MAX
  · rw [if_pos hfull] at hdel
    rw [(undoQueueCommit_queue (s := s.queueByte p) (Nat.succ_pos _)).2] at hdel
    cases hdel
  · rw [if_neg hfull]
    refine ⟨Nat.succ_pos _, ?_, hqueue.symm⟩
    change s.undoQ + 1 < VI_UNDO_QUEUE_MAX
    omega

theorem span_of_empty {s : Ed} (h : s.undoQ = 0) : s.span = [] := by
  simp [span, h]

/-- A queued push of one byte. -/
theorem undoPush_spanned {s : Ed} {log : List (Int × UInt8)} {p : Int}
    (hs : s.undoQueueState = .del → Spanned s log)
    (next : s.undoQueueState = .del → s.undoQueueSpos = p + 1)
    (first : s.undoQueueState = .empty → s.undoQ = 0)
    (hdel : (s.undoPush p 1 .delQueued).undoQueueState = .del) :
    Spanned (s.undoPush p 1 .delQueued)
      ((p - s.text, s.mem p) :: if s.undoQueueState = .del then log else []) := by
  have hmax : 0 < VI_UNDO_QUEUE_MAX := by decide
  cases hst : s.undoQueueState with
  | empty =>
    have hq := first hst
    have hpush : s.undoPush p 1 .delQueued = s.queueDeleted p := by
      simp [undoPush, hst]
    have h := queueDeleted_spanned (s := s) (p := p) (by omega) (fun h => by omega)
    rw [span_of_empty hq] at h
    rw [hpush] at hdel ⊢
    simpa using h hdel
  | del =>
    have hrec := hs hst
    have hpush : s.undoPush p 1 .delQueued = s.queueDeleted p := by
      simp [undoPush, hst]
    have h := queueDeleted_spanned (s := s) (p := p) hrec.lt (fun _ => next hst)
    rw [← hrec.span] at h
    rw [hpush] at hdel ⊢
    simpa using h hdel
  | ins =>
    have hq := s.undoQueueCommit_undoQ
    have hbuf : s.undoQueueCommit.toBuf = s.toBuf := by rw [undoQueueCommit_eq]
    have hpush : s.undoPush p 1 .delQueued = s.undoQueueCommit.queueDeleted p := by
      simp [undoPush, hst]
    have h := queueDeleted_spanned (s := s.undoQueueCommit) (p := p) (by omega)
      (fun h => by omega)
    rw [span_of_empty hq, hbuf] at h
    rw [hpush] at hdel ⊢
    simpa using h hdel

end Ed

theorem Spanned.congr {s t : Ed} {log : List (Int × UInt8)} (h : Spanned s log)
    (hq : SameQueue s t) (htext : t.text = s.text) : Spanned t log := by
  refine ⟨by rw [hq.count]; exact h.pos, by rw [hq.count]; exact h.lt, ?_⟩
  rw [h.span]
  unfold Ed.span
  rw [hq.count, hq.spos, hq.bytes, htext]

/-- **Step lemma**: what is recorded stays what is queued. -/
theorem Removes.spanned {x y : Ed × List (Int × UInt8)} (h : Removes x y)
    (hx : x.1.undoQueueState = .del → Spanned x.1 x.2) :
    y.1.undoQueueState = .del → Spanned y.1 y.2 := by
  intro hdel
  cases h with
  | @queued s s' log p h next first =>
    cases h with
    | push => exact Ed.undoPush_spanned hx next first hdel
    | delete =>
      have hone : (p - p + 1).toNat = 1 := by omega
      obtain ⟨hq, htext⟩ := s.textHoleDelete_queue p p .queued
      rw [hone] at hq
      have hpush : SameQueue (s.undoPush p 1 .delQueued) (s.textHoleDelete p p .queued).2 := hq
      have hrec := Ed.undoPush_spanned hx next first (hpush.state.symm.trans hdel)
      refine hrec.congr hpush (htext.trans ?_)
      rw [Ed.undoPush_eq]
  | @other s s' log h hno rests =>
    have hpos : s.undoQueueState = .del → 0 < s.undoQ := fun hs => (hx hs).pos
    rcases h.sameQueue hpos hno with hq | hne
    · have hs : s.undoQueueState = .del := hq.state.symm.trans hdel
      exact (hx hs).congr hq (rests hs)
    · exact absurd hdel hne

/-- **Run lemma.** -/
theorem Removes.run {x y : Ed × List (Int × UInt8)} (h : Relation.ReflTransGen Removes x y)
    (hx : x.1.undoQueueState ≠ .del) : y.1.undoQueueState = .del → Spanned y.1 y.2 := by
  induction h with
  | refl => exact fun hdel => absurd hdel hx
  | tail _ hstep ih => exact hstep.spanned ih

/-! ## Sessions -/

/-- Neither the text, nor what can be undone, nor the mode has changed. -/
structure Kept (s t : Ed) : Prop where
  buf : t.toBuf = s.toBuf
  undos : t.toUndos = s.toUndos
  cmdMode : t.cmdMode = s.cmdMode

namespace Kept

variable {s t u : Ed}

theorem refl (s : Ed) : Kept s s := ⟨rfl, rfl, rfl⟩

theorem trans (h₁ : Kept s t) (h₂ : Kept t u) : Kept s u :=
  ⟨h₂.buf.trans h₁.buf, h₂.undos.trans h₁.undos, h₂.cmdMode.trans h₁.cmdMode⟩

end Kept

theorem Idle.kept {s t : Ed} (h : Idle s t) : Kept s t :=
  ⟨h.looked.buf, h.toUndos, h.looked.cmdMode⟩

/-- Nothing that the keys of a session read has changed. -/
def Ready (s t : Ed) : Prop :=
  t = { s with
    toRegs := t.toRegs
    toCmdQueue := t.toCmdQueue
    toScreen := t.toScreen
    cindex := t.cindex
    editFileCurLine := t.editFileCurLine
    keepIndex := t.keepIndex
    cmdError := t.cmdError
    env := t.env }

theorem Ready.trans {s t u : Ed} (h₁ : Ready s t) (h₂ : Ready t u) : Ready s u := by
  unfold Ready at h₁ h₂ ⊢
  rw [h₂, h₁]

theorem Ready.kept {s t : Ed} (h : Ready s t) : Kept s t := by
  unfold Ready at h
  rw [h]
  exact ⟨rfl, rfl, rfl⟩

theorem Idle.ready {s t : Ed} (h : Idle s t) : Ready s t := by
  unfold Idle at h
  unfold Ready
  rw [h]

namespace Ed

variable {s s' : Ed}

theorem redraw_idle (h : s.redraw = some s') : Idle s s' :=
  (refresh_idle s).trans (showStatusLine_idle h)

theorem indicateError_kept (h : s.indicateError = some s') : Kept s s' := by
  have h₀ : Kept s { s with cmdError := true } := ⟨rfl, rfl, rfl⟩
  unfold indicateError at h
  dsimp only at h
  split at h
  · obtain ⟨s₁, h₁, h₂⟩ := Option.bind_eq_some_iff.mp h
    exact h₀.trans ((redraw_idle h₁).trans (redraw_idle h₂)).kept
  · cases h
    exact h₀

theorem errorAt_kept {p q : Int} (h : s.errorAt p = some (q, s')) : Kept s s' := by
  obtain ⟨s₁, h₁, e⟩ := Option.map_eq_some_iff.mp h
  cases e
  exact indicateError_kept h₁

theorem boundHere_kept (h : s.boundHere = some s') : Kept s s' := by
  obtain ⟨⟨d, t⟩, hd, e⟩ := Option.bind_eq_some_iff.mp h
  cases e
  obtain ⟨⟨q, u⟩, hq, hd⟩ := Option.bind_eq_some_iff.mp hd
  have hu : Kept s u := by
    split at hq
    · exact errorAt_kept hq
    · cases hq
      exact Kept.refl s
  have ht : Kept u t := by
    dsimp only at hd
    split at hd
    · exact errorAt_kept hd
    · cases hd
      exact Kept.refl _
  exact (hu.trans ht).trans ⟨rfl, rfl, rfl⟩

theorem settle_kept (s : Ed) (c o : Int) : Kept s (s.settle c o) := by
  unfold settle checkContext
  dsimp only
  split <;> split <;> try split
  all_goals exact ⟨rfl, rfl, rfl⟩

theorem offNewline_kept (s : Ed) : Kept s s.offNewline := by
  unfold offNewline
  split <;> exact ⟨rfl, rfl, rfl⟩

/-- The end of `do_cmd`, when the buffer is not empty. -/
theorem epilogue_kept {c o : Int} (hne : s.text ≠ s.end_) (h : s.epilogue c o = some s') :
    Kept s s' := by
  obtain ⟨v, hv, hrest⟩ := Option.bind_eq_some_iff.mp h
  obtain ⟨w, hw, hlast⟩ := Option.bind_eq_some_iff.mp hrest
  unfold refill at hv
  rw [if_neg (Ne.symm hne)] at hv
  obtain rfl := Option.some.inj hv
  have hk : Kept s w := by
    split at hw
    · exact boundHere_kept hw
    · cases hw
      exact Kept.refl s
  cases hlast
  exact (hk.trans (settle_kept w c o)).trans (offNewline_kept _)

theorem lineRound_kept {down go : Bool} {q q' : Int}
    (h : lineRound down q s = some (go, q', s')) : Kept s s' := by
  have round : ∀ (p stop : Int), (if p = stop then s.indicateError.map fun s => (false, q, s)
      else some (true, p, s)) = some (go, q', s') → Kept s s' := by
    intro p stop h
    split at h
    · obtain ⟨s₁, h₁, h₂⟩ := Option.map_eq_some_iff.mp h
      cases h₂
      exact indicateError_kept h₁
    · cases h
      exact Kept.refl s
  exact round _ _ h

/-- Up and down do not commit. -/
theorem moveLines_kept {down : Bool} (h : s.moveLines down false = some s') : Kept s s' := by
  obtain ⟨⟨found, q, s₁⟩, h₁, h₂⟩ := Option.bind_eq_some_iff.mp h
  have hk : Kept s s₁ := cmdLoop_keeps (P := fun _ t => Kept s t)
    (fun hp e => hp.trans (lineRound_kept e)) (fun hp => hp.trans ⟨rfl, rfl, rfl⟩) (Kept.refl s) h₁
  dsimp only at h₂
  split at h₂
  · cases h₂
    exact hk
  · simp only [Bool.false_eq_true, if_false] at h₂
    cases h₂
    exact hk.trans ⟨rfl, rfl, rfl⟩

/-- Nor does the end of this line. -/
theorem dollar_kept (h : s.cmdcnt ≤ 1) : Kept s s.dollar := by
  have hrounds : s.rounds = 1 := by
    unfold rounds
    split
    · omega
    · rfl
  unfold dollar
  rw [hrounds]
  unfold dollarLoop
  dsimp only
  rw [if_pos (by omega)]
  exact ⟨rfl, rfl, rfl⟩

/-! ## One key -/

theorem saveLine_ready (s : Ed) : Ready s s.saveLine := by
  unfold saveLine
  dsimp only
  split <;> rfl

theorem rememberCmd_ready (s : Ed) (c : Int) : Ready s (s.rememberCmd c) := by
  unfold rememberCmd
  split <;> rfl

/-- One round of the loop, around what the key itself does. -/
theorem editStep_parts (h : s.editStep = some s') :
    ∃ c u v o w o' x, s.getOneChar = some (c, u) ∧ Ready s v ∧
      v.dispatch (doCmdWith fun _ _ => none) c o = some (o', w) ∧ w.epilogue c o' = some x ∧
      Idle x s' := by
  obtain ⟨x, hx, htail⟩ := Option.bind_eq_some_iff.mp h
  obtain ⟨⟨c, u⟩, hkey, hcmd⟩ := Option.bind_eq_some_iff.mp hx
  obtain ⟨v, o, w, hoff, hdispatch, hend⟩ := doCmdWith_parts hcmd
  have hready : Ready s v := by
    have hmark : Ready ((u.saveLine).rememberCmd c)
        { (u.saveLine).rememberCmd c with keepIndex := false, cmdError := false } := rfl
    exact (((getOneChar_idle hkey).ready.trans u.saveLine_ready).trans
      (u.saveLine.rememberCmd_ready c)).trans (hmark.trans (statusOff_idle hoff).ready)
  have hidle : Idle x s' := by
    rcases ite_eq_iff.mp htail with ⟨-, ht⟩ | ⟨-, ht⟩
    · exact (refresh_idle x).trans (showStatusLine_idle ht)
    · cases ht
      exact Idle.refl _
  exact ⟨c, u, v, _, w, o, x, hkey, hready, hdispatch, hend, hidle⟩

/-- The keys of a session: backspaces and cursor keys. -/
def isSessionKey (c : Int) : Bool :=
  c == 8 || c == 127 || (isCursorKey c && c != KEYCODE_DELETE)

/-- Keys whose movement commits the queue first: all but up, down and the end of this line. -/
def Commits (s : Ed) (c : Int) : Prop :=
  c ≠ KEYCODE_UP ∧ c ≠ KEYCODE_DOWN ∧ (c = KEYCODE_END → 1 < s.cmdcnt)

/-- ESC removes the indentation of this line. -/
def LeavesIndent (s : Ed) : Prop :=
  s.autoindent = true ∧ s.indentLen (s.beginLine s.dot) ≠ 0 ∧
    s.getColumn (s.beginLine s.dot + s.indentLen (s.beginLine s.dot)) = s.indentcol ∧
    s.mem (s.beginLine s.dot + s.indentLen (s.beginLine s.dot)) = NL

/-- What a key must find for the queue to stay one span that an undo restores. -/
structure Contiguous (s : Ed) (c : Int) : Prop where
  /-- A backspace takes the byte in front of the last one, and not the only one; a queue that it
  fills is not as long as the text. -/
  erase : (c = 8 ∨ c = 127) → s.text < s.dot →
    (0 < s.undoQ → s.undoQueueSpos = s.dot) ∧ s.text + 1 < s.end_ ∧
      (s.undoQ + 1 = VI_UNDO_QUEUE_MAX → s.text + VI_UNDO_QUEUE_MAX ≠ s.end_)
  /-- A queue that is committed is not as long as the text. -/
  commit : c ≠ 8 → c ≠ 127 → s.Commits c → 0 < s.undoQ → ¬ s.Stripped
  /-- An indentation that ESC removes is one byte, and not all but a newline. -/
  indent : c = 27 → s.LeavesIndent →
    s.indentLen (s.beginLine s.dot) = 1 ∧ s.text + 2 ≠ s.end_

instance (s : Ed) (c : Int) : Decidable (s.Commits c) := inferInstanceAs (Decidable (_ ∧ _ ∧ _))

instance (s : Ed) : Decidable s.LeavesIndent := inferInstanceAs (Decidable (_ ∧ _ ∧ _ ∧ _))

instance (s : Ed) : Decidable s.Stripped := inferInstanceAs (Decidable (_ = _))

set_option synthInstance.maxSize 512 in
instance (s : Ed) (c : Int) : Decidable (s.Contiguous c) :=
  decidable_of_iff
    (((c = 8 ∨ c = 127) → s.text < s.dot → (0 < s.undoQ → s.undoQueueSpos = s.dot) ∧
        s.text + 1 < s.end_ ∧
          (s.undoQ + 1 = VI_UNDO_QUEUE_MAX → s.text + VI_UNDO_QUEUE_MAX ≠ s.end_)) ∧
      (c ≠ 8 → c ≠ 127 → s.Commits c → 0 < s.undoQ → ¬ s.Stripped) ∧
      (c = 27 → s.LeavesIndent → s.indentLen (s.beginLine s.dot) = 1 ∧ s.text + 2 ≠ s.end_))
    ⟨fun ⟨herase, hcommit, hindent⟩ => ⟨herase, hcommit, hindent⟩,
      fun h => ⟨h.erase, h.commit, h.indent⟩⟩

/-- Insert mode from `s₀` on, while the keys typed are backspaces and cursor keys that find what
`ok` says. -/
inductive Session (ok : Ed → Int → Prop) (s₀ : Ed) : Ed → Prop where
  | start : Session ok s₀ s₀
  | key {s t u : Ed} {c : Int} (h : Session ok s₀ s) (typed : s.getOneChar = some (c, u))
      (hc : isSessionKey c = true) (hok : ok s c) (run : s.editStep = some t) : Session ok s₀ t

/-- What a session keeps. -/
structure Editing (l : List UInt8) (st : List UndoObject) (s : Ed) : Prop where
  owes : Owes l st s
  insert : s.cmdMode = .insert
  nonempty : s.text < s.end_
  text_le_dot : s.text ≤ s.dot
  dot_le_end : s.dot ≤ s.end_

theorem Owes.congr {l : List UInt8} {st : List UndoObject} {s t : Ed} (h : Owes l st s)
    (hb : t.toBuf = s.toBuf) (hu : t.toUndos = s.toUndos) : Owes l st t := by
  have hw : t.whole = s.whole := by
    unfold whole queuedBytes
    rw [hb, hu]
  obtain ⟨hfits, hsize, hlt, hqueued, hpushed⟩ := h
  refine ⟨by rw [hb]; exact hfits, by rw [hb]; exact hsize, by rw [hu]; exact hlt, ?_, ?_⟩
  · rw [hb, hu]
    exact hqueued
  · rw [hw, hb, hu]
    exact hpushed

theorem Owes.looked {l : List UInt8} {st : List UndoObject} {s t : Ed} (h : Owes l st s)
    (hl : Looked s t) (hlong : 0 < s.undoQ → ¬ s.Stripped) : Owes l st t := by
  rcases hl.undos with hu | hu
  · exact h.congr hl.buf hu
  · have hbuf : s.undoQueueCommit.toBuf = s.toBuf := by rw [undoQueueCommit_eq]
    exact (h.commit hlong).congr (hl.buf.trans hbuf.symm) hu

/-- A backspace of a session. -/
theorem insertKey_erase {l : List UInt8} {st : List UndoObject} {c : Int} (h : Editing l st s)
    (hc : c = 8 ∨ c = 127) (hok : s.Contiguous c) (hrun : s.insertKey c = some s') :
    Owes l st s' ∧ s'.cmdMode = .insert ∧ s'.text < s'.end_ := by
  have herase : s.insertKey c =
      some { (leaveIndent (s.eraseChar s.dot)).2 with dot := (leaveIndent (s.eraseChar s.dot)).1 } := by
    rcases hc with rfl | rfl <;> rfl
  rw [herase] at hrun
  obtain rfl := Option.some.inj hrun
  by_cases hdot : s.text < s.dot
  · obtain ⟨hspan, hnot, hlong⟩ := hok.erase hc hdot
    have h₀ : s.text ≤ s.dot - 1 := by omega
    have h₁ : s.dot - 1 < s.end_ := by
      have := h.dot_le_end
      omega
    have howes := h.owes.erase h₀ h₁ (fun hq => by rw [hspan hq]; omega) fun hfull hstrip => by
      refine hlong hfull ?_
      have hstrip : s.text + (s.undoQ + 1 : Nat) = s.end_ := hstrip
      omega
    have hst := textHoleDelete_state s h₀ (Int.le_refl _) h₁ .queued
    rw [eraseChar_of_lt hdot]
    refine ⟨howes.congr rfl rfl, ?_, ?_⟩
    · change (s.textHoleDelete (s.dot - 1) (s.dot - 1) .queued).2.cmdMode = _
      rw [hst]
      exact h.insert
    · change (s.textHoleDelete (s.dot - 1) (s.dot - 1) .queued).2.text <
        (s.textHoleDelete (s.dot - 1) (s.dot - 1) .queued).2.end_
      rw [hst]
      dsimp only
      omega
  · have hsame : s.eraseChar s.dot = (s.dot, s) := by
      unfold eraseChar
      rw [if_neg hdot]
    rw [hsame]
    exact ⟨h.owes.congr rfl rfl, h.insert, h.nonempty⟩

/-- A cursor key is looked up as in command mode. -/
theorem dispatch_cursor {motion : Int → Ed → Option Ed} {c o : Int} (hm : s.cmdMode = .insert)
    (hc : isCursorKey c = true) (hdel : c ≠ KEYCODE_DELETE) :
    s.dispatch motion c o = (s.look c (caseOf c)).map fun s => (o, s) := by
  unfold dispatch keyCommand
  rw [if_pos hc, if_neg (by simp [hm])]
  simp only [isCursorKey, Bool.or_eq_true, beq_iff_eq] at hc
  rcases hc with (((((((rfl | rfl) | rfl) | rfl) | rfl) | rfl) | rfl) | rfl) | rfl
  all_goals first | rfl | exact absurd rfl hdel

/-- A cursor key of a session. -/
theorem look_cursor {l : List UInt8} {st : List UndoObject} {c : Int} (h : Owes l st s)
    (hc : isCursorKey c = true) (hok : s.Contiguous c) (hrun : s.look c (caseOf c) = some s') :
    Owes l st s' := by
  by_cases hcommit : s.Commits c
  · refine h.looked (look_text hrun) (hok.commit ?_ ?_ hcommit)
    · rintro rfl
      exact absurd hc (by decide)
    · rintro rfl
      exact absurd hc (by decide)
  · have hkept : Kept s s' := by
      unfold Commits at hcommit
      by_cases hup : c = KEYCODE_UP
      · subst hup
        exact moveLines_kept hrun
      · by_cases hdown : c = KEYCODE_DOWN
        · subst hdown
          exact moveLines_kept hrun
        · obtain ⟨rfl, hcnt⟩ : c = KEYCODE_END ∧ s.cmdcnt ≤ 1 := by
            by_contra hno
            exact hcommit ⟨hup, hdown, fun he => by
              by_contra hcnt
              exact hno ⟨he, by omega⟩⟩
          have hdollar : some s.dollar = some s' := hrun
          rw [← Option.some.inj hdollar]
          exact dollar_kept hcnt
    exact h.congr hkept.buf hkept.undos

/-- ESC before it looks at the indentation. -/
def escaped (s : Ed) : Ed :=
  { s with
    cmdMode := .command
    toUndos := s.undoQueueCommit.toUndos
    cmdcnt := 0
    ydreg := 26
    adding2q := false }

theorem stopInsert_state (s : Ed) (undo : Undo) :
    (s.LeavesIndent → (s.stopInsert (s.beginLine s.dot) s.dot undo).2 =
      (s.escaped.textHoleDelete (s.beginLine s.dot)
        (s.beginLine s.dot + s.indentLen (s.beginLine s.dot) - 1) undo).2) ∧
    (¬ s.LeavesIndent → (s.stopInsert (s.beginLine s.dot) s.dot undo).2 = s.escaped) := by
  have hundo : ({ s with cmdMode := .command } : Ed).undoQueueCommit.toUndos =
      s.undoQueueCommit.toUndos := undoQueueCommit_congr rfl rfl
  have hcommit := (undoQueueCommit_eq ({ s with cmdMode := .command } : Ed)).trans
    (congrArg (fun u => ({ s with cmdMode := .command, toUndos := u } : Ed)) hundo)
  have hstop : s.stopInsert (s.beginLine s.dot) s.dot undo =
      if s.autoindent = true ∧ s.indentLen (s.beginLine s.dot) ≠ 0 ∧
          s.getColumn (s.beginLine s.dot + s.indentLen (s.beginLine s.dot)) = s.indentcol ∧
          s.mem (s.beginLine s.dot + s.indentLen (s.beginLine s.dot)) = NL then
        (s.beginLine s.dot, (s.escaped.textHoleDelete (s.beginLine s.dot)
          (s.beginLine s.dot + s.indentLen (s.beginLine s.dot) - 1) undo).2)
      else (if s.dot > s.text ∧ s.mem (s.dot - 1) ≠ NL then s.dot - 1 else s.dot, s.escaped) := by
    unfold stopInsert
    rw [hcommit]
    rfl
  rw [hstop]
  constructor
  · intro hleaves
    unfold LeavesIndent at hleaves
    rw [if_pos hleaves]
  · intro hstays
    unfold LeavesIndent at hstays
    rw [if_neg hstays]

/-- ESC at the end of a session. -/
theorem insertKey_escape {l : List UInt8} {st : List UndoObject} (h : Editing l st s)
    (hok : s.Contiguous 27) (hrun : s.insertKey 27 = some s') :
    Owes l st s' ∧ (0 < s'.undoQ → ¬ s'.Stripped) ∧ s'.text < s'.end_ := by
  have hesc : s.insertKey 27 = some
      { (leaveIndent (s.stopInsert (s.beginLine s.dot) s.dot .queued)).2 with
        dot := (leaveIndent (s.stopInsert (s.beginLine s.dot) s.dot .queued)).1 } := rfl
  rw [hesc] at hrun
  obtain rfl := Option.some.inj hrun
  have hcommits : s.Commits 27 := ⟨by decide, by decide, fun he => absurd he (by decide)⟩
  have hbuf : s.undoQueueCommit.toBuf = s.toBuf := by rw [undoQueueCommit_eq]
  have howes : Owes l st s.escaped :=
    (h.owes.commit (hok.commit (by decide) (by decide) hcommits)).congr hbuf.symm rfl
  have hq : s.escaped.undoQ = 0 := s.undoQueueCommit_undoQ
  obtain ⟨hremoved, hstays⟩ := s.stopInsert_state .queued
  have hstop : Owes l st (s.stopInsert (s.beginLine s.dot) s.dot .queued).2 ∧
      (0 < (s.stopInsert (s.beginLine s.dot) s.dot .queued).2.undoQ →
        ¬ (s.stopInsert (s.beginLine s.dot) s.dot .queued).2.Stripped) ∧
      (s.stopInsert (s.beginLine s.dot) s.dot .queued).2.text <
        (s.stopInsert (s.beginLine s.dot) s.dot .queued).2.end_ := by
    by_cases hleaves : s.LeavesIndent
    · obtain ⟨hlen, hall⟩ := hok.indent rfl hleaves
      have h₀ : s.escaped.text ≤ s.beginLine s.dot := s.text_le_beginLine h.text_le_dot
      have hlt : s.beginLine s.dot < s.end_ - 1 := by
        by_contra hge
        have := indentLen_of_ge (s := s.toBuf) (p := s.beginLine s.dot) (by omega)
        omega
      have h₁ : s.beginLine s.dot < s.escaped.end_ := by
        change s.beginLine s.dot < s.end_
        omega
      have hdel : 0 < s.escaped.undoQ → s.escaped.undoQueueState = .del := fun h => by omega
      obtain ⟨hundo, htext, -, hend, -⟩ := textHoleDelete_queued h₀ h₁ hdel
      have herase := howes.erase h₀ h₁ (fun h => by omega) fun hfull => by
        rw [hq] at hfull
        exact absurd hfull (by decide)
      have hone : (s.escaped.queueDeleted (s.beginLine s.dot)).undoQ = 1 := by
        rw [queueDeleted_def, if_neg (by rw [hq]; decide)]
        change s.escaped.undoQ + 1 = 1
        rw [hq]
      rw [hremoved hleaves, hlen, show s.beginLine s.dot + 1 - 1 = s.beginLine s.dot by omega]
      have htext' : s.escaped.text = s.text := rfl
      have hend' : s.escaped.end_ = s.end_ := rfl
      refine ⟨herase, fun _ hstrip => ?_, by omega⟩
      unfold Stripped at hstrip
      rw [congrArg Undos.undoQ hundo, hone, htext, hend] at hstrip
      omega
    · rw [hstays hleaves]
      exact ⟨howes, fun hpos => by omega, h.nonempty⟩
  exact ⟨hstop.1.congr rfl rfl, hstop.2.1, hstop.2.2⟩

/-- What a key of a session finds is still there when it is acted on. -/
theorem Contiguous.ready {t : Ed} {c : Int} (h : s.Contiguous c) (hr : Ready s t) :
    t.Contiguous c := by
  unfold Ready at hr
  rw [hr]
  exact ⟨h.erase, h.commit, h.indent⟩

theorem Editing.ready {l : List UInt8} {st : List UndoObject} {t : Ed} (h : Editing l st s)
    (hr : Ready s t) : Editing l st t := by
  have howes := h.owes.congr hr.kept.buf hr.kept.undos
  unfold Ready at hr
  rw [hr] at howes ⊢
  exact ⟨howes, h.insert, h.nonempty, h.text_le_dot, h.dot_le_end⟩

/-- **Step lemma**: a key of a session. -/
theorem Editing.key {l : List UInt8} {st : List UndoObject} {c : Int} {t u : Ed}
    (h : Editing l st s) (typed : s.getOneChar = some (c, u)) (hc : isSessionKey c = true)
    (hok : s.Contiguous c) (run : s.editStep = some t) : Editing l st t := by
  obtain ⟨c', u', v, o, w, o', x, hkey, hready, hdispatch, hend, hidle⟩ := editStep_parts run
  obtain ⟨rfl, rfl⟩ := Prod.mk.inj (Option.some.inj (typed.symm.trans hkey))
  have hv := h.ready hready
  have hokv := hok.ready hready
  have hw : Owes l st w ∧ w.cmdMode = .insert ∧ w.text < w.end_ := by
    unfold isSessionKey at hc
    by_cases hcursor : isCursorKey c = true
    · have hdel : c ≠ KEYCODE_DELETE := by
        rintro rfl
        exact absurd hc (by decide)
      rw [dispatch_cursor hv.insert hcursor hdel] at hdispatch
      obtain ⟨w', hw', e⟩ := Option.map_eq_some_iff.mp hdispatch
      cases e
      have hl := look_text hw'
      refine ⟨look_cursor hv.owes hcursor hokv hw', hl.cmdMode.trans hv.insert, ?_⟩
      rw [hl.text, hl.end_]
      exact hv.nonempty
    · have herase : c = 8 ∨ c = 127 := by
        simpa [hcursor] using hc
      unfold dispatch at hdispatch
      rw [if_neg hcursor, hv.insert] at hdispatch
      obtain ⟨w', hw', e⟩ := Option.map_eq_some_iff.mp hdispatch
      cases e
      exact insertKey_erase hv herase hokv hw'
  obtain ⟨howes, hinsert, hnonempty⟩ := hw
  have hkept := (epilogue_kept (by omega) hend).trans hidle.kept
  obtain ⟨h₁, h₂, h₃, -⟩ := epilogue_cursor hend hnonempty.le
  refine ⟨howes.congr hkept.buf hkept.undos, hkept.cmdMode.trans hinsert, ?_, ?_, ?_⟩
  · rw [hidle.looked.text, hidle.looked.end_]
    exact h₁
  · rw [hidle.looked.text, hidle.dot]
    exact h₂
  · rw [hidle.looked.end_, hidle.dot]
    exact h₃

/-- **Run lemma.** -/
theorem Session.editing {l : List UInt8} {st : List UndoObject} {s₀ t : Ed}
    (h : Session Contiguous s₀ t) (h₀ : Editing l st s₀) : Editing l st t := by
  induction h with
  | start => exact h₀
  | key _ typed hc hok run ih => exact ih.key typed hc hok run

/-- The ESC that ends a session. -/
theorem Editing.escape {l : List UInt8} {t u : Ed} {s₀ : Ed} (h : Editing l s₀.undoStack s)
    (typed : s.getOneChar = some (27, u)) (hok : s.Contiguous 27) (run : s.editStep = some t) :
    (commitAndPop s₀ t).bytes = l := by
  obtain ⟨c, u', v, o, w, o', x, hkey, hready, hdispatch, hend, hidle⟩ := editStep_parts run
  obtain ⟨rfl, rfl⟩ := Prod.mk.inj (Option.some.inj (typed.symm.trans hkey))
  have hv := h.ready hready
  unfold dispatch at hdispatch
  rw [if_neg (by decide), hv.insert] at hdispatch
  obtain ⟨w', hw', e⟩ := Option.map_eq_some_iff.mp hdispatch
  cases e
  obtain ⟨howes, hlong, hnonempty⟩ := insertKey_escape hv (hok.ready hready) hw'
  have hkept := (epilogue_kept (by omega) hend).trans hidle.kept
  refine (howes.congr hkept.buf hkept.undos).popped ?_
  unfold Stripped
  rw [hkept.buf, hkept.undos]
  exact hlong

/-- **The queue is one span.**  As long as each queued deletion takes the byte in front of the last
one, or starts a queue of its own, and the text stays in place, the queued bytes are those removed
at `undo_queue_spos - text`; and a session of backspaces and cursor keys whose keys find the queue
so is undone to the original text. -/
theorem queueSpan_session (s : Ed) :
    (∀ (env : Env) (rows columns : Nat) (log : List (Int × UInt8)),
      Relation.ReflTransGen Removes (mainStart env rows columns, []) (s, log) →
      s.undoQueueState = .del → 0 < s.undoQ → log.length = s.undoQ ∧ log = s.span) ∧
    ∀ s₀ t u : Ed, s₀.Fits → s₀.undoQ = 0 → s₀.cmdMode = .insert → s₀.text < s₀.end_ →
      s₀.text ≤ s₀.dot → s₀.dot ≤ s₀.end_ → Session Contiguous s₀ s →
      s.getOneChar = some (27, u) → s.Contiguous 27 → s.editStep = some t →
      (commitAndPop s₀ t).bytes = s₀.bytes := by
  constructor
  · intro env rows columns log h hdel _
    have hrec : Spanned s log := Removes.run h (by simp [mainStart]) hdel
    refine ⟨?_, hrec.span⟩
    rw [hrec.span]
    simp [span]
  · intro s₀ t u hf hq hm hne h₀ h₁ hs typed hok run
    have hstart : Editing s₀.bytes s₀.undoStack s₀ := ⟨Owes.start hf hq, hm, hne, h₀, h₁⟩
    exact (hs.editing hstart).escape typed hok run

/-- Insert mode at `p` of a text, with these keys to come. -/
def inserting (l : List UInt8) (p : Int) (keys : List Int) : Ed :=
  { EditOp.holding l with
    dot := p
    cmdMode := .insert
    undoQueueState := .empty
    rows := 24
    columns := 80
    tabstop := 8
    env := { Env.still with keys := keys.map fun c => ⟨c, false⟩ } }

/-- What is typed next. -/
def nextKey (s : Ed) : Option Int := s.getOneChar.map (·.1)

theorem nextKey_some {c : Int} (h : s.nextKey = some c) : ∃ u, s.getOneChar = some (c, u) := by
  obtain ⟨⟨c', u⟩, hu, e⟩ := Option.map_eq_some_iff.mp h
  cases e
  exact ⟨u, hu⟩

/-- Behind `abcd` two backspaces, the left arrow, a backspace and ESC. -/
theorem queueSpan_session_one :
    ∃ s t u, Session Contiguous (inserting [97, 98, 99, 100, NL] 4100 [8, 8, KEYCODE_LEFT, 8, 27]) s ∧
      s.bytes = [98, NL] ∧ s.getOneChar = some (27, u) ∧ s.Contiguous 27 ∧ s.editStep = some t ∧
      (commitAndPop (inserting [97, 98, 99, 100, NL] 4100 [8, 8, KEYCODE_LEFT, 8, 27]) t).bytes =
        [97, 98, 99, 100, NL] := by
  let typing (s : Ed) (c : Int) : Prop := s.nextKey = some c ∧ s.Contiguous c ∧ s.editStep.isSome
  let s₀ := inserting [97, 98, 99, 100, NL] 4100 [8, 8, KEYCODE_LEFT, 8, 27]
  have key {s : Ed} {c : Int} (h : Session Contiguous s₀ s) (ht : typing s c)
      (hc : isSessionKey c = true) : ∃ t, s.editStep = some t ∧ Session Contiguous s₀ t := by
    obtain ⟨hkey, hok, hsome⟩ := ht
    obtain ⟨u, hu⟩ := nextKey_some hkey
    obtain ⟨t, hrun⟩ := Option.isSome_iff_exists.mp hsome
    exact ⟨t, hrun, .key h hu hc hok hrun⟩
  have h₀ : typing s₀ 8 := by decide +kernel
  have h₁ : ∀ s ∈ s₀.editStep, typing s 8 := by decide +kernel
  have h₂ : ∀ s ∈ s₀.editStep.bind editStep, typing s KEYCODE_LEFT := by decide +kernel
  have h₃ : ∀ s ∈ (s₀.editStep.bind editStep).bind editStep, typing s 8 := by decide +kernel
  have h₄ : ∀ s ∈ ((s₀.editStep.bind editStep).bind editStep).bind editStep,
      typing s 27 ∧ s.bytes = [98, NL] := by decide +kernel
  obtain ⟨s₁, e₁, hs₁⟩ := key .start h₀ (by decide)
  rw [e₁, Option.bind_some] at h₂ h₃ h₄
  obtain ⟨s₂, e₂, hs₂⟩ := key hs₁ (h₁ s₁ e₁) (by decide)
  rw [e₂, Option.bind_some] at h₃ h₄
  obtain ⟨s₃, e₃, hs₃⟩ := key hs₂ (h₂ s₂ e₂) (by decide)
  rw [e₃, Option.bind_some] at h₄
  obtain ⟨s₄, e₄, hs₄⟩ := key hs₃ (h₃ s₃ e₃) (by decide)
  obtain ⟨⟨hkey, hok, hsome⟩, hleft⟩ := h₄ s₄ e₄
  obtain ⟨u, hu⟩ := nextKey_some hkey
  obtain ⟨t, ht⟩ := Option.isSome_iff_exists.mp hsome
  refine ⟨s₄, t, u, hs₄, hleft, hu, hok, ht, ?_⟩
  have hbytes := (queueSpan_session s₄).2 s₀ t u ⟨by decide, by decide⟩ rfl rfl (by decide)
    (by decide) (by decide) hs₄ hu hok ht
  rw [hbytes]
  decide +kernel

/-- Behind `cd` on the second line: a backspace, up, a backspace and ESC. -/
theorem queueSpan_up :
    ¬ ∀ s₀ s t u : Ed, s₀.Fits → s₀.undoQ = 0 → s₀.cmdMode = .insert → s₀.text < s₀.end_ →
      s₀.text ≤ s₀.dot → s₀.dot ≤ s₀.end_ → Session (fun _ _ => True) s₀ s →
      s.getOneChar = some (27, u) → s.editStep = some t →
      (commitAndPop s₀ t).bytes = s₀.bytes := by
  intro h
  obtain ⟨s₀, hs₀⟩ : ∃ s₀, s₀ = inserting [97, 98, NL, 99, 100, NL] 4101 [8, KEYCODE_UP, 8, 27] :=
    ⟨_, rfl⟩
  have h₁ : s₀.nextKey = some 8 ∧ s₀.editStep.isSome ∧ s₀.bytes = [97, 98, NL, 99, 100, NL] := by
    rw [hs₀]
    decide +kernel
  have h₂ : ∀ s₁ ∈ s₀.editStep, s₁.nextKey = some KEYCODE_UP ∧ s₁.editStep.isSome ∧
      ∀ s₂ ∈ s₁.editStep, s₂.nextKey = some 8 ∧ s₂.editStep.isSome ∧
        ∀ s₃ ∈ s₂.editStep, s₃.nextKey = some 27 ∧ s₃.editStep.isSome ∧
          ∀ t ∈ s₃.editStep, (commitAndPop s₀ t).bytes = [97, 100, 98, NL, 99, NL] := by
    rw [hs₀]
    decide +kernel
  have hfits : s₀.Fits := by
    rw [hs₀]
    exact ⟨by decide, by decide⟩
  have hstart : s₀.undoQ = 0 ∧ s₀.cmdMode = .insert ∧ s₀.text < s₀.end_ ∧ s₀.text ≤ s₀.dot ∧
      s₀.dot ≤ s₀.end_ := by
    rw [hs₀]
    decide
  obtain ⟨hkey₀, hsome₀, hbytes⟩ := h₁
  obtain ⟨s₁, hs₁⟩ := Option.isSome_iff_exists.mp hsome₀
  obtain ⟨hkey₁, hsome₁, h₂⟩ := h₂ s₁ hs₁
  obtain ⟨s₂, hs₂⟩ := Option.isSome_iff_exists.mp hsome₁
  obtain ⟨hkey₂, hsome₂, h₂⟩ := h₂ s₂ hs₂
  obtain ⟨s₃, hs₃⟩ := Option.isSome_iff_exists.mp hsome₂
  obtain ⟨hkey₃, hsome₃, h₂⟩ := h₂ s₃ hs₃
  obtain ⟨t, ht⟩ := Option.isSome_iff_exists.mp hsome₃
  obtain ⟨u₀, hu₀⟩ := nextKey_some hkey₀
  obtain ⟨u₁, hu₁⟩ := nextKey_some hkey₁
  obtain ⟨u₂, hu₂⟩ := nextKey_some hkey₂
  obtain ⟨u₃, hu₃⟩ := nextKey_some hkey₃
  have hsession : Session (fun _ _ => True) s₀ s₃ :=
    .key (.key (.key .start hu₀ (by decide) trivial hs₁) hu₁ (by decide) trivial hs₂) hu₂
      (by decide) trivial hs₃
  have hgood := h s₀ s₃ t u₃ hfits hstart.1 hstart.2.1 hstart.2.2.1 hstart.2.2.2.1 hstart.2.2.2.2
    hsession hu₃ ht
  rw [h₂ t ht, hbytes] at hgood
  exact absurd hgood (by decide)

end Ed

end Evim
