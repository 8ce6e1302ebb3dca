import Ewokos.Evim.Queue

/-!
# evim: backspaces and the undo queue

Backspaces queue the bytes they delete, newest in front; the queue is turned into one object when it
is full or something else happens.

* `Owes` — what is queued and what has been pushed since lead back to the text at the start.
  `Owes.erase` and `Owes.commit` keep it, unless the object is as long as the text that is left:
  then `undo_push` strips a byte, as if the deletion had emptied the buffer.
* `lengths_pops` — a pop makes the text longer by the length of its object, so a byte once stripped
  is lost.

Main result: `backspaces_undone_iff`.
-/

set_option autoImplicit false

namespace Evim

open Cells UndoLog

namespace Ed

/-! ## Pops of deletions -/

/-- An object on top that is not chained is popped alone. -/
theorem undoPop_single {t : Ed} {e : UndoObject} {rest : List UndoObject} (hq : t.undoQ = 0)
    (hst : t.undoStack = e :: rest) (hch : e.entry.chained = false) :
    t.undoPop = t.popObject e rest := by
  unfold undoPop
  rw [undoPopFrom_cons hq hst, hch]
  rfl

/-- So is a deletion. -/
theorem undoPop_del {t : Ed} {e : UndoObject} {rest : List UndoObject} (hq : t.undoQ = 0)
    (hst : t.undoStack = e :: rest) (he : e.uType = .del) : t.undoPop = t.popObject e rest :=
  undoPop_single hq hst (by unfold UndoObject.entry; rw [he])

/-- A popped deletion makes the text longer by its length, whatever it holds. -/
theorem popObject_length {t : Ed} {e : UndoObject} (rest : List UndoObject) (he : e.uType = .del) :
    (t.popObject e rest).end_ - (t.popObject e rest).text = t.end_ - t.text + e.length := by
  have hmake := textHoleMake_end t (t.text + e.start) e.length
  have htext := textHoleMake_text t (t.text + e.start) e.length
  have happly : (t.undoApply e).end_ - (t.undoApply e).text =
      (t.textHoleMake (t.text + e.start) e.length).2.end_ -
        (t.textHoleMake (t.text + e.start) e.length).2.text := by
    unfold undoApply
    rw [he]
    rfl
  rw [congrArg Buf.end_ (popObject_buf t e rest), congrArg Buf.text (popObject_buf t e rest),
    happly]
  omega

/-- So do several. -/
theorem lengths_pops : ∀ (es : List UndoObject) {t : Ed} {rest : List UndoObject}, t.undoQ = 0 →
    t.undoStack = es ++ rest → (∀ e ∈ es, e.uType = .del) →
    (undoPop^[es.length] t).end_ - (undoPop^[es.length] t).text =
      t.end_ - t.text + (es.map (·.length)).sum
  | [], t, rest, _, _, _ => by simp
  | e :: es, t, rest, hq, hst, hdel => by
    have he := hdel e (List.mem_cons_self ..)
    have hpop : t.undoPop = t.popObject e (es ++ rest) := undoPop_del hq hst he
    have hlen := popObject_length (t := t) (es ++ rest) he
    rw [List.length_cons, Function.iterate_succ_apply, hpop,
      lengths_pops es ((t.popObject_sameQueue e (es ++ rest)).count.trans hq) rfl fun e he =>
        hdel e (List.mem_cons_of_mem _ he), hlen, List.map_cons, List.sum_cons]
    push_cast
    omega

/-- Deletions that fit the text are all put back. -/
theorem pops_restore : ∀ (es : List UndoObject) {t : Ed} {rest : List UndoObject}, t.Fits →
    t.undoQ = 0 → t.undoStack = es ++ rest → (∀ e ∈ es, e.uType = .del) →
    StackOk t.textSize es t.bytes →
    (undoPop^[es.length] t).bytes = unwind UndoObject.entry es t.bytes ∧
      (undoPop^[es.length] t).undoStack = rest
  | [], t, rest, _, _, hst, _, _ => ⟨rfl, hst⟩
  | e :: es, t, rest, hf, hq, hst, hdel, ⟨hsnd, hsize, hok⟩ => by
    have hpop : t.undoPop = t.popObject e (es ++ rest) :=
      undoPop_del hq hst (hdel e (List.mem_cons_self ..))
    have hr := undoApply_reverted hf hsnd hsize
    have hbuf := popObject_buf t e (es ++ rest)
    have hbytes : (t.popObject e (es ++ rest)).bytes = e.entry.change.revert t.bytes := by
      rw [hbuf, hr.bytes]
    have hts : (t.popObject e (es ++ rest)).textSize = t.textSize := by
      rw [hbuf, hr.textSize]
    rw [List.length_cons, Function.iterate_succ_apply, hpop]
    have hst' : (t.popObject e (es ++ rest)).undoStack = es ++ rest := rfl
    have ih := pops_restore es (by rw [hbuf]; exact hr.fits)
      ((t.popObject_sameQueue e (es ++ rest)).count.trans hq) hst'
      (fun e he => hdel e (List.mem_cons_of_mem _ he)) (by rw [hts, hbytes]; exact hok)
    rw [hbytes] at ih
    exact ih

/-! ## The queue and the text -/

/-- The bytes in the queue, in the order they had in the text. -/
def queuedBytes (s : Ed) : List UInt8 :=
  (List.range s.undoQ).map fun i => s.undoQueue (VI_UNDO_QUEUE_MAX - s.undoQ + i)

/-- The text with the queued bytes put back. -/
def whole (s : Ed) : List UInt8 :=
  s.bytes.take (s.undoQueueSpos - s.text).toNat ++ s.queuedBytes ++
    s.bytes.drop (s.undoQueueSpos - s.text).toNat

/-- The queue is as long as the text that is left: its commit strips a byte. -/
def Stripped (s : Ed) : Prop := s.text + s.undoQ = s.end_

theorem length_queuedBytes (s : Ed) : s.queuedBytes.length = s.undoQ := by
  simp [queuedBytes]

theorem whole_of_empty {s : Ed} (h : s.undoQ = 0) : s.whole = s.bytes := by
  simp [whole, queuedBytes, h]

/-- The objects pushed since the start, and the queue, lead back to the bytes `l` and the stack
`st`. -/
structure Owes (l : List UInt8) (st : List UndoObject) (t : Ed) : Prop where
  fits : t.Fits
  size : (l.length : Int) < t.textSize
  lt : t.undoQ < VI_UNDO_QUEUE_MAX
  queued : 0 < t.undoQ →
    t.undoQueueState = .del ∧ t.text ≤ t.undoQueueSpos ∧ t.undoQueueSpos ≤ t.end_
  pushed : ∃ es, t.undoStack = es ++ st ∧ (∀ e ∈ es, e.uType = .del) ∧
    StackOk t.textSize es t.whole ∧ unwind UndoObject.entry es t.whole = l

theorem Owes.start {s : Ed} (h : s.Fits) (hq : s.undoQ = 0) : Owes s.bytes s.undoStack s := by
  have hlen := Buf.length_bytes s.toBuf
  have h₁ := h.text_le_end
  have h₂ := h.lt_size
  refine ⟨h, by omega, by rw [hq]; decide, fun h => by omega, [], rfl, by simp, trivial, ?_⟩
  exact whole_of_empty hq

/-- Deletions only add bytes when they are put back. -/
theorem length_unwind_del : ∀ (es : List UndoObject) (l : List UInt8), (∀ e ∈ es, e.uType = .del) →
    l.length ≤ (unwind UndoObject.entry es l).length
  | [], l, _ => le_refl _
  | e :: es, l, h => by
    refine le_trans ?_ (length_unwind_del es _ fun e he => h e (List.mem_cons_of_mem _ he))
    have he : e.entry.change = .del e.start.toNat e.undoText := by
      unfold UndoObject.entry
      rw [h e (List.mem_cons_self ..)]
    rw [he]
    simp only [Change.revert, List.length_append, List.length_take, List.length_drop]
    omega

/-- What is owed when the queue has become the object on top. -/
theorem Owes.pushObject {l : List UInt8} {st : List UndoObject} {s t : Ed} (h : Owes l st s)
    (start : Nat) (saved : List UInt8) (hf : t.Fits) (hsize : t.textSize = s.textSize)
    (hq : t.undoQ = 0) (hstart : start ≤ t.bytes.length)
    (hstack : t.undoStack = ⟨start, saved.length, .del, saved⟩ :: s.undoStack)
    (hwhole : t.bytes.take start ++ saved ++ t.bytes.drop start = s.whole) : Owes l st t := by
  obtain ⟨es, hes, hdel, hok, hun⟩ := h.pushed
  have hle : s.whole.length ≤ l.length := by
    rw [← hun]
    exact length_unwind_del es s.whole hdel
  have hs := h.size
  have hrevert : (UndoObject.entry ⟨start, saved.length, .del, saved⟩).change.revert t.bytes =
      s.whole := hwhole
  refine ⟨hf, by rw [hsize]; exact h.size, by rw [hq]; decide, fun h => by omega,
    ⟨start, saved.length, .del, saved⟩ :: es, ?_, ?_, ?_, ?_⟩
  · rw [hstack, hes]
    rfl
  · intro e he
    rcases List.mem_cons.mp he with rfl | he
    · rfl
    · exact hdel e he
  · rw [whole_of_empty hq, hsize]
    refine ⟨⟨Int.natCast_nonneg start, ?_, rfl⟩, ?_, ?_⟩
    · simpa using hstart
    · rw [hrevert]
      omega
    · rw [hrevert]
      exact hok
  · rw [whole_of_empty hq]
    change unwind UndoObject.entry es (Change.revert _ t.bytes) = l
    rw [hrevert]
    exact hun

/-- The commit of queued deletions that are not as long as the text. -/
theorem undoQueueCommit_del {s : Ed} (h : 0 < s.undoQ) (hs : s.undoQueueState = .del)
    (hlong : ¬ s.Stripped) :
    s.undoQueueCommit.undoStack =
      ⟨s.undoQueueSpos - s.text, s.undoQ, .del, s.queuedBytes⟩ :: s.undoStack := by
  have htake : s.queuedBytes.take s.undoQ = s.queuedBytes :=
    List.take_of_length_le (by rw [length_queuedBytes])
  unfold Stripped at hlong
  unfold undoQueueCommit
  rw [if_pos h, hs]
  simp only [Ed.pushObject, hlong, and_false, if_false, true_or, if_true]
  rw [← htake]
  rfl

theorem Owes.commit {l : List UInt8} {st : List UndoObject} {s : Ed} (h : Owes l st s)
    (hlong : 0 < s.undoQ → ¬ s.Stripped) : Owes l st s.undoQueueCommit := by
  by_cases hq : 0 < s.undoQ
  · obtain ⟨hst, hlo, hhi⟩ := h.queued hq
    have hbuf : s.undoQueueCommit.toBuf = s.toBuf := by rw [undoQueueCommit_eq]
    have hlen := Buf.length_bytes s.toBuf
    have hstack := undoQueueCommit_del hq hst (hlong hq)
    have hspos : s.undoQueueSpos - s.text = ((s.undoQueueSpos - s.text).toNat : Int) := by omega
    have hqlen := s.length_queuedBytes
    refine h.pushObject (s.undoQueueSpos - s.text).toNat s.queuedBytes (by rw [hbuf]; exact h.fits)
      (by rw [hbuf]) (undoQueueCommit_undoQ s) ?_ ?_ ?_
    · rw [hbuf]
      omega
    · rw [hstack, ← hspos, hqlen]
    · rw [hbuf]
      rfl
  · rw [undoQueueCommit_of_empty (by omega)]
    exact h

/-! ## One backspace -/

/-- The queue with one more byte in front, before a full queue is committed. -/
def queueByte (s : Ed) (p : Int) : Ed :=
  { s with
    undoQueueState := .del
    undoQueueSpos := p
    undoQ := s.undoQ + 1
    undoQueue := Function.update s.undoQueue (VI_UNDO_QUEUE_MAX - (s.undoQ + 1)) (s.mem p) }

theorem queueDeleted_def (s : Ed) (p : Int) : s.queueDeleted p =
    if s.undoQ + 1 = VI_UNDO_QUEUE_MAX then (s.queueByte p).undoQueueCommit else s.queueByte p :=
  rfl

theorem queuedBytes_queueByte {s : Ed} (h : s.undoQ < VI_UNDO_QUEUE_MAX) (p : Int) :
    (s.queueByte p).queuedBytes = s.mem p :: s.queuedBytes := by
  unfold queuedBytes
  change (List.range (s.undoQ + 1)).map (fun i => Function.update s.undoQueue
    (VI_UNDO_QUEUE_MAX - (s.undoQ + 1)) (s.mem p) (VI_UNDO_QUEUE_MAX - (s.undoQ + 1) + i)) = _
  rw [List.range_succ_eq_map, List.map_cons, List.map_map]
  simp only [Nat.add_zero, Function.update_self]
  congr 1
  refine List.map_congr_left fun i _ => ?_
  change Function.update _ _ _ _ = _
  rw [Function.update_of_ne (by omega)]
  congr 1
  omega

/-- A queued deletion while no insertions are queued. -/
theorem undoPush_delQueued {s : Ed} (h : 0 < s.undoQ → s.undoQueueState = .del) (p : Int) :
    s.undoPush p 1 .delQueued = s.queueDeleted p := by
  simp only [undoPush]
  rw [if_neg (by decide)]
  split
  · rfl
  · rfl
  · rename_i hins
    have hq : s.undoQ = 0 := by
      by_contra hne
      rw [h (by omega)] at hins
      cases hins
    rw [undoQueueCommit_of_empty hq]

/-- A byte of the text, from its list. -/
theorem bytes_split {s : Ed} {p : Int} (h₀ : s.text ≤ p) (h₁ : p < s.end_) :
    s.bytes.take ((p - s.text).toNat + 1) = s.bytes.take (p - s.text).toNat ++ [s.mem p] := by
  have hlt : (p - s.text).toNat < s.bytes.length := by
    rw [Buf.length_bytes]
    omega
  have hget := getElem_slice s.mem s.text _ _ hlt
  rw [show s.text + ((p - s.text).toNat : Int) = p by omega] at hget
  rw [List.take_succ_eq_append_getElem hlt]
  congr 2

/-- A backspace that continues the span moves one byte from the text into the queue. -/
theorem whole_queueByte {s : Ed} {p : Int} (h₀ : s.text ≤ p) (h₁ : p < s.end_)
    (hlt : s.undoQ < VI_UNDO_QUEUE_MAX) (hspan : 0 < s.undoQ → s.undoQueueSpos = p + 1) :
    s.bytes.take (p - s.text).toNat ++ (s.queueByte p).queuedBytes ++
      s.bytes.drop ((p - s.text).toNat + 1) = s.whole := by
  have hsplit := bytes_split h₀ h₁
  rw [queuedBytes_queueByte hlt, ← List.singleton_append, ← List.append_assoc, ← hsplit]
  by_cases hq : 0 < s.undoQ
  · unfold whole
    rw [hspan hq, show (p + 1 - s.text).toNat = (p - s.text).toNat + 1 by omega]
  · have hq : s.undoQ = 0 := by omega
    rw [whole_of_empty hq]
    simp [queuedBytes, hq]

/-- What a backspace at `p` does to the queue and the text. -/
theorem textHoleDelete_queued {s : Ed} {p : Int} (h₀ : s.text ≤ p) (h₁ : p < s.end_)
    (hdel : 0 < s.undoQ → s.undoQueueState = .del) :
    (s.textHoleDelete p p .queued).2.toUndos = (s.queueDeleted p).toUndos ∧
      (s.textHoleDelete p p .queued).2.text = s.text ∧
      (s.textHoleDelete p p .queued).2.textSize = s.textSize ∧
      (s.textHoleDelete p p .queued).2.end_ = s.end_ - 1 ∧
      (s.textHoleDelete p p .queued).2.bytes =
        s.bytes.take (p - s.text).toNat ++ s.bytes.drop ((p - s.text).toNat + 1) := by
  have hst := textHoleDelete_state s h₀ (Int.le_refl p) h₁ .queued
  have hby := textHoleDelete_bytes s h₀ (Int.le_refl p) h₁ .queued
  have hpush : s.undoPushDelete p (p - p + 1).toNat .queued = s.queueDeleted p := by
    rw [show (p - p + 1).toNat = 1 by omega]
    exact undoPush_delQueued hdel p
  rw [hpush] at hst
  refine ⟨by rw [hst], by rw [hst], by rw [hst], ?_, ?_⟩
  · rw [hst]
    simp only
    omega
  · rw [hby, show (p + 1 - s.text).toNat = (p - s.text).toNat + 1 by omega]

/-- **One backspace** that continues the span: nothing is lost, unless it fills the queue when 32
bytes are all that is left. -/
theorem Owes.erase {l : List UInt8} {st : List UndoObject} {s : Ed} (h : Owes l st s) {p : Int}
    (h₀ : s.text ≤ p) (h₁ : p < s.end_) (hspan : 0 < s.undoQ → s.undoQueueSpos = p + 1)
    (hlong : s.undoQ + 1 = VI_UNDO_QUEUE_MAX → ¬ (s.queueByte p).Stripped) :
    Owes l st (s.textHoleDelete p p .queued).2 := by
  have hdel : 0 < s.undoQ → s.undoQueueState = .del := fun hq => (h.queued hq).1
  obtain ⟨hundo, htext, hsize, hend, hbytes⟩ := textHoleDelete_queued h₀ h₁ hdel
  have hfits := textHoleDelete_fits s h.fits h₀ (Int.le_refl p) h₁ .queued
  have hwhole := whole_queueByte h₀ h₁ h.lt hspan
  have hlen := Buf.length_bytes s.toBuf
  generalize (s.textHoleDelete p p .queued).2 = t at hundo htext hsize hend hbytes hfits ⊢
  have htake : t.bytes.take (p - s.text).toNat = s.bytes.take (p - s.text).toNat := by
    rw [hbytes, List.take_left' (by simp; omega)]
  have hdrop : t.bytes.drop (p - s.text).toNat = s.bytes.drop ((p - s.text).toNat + 1) := by
    rw [hbytes, List.drop_left' (by simp; omega)]
  have htlen : (p - s.text).toNat ≤ t.bytes.length := by
    rw [Buf.length_bytes]
    omega
  rw [queueDeleted_def] at hundo
  by_cases hfull : s.undoQ + 1 = VI_UNDO_QUEUE_MAX
  · rw [if_pos hfull] at hundo
    have hstack := undoQueueCommit_del (s := s.queueByte p) (Nat.succ_pos _) rfl (hlong hfull)
    have hqlen := (s.queueByte p).length_queuedBytes
    have hoff : p - s.text = ((p - s.text).toNat : Int) := by omega
    refine h.pushObject (p - s.text).toNat (s.queueByte p).queuedBytes hfits hsize
      ((congrArg Undos.undoQ hundo).trans (undoQueueCommit_undoQ _)) htlen ?_ ?_
    · rw [congrArg Undos.undoStack hundo, hstack, ← hoff, hqlen]
      rfl
    · rw [htake, hdrop, hwhole]
  · rw [if_neg hfull] at hundo
    have hlt := h.lt
    have hq := congrArg Undos.undoQ hundo
    have hspos := congrArg Undos.undoQueueSpos hundo
    have hst := congrArg Undos.undoQueueState hundo
    change t.undoQ = s.undoQ + 1 at hq
    change t.undoQueueSpos = p at hspos
    change t.undoQueueState = .del at hst
    have hqueued : t.queuedBytes = (s.queueByte p).queuedBytes := by
      unfold queuedBytes
      rw [hundo]
    have hsame : t.whole = s.whole := by
      unfold whole at hwhole ⊢
      rw [hspos, htext, htake, hdrop, hqueued]
      exact hwhole
    obtain ⟨es, hes, hall, hok, hun⟩ := h.pushed
    refine ⟨hfits, by rw [hsize]; exact h.size, by omega, fun _ => ⟨hst, by omega, by omega⟩, es,
      ?_, hall, ?_, ?_⟩
    · rw [congrArg Undos.undoStack hundo]
      exact hes
    · rw [hsize, hsame]
      exact hok
    · rw [hsame]
      exact hun

/-! ## Consecutive backspaces -/

/-- A queue that was filled on the way was as long as the text: of `len` bytes, `k` were erased. -/
def Filled (len k : Nat) : Prop :=
  VI_UNDO_QUEUE_MAX ≤ k ∧ len = VI_UNDO_QUEUE_MAX * (k / VI_UNDO_QUEUE_MAX) + (VI_UNDO_QUEUE_MAX - 1)

/-- The queue that remains is as long as the text: of `len` bytes, `k` were erased. -/
def Left (len k : Nat) : Prop :=
  0 < k % VI_UNDO_QUEUE_MAX ∧ len = k + k % VI_UNDO_QUEUE_MAX

/-- The object that queued deletions become. -/
theorem undoQueueCommit_pushed {s : Ed} (h : 0 < s.undoQ) (hs : s.undoQueueState = .del) :
    ∃ e, s.undoQueueCommit.undoStack = e :: s.undoStack ∧ e.uType = .del ∧ e.length ≤ s.undoQ ∧
      (s.Stripped → e.length < s.undoQ) := by
  unfold undoQueueCommit Stripped
  rw [if_pos h, hs]
  refine ⟨_, rfl, rfl, ?_, ?_⟩
  · dsimp only
    split
    · exact Nat.sub_le ..
    · exact le_refl _
  · intro hstrip
    dsimp only
    rw [if_pos ⟨Or.inl rfl, hstrip⟩]
    omega

/-- After `k` backspaces on the text `l`: all is owed, or an object is too short. -/
structure Erasing (l : List UInt8) (st : List UndoObject) (k : Nat) (t : Ed) : Prop where
  fits : t.Fits
  size : (l.length : Int) = t.end_ - t.text + k
  queue : t.undoQ = k % VI_UNDO_QUEUE_MAX
  del : 0 < t.undoQ → t.undoQueueState = .del
  owes : ¬ Filled l.length k → Owes l st t
  pushed : ∃ es, t.undoStack = es ++ st ∧ (∀ e ∈ es, e.uType = .del) ∧
    (es.map (·.length)).sum + t.undoQ ≤ k ∧
    (Filled l.length k → (es.map (·.length)).sum + t.undoQ < k)

theorem Erasing.start {s : Ed} (h : s.Fits) (hq : s.undoQ = 0) :
    Erasing s.bytes s.undoStack 0 s := by
  have hlen := Buf.length_bytes s.toBuf
  have hle := h.text_le_end
  refine ⟨h, by omega, hq, fun h => by omega, fun _ => Owes.start h hq, [], rfl, by simp, ?_, ?_⟩
  · simp [hq]
  · intro hf
    exact absurd hf.1 (by decide)

/-- One more backspace, at `p`. -/
theorem Erasing.erase {l : List UInt8} {st : List UndoObject} {k : Nat} {s : Ed}
    (h : Erasing l st k s) {p : Int} (h₀ : s.text ≤ p) (h₁ : p < s.end_)
    (hspan : 0 < s.undoQ → s.undoQueueSpos = p + 1) :
    Erasing l st (k + 1) (s.textHoleDelete p p .queued).2 := by
  obtain ⟨hundo, htext, hsize, hend, -⟩ := textHoleDelete_queued h₀ h₁ h.del
  have hfits := textHoleDelete_fits s h.fits h₀ (Int.le_refl p) h₁ .queued
  have hl := h.size
  have hq := h.queue
  have hstrip : (s.queueByte p).Stripped ↔ s.text + (s.undoQ + 1 : Nat) = s.end_ := Iff.rfl
  have howes : ¬ Filled l.length (k + 1) → Owes l st (s.textHoleDelete p p .queued).2 := by
    intro hf
    refine (h.owes ?_).erase h₀ h₁ hspan ?_
    · simp only [Filled, VI_UNDO_QUEUE_MAX] at hf ⊢
      omega
    · rw [hstrip]
      simp only [Filled, VI_UNDO_QUEUE_MAX] at hf hq ⊢
      omega
  generalize (s.textHoleDelete p p .queued).2 = t at hundo htext hsize hend hfits howes ⊢
  obtain ⟨es, hes, hdel, hsum, hshort⟩ := h.pushed
  rw [queueDeleted_def] at hundo
  by_cases hfull : s.undoQ + 1 = VI_UNDO_QUEUE_MAX
  · rw [if_pos hfull] at hundo
    have htq : t.undoQ = 0 := (congrArg Undos.undoQ hundo).trans (undoQueueCommit_undoQ _)
    obtain ⟨e, hst, hed, hle, hlt⟩ :=
      undoQueueCommit_pushed (s := s.queueByte p) (Nat.succ_pos _) rfl
    change e.length ≤ s.undoQ + 1 at hle
    rw [hstrip] at hlt
    change _ → e.length < s.undoQ + 1 at hlt
    refine ⟨hfits, by omega, ?_, fun h => by omega, howes, e :: es, ?_, ?_, ?_, ?_⟩
    · simp only [VI_UNDO_QUEUE_MAX] at hq hfull ⊢
      omega
    · rw [congrArg Undos.undoStack hundo, hst]
      change e :: s.undoStack = _
      rw [hes]
      rfl
    · exact List.forall_mem_cons.mpr ⟨hed, hdel⟩
    · simp only [List.map_cons, List.sum_cons]
      omega
    · intro hf
      simp only [List.map_cons, List.sum_cons]
      simp only [Filled, VI_UNDO_QUEUE_MAX] at hf hshort hq hfull
      omega
  · rw [if_neg hfull] at hundo
    have htq : t.undoQ = s.undoQ + 1 := congrArg Undos.undoQ hundo
    refine ⟨hfits, by omega, ?_, fun _ => congrArg Undos.undoQueueState hundo, howes, es, ?_, hdel,
      by omega, ?_⟩
    · simp only [VI_UNDO_QUEUE_MAX] at hq hfull ⊢
      omega
    · exact (congrArg Undos.undoStack hundo).trans hes
    · intro hf
      simp only [Filled, VI_UNDO_QUEUE_MAX] at hf hshort hq hfull
      omega

/-- Where `k` backspaces from `p` have come. -/
structure Erased (l : List UInt8) (st : List UndoObject) (k : Nat) (x : Int × Ed) : Prop where
  erasing : Erasing l st k x.2
  text_le : x.2.text ≤ x.1
  lt_end : x.1 < x.2.end_
  span : 0 < x.2.undoQ → x.2.undoQueueSpos = x.1

/-- `char_insert` of one backspace after another. -/
def backspaces (n : Nat) (x : Int × Ed) : Int × Ed := (fun x => x.2.eraseChar x.1)^[n] x

theorem backspaces_succ (n : Nat) (x : Int × Ed) :
    backspaces (n + 1) x = backspaces n (x.2.eraseChar x.1) :=
  Function.iterate_succ_apply ..

theorem eraseChar_of_lt {s : Ed} {p : Int} (h : s.text < p) :
    s.eraseChar p = s.textHoleDelete (p - 1) (p - 1) .queued := by
  unfold eraseChar
  rw [if_pos h]

/-- A committed queue leaves no span. -/
theorem queueDeleted_span (s : Ed) (p : Int) (h : 0 < (s.queueDeleted p).undoQ) :
    (s.queueDeleted p).undoQueueSpos = p := by
  rw [queueDeleted_def] at h ⊢
  by_cases hfull : s.undoQ + 1 = VI_UNDO_QUEUE_MAX
  · rw [if_pos hfull, undoQueueCommit_undoQ] at h
    omega
  · rw [if_neg hfull]
    rfl

/-- Step lemma. -/
theorem Erased.eraseChar {l : List UInt8} {st : List UndoObject} {k : Nat} {x : Int × Ed}
    (h : Erased l st k x) (hp : x.2.text < x.1) : Erased l st (k + 1) (x.2.eraseChar x.1) := by
  obtain ⟨p, s⟩ := x
  obtain ⟨herasing, htext, hlt, hspan⟩ := h
  dsimp only at herasing htext hlt hspan hp ⊢
  have h₀ : s.text ≤ p - 1 := by omega
  have h₁ : p - 1 < s.end_ := by omega
  obtain ⟨hundo, htext', -, hend', -⟩ := textHoleDelete_queued h₀ h₁ herasing.del
  have hdest : (s.textHoleDelete (p - 1) (p - 1) .queued).1 = p - 1 := by
    rw [textHoleDelete_dest s h₀ (Int.le_refl _) h₁ .queued, if_neg (by omega), if_neg (by omega)]
  rw [eraseChar_of_lt hp]
  refine ⟨herasing.erase h₀ h₁ fun hq => by rw [hspan hq]; omega, ?_, ?_, ?_⟩
  · rw [htext', hdest]
    exact h₀
  · rw [hend', hdest]
    omega
  · rw [hdest, congrArg Undos.undoQ hundo, congrArg Undos.undoQueueSpos hundo]
    exact queueDeleted_span s (p - 1)

/-- Run lemma. -/
theorem Erased.backspaces {l : List UInt8} {st : List UndoObject} : ∀ (n : Nat) {k : Nat}
    {x : Int × Ed}, Erased l st k x → (∀ j < n, (backspaces j x).2.text < (backspaces j x).1) →
    Erased l st (k + n) (backspaces n x)
  | 0, _, _, h, _ => h
  | n + 1, k, x, h, hbyte => by
    have hstep := h.eraseChar (hbyte 0 (Nat.succ_pos n))
    have ih := Erased.backspaces n hstep fun j hj => by
      have := hbyte (j + 1) (Nat.succ_lt_succ hj)
      rwa [backspaces_succ] at this
    rw [backspaces_succ, show k + (n + 1) = k + 1 + n by omega]
    exact ih

/-! ## The commit and the pops -/

/-- `undo_queue_commit`, and then as many pops as there are objects above those of `s`. -/
def commitAndPop (s t : Ed) : Ed :=
  undoPop^[t.undoQueueCommit.undoStack.length - s.undoStack.length] t.undoQueueCommit

/-- All that is owed comes back, when the queue is not as long as the text. -/
theorem Owes.popped {l : List UInt8} {s t : Ed} (h : Owes l s.undoStack t)
    (hlong : 0 < t.undoQ → ¬ t.Stripped) : (commitAndPop s t).bytes = l := by
  have howes := h.commit hlong
  obtain ⟨es, hes, hdel, hok, hun⟩ := howes.pushed
  have hempty := undoQueueCommit_undoQ t
  rw [whole_of_empty hempty] at hok hun
  unfold commitAndPop
  rw [hes, List.length_append, Nat.add_sub_cancel,
    (pops_restore es howes.fits hempty hes hdel hok).1]
  exact hun

/-- The text comes back, when no object was as long as the text. -/
theorem Erasing.restores {l : List UInt8} {s : Ed} {k : Nat} {t : Ed}
    (h : Erasing l s.undoStack k t) (hfilled : ¬ Filled l.length k) (hleft : ¬ Left l.length k) :
    (commitAndPop s t).bytes = l := by
  have hsize := h.size
  have hq := h.queue
  refine (h.owes hfilled).popped fun hpos => ?_
  unfold Stripped
  unfold Left at hleft
  omega

/-- Else a byte is missing. -/
theorem Erasing.loses {l : List UInt8} {s : Ed} {k : Nat} {t : Ed}
    (h : Erasing l s.undoStack k t) (hlost : Filled l.length k ∨ Left l.length k) :
    (commitAndPop s t).bytes.length ≠ l.length := by
  have hsize := h.size
  have hle := h.fits.text_le_end
  have hqueue := h.queue
  have hbuf : t.undoQueueCommit.toBuf = t.toBuf := by rw [undoQueueCommit_eq]
  have hend := congrArg Buf.end_ hbuf
  have htext := congrArg Buf.text hbuf
  obtain ⟨es, hes, hdel, hsum, hshort⟩ := h.pushed
  -- the commit, too, pushes at most what is queued
  have hcommit : ∃ es', t.undoQueueCommit.undoStack = es' ++ s.undoStack ∧
      (∀ e ∈ es', e.uType = .del) ∧ (es'.map (·.length)).sum < k := by
    by_cases hq : 0 < t.undoQ
    · obtain ⟨e, hst, hed, hle, hlt⟩ := undoQueueCommit_pushed hq (h.del hq)
      refine ⟨e :: es, by rw [hst, hes]; rfl, List.forall_mem_cons.mpr ⟨hed, hdel⟩, ?_⟩
      rw [List.map_cons, List.sum_cons]
      rcases hlost with hf | hl
      · have := hshort hf
        omega
      · have := hlt (by unfold Stripped; unfold Left at hl; omega)
        omega
    · have hf : Filled l.length k := hlost.resolve_right fun hl => hq (by rw [hqueue]; exact hl.1)
      have := hshort hf
      exact ⟨es, by rw [undoQueueCommit_of_empty (by omega), hes], hdel, by omega⟩
  obtain ⟨es', hes', hdel', hlt⟩ := hcommit
  have hpops := lengths_pops es' (undoQueueCommit_undoQ t) hes' hdel'
  unfold commitAndPop
  rw [hes', List.length_append, Nat.add_sub_cancel, Buf.length_bytes]
  omega

/-- **Backspaces undone**: the text is back exactly when no object was as long as the text. -/
theorem Erasing.undone_iff {l : List UInt8} {s : Ed} {k : Nat} {t : Ed}
    (h : Erasing l s.undoStack k t) :
    (commitAndPop s t).bytes = l ↔ ¬ Filled l.length k ∧ ¬ Left l.length k := by
  constructor
  · intro heq
    by_contra hlost
    exact h.loses (by tauto) (by rw [heq])
  · rintro ⟨hfilled, hleft⟩
    exact h.restores hfilled hleft

/-! ## From the end of the text -/

/-- The queued bytes, to be put back at `q`. -/
def spanAt (s : Ed) (q : Int) : Ed := { s with undoQueueSpos := q }

/-- The next queued deletion says anew where the span is. -/
theorem textHoleDelete_spanAt {s : Ed} {p : Int} (q : Int) (h₀ : s.text ≤ p) (h₁ : p < s.end_)
    (hs : s.undoQueueState = .del) :
    (s.spanAt q).textHoleDelete p p .queued = s.textHoleDelete p p .queued := by
  have hpush : (s.spanAt q).undoPush p 1 .delQueued = s.undoPush p 1 .delQueued := by
    have hspan := undoPush_delQueued (s := s.spanAt q) (fun _ => hs) p
    have hself := undoPush_delQueued (s := s) (fun _ => hs) p
    rw [hspan, hself]
    rfl
  have hpushDelete : (s.spanAt q).undoPushDelete p (p - p + 1).toNat .queued =
      s.undoPushDelete p (p - p + 1).toNat .queued := by
    rw [show (p - p + 1).toNat = 1 by omega]
    exact hpush
  have hspan₀ : (s.spanAt q).text ≤ p := h₀
  have hspan₁ : p < (s.spanAt q).end_ := h₁
  refine Prod.ext ?_ ?_
  · rw [textHoleDelete_dest s h₀ (Int.le_refl p) h₁,
      textHoleDelete_dest (s.spanAt q) hspan₀ (Int.le_refl p) hspan₁]
    rfl
  · rw [textHoleDelete_state s h₀ (Int.le_refl p) h₁,
      textHoleDelete_state (s.spanAt q) hspan₀ (Int.le_refl p) hspan₁, hpushDelete]
    rfl

/-- The last two bytes. -/
theorem bytes_last_two {s : Ed} (h : s.text + 2 ≤ s.end_) :
    s.bytes = s.bytes.take (s.end_ - 2 - s.text).toNat ++ [s.mem (s.end_ - 2), s.mem (s.end_ - 1)] := by
  have h₁ := bytes_split (s := s) (p := s.end_ - 2) (by omega) (by omega)
  have h₂ := bytes_split (s := s) (p := s.end_ - 1) (by omega) (by omega)
  have hlen := Buf.length_bytes s.toBuf
  rw [show (s.end_ - 1 - s.text).toNat = (s.end_ - 2 - s.text).toNat + 1 by omega, h₁,
    List.take_of_length_le (by omega)] at h₂
  rw [List.append_assoc] at h₂
  exact h₂

/-- The text with its last two bytes exchanged. -/
def exchanged (s : Ed) : List UInt8 :=
  s.bytes.take (s.end_ - 2 - s.text).toNat ++ [s.mem (s.end_ - 1), s.mem (s.end_ - 2)]

theorem exchanged_eq_iff {s : Ed} (h : s.text + 2 ≤ s.end_) :
    s.exchanged = s.bytes ↔ s.mem (s.end_ - 2) = s.mem (s.end_ - 1) := by
  rw [bytes_last_two h]
  unfold exchanged
  rw [List.append_cancel_left_eq]
  constructor
  · intro heq
    exact ((List.cons.inj heq).1).symm
  · intro heq
    rw [heq]

/-- A backspace over the last byte leaves the cursor on the byte before: the span is then restored
behind it. -/
theorem erase_last {s : Ed} (h : s.Fits) (hq : s.undoQ = 0) (h₂ : s.text + 2 ≤ s.end_) :
    (s.eraseChar s.end_).1 = s.end_ - 2 ∧ (s.eraseChar s.end_).2.undoQueueState = .del ∧
      Erased s.exchanged s.undoStack 1
        (s.end_ - 2, (s.eraseChar s.end_).2.spanAt (s.end_ - 2)) := by
  have h₀ : s.text ≤ s.end_ - 1 := by omega
  have h₁ : s.end_ - 1 < s.end_ := by omega
  have hdel : 0 < s.undoQ → s.undoQueueState = .del := fun h => by omega
  rw [eraseChar_of_lt (by omega)]
  have hdest : (s.textHoleDelete (s.end_ - 1) (s.end_ - 1) .queued).1 = s.end_ - 2 := by
    rw [textHoleDelete_dest s h₀ (Int.le_refl _) h₁ .queued, if_neg (by omega), if_pos (by omega)]
    omega
  obtain ⟨hundo, htext, hsize, hend, hbytes⟩ := textHoleDelete_queued h₀ h₁ hdel
  have hfits := textHoleDelete_fits s h h₀ (Int.le_refl _) h₁ .queued
  have hlen := Buf.length_bytes s.toBuf
  have hlast := bytes_last_two h₂
  have hlt := h.lt_size
  have hqueued := queuedBytes_queueByte (s := s) (by rw [hq]; decide) (s.end_ - 1)
  have hnone : s.queuedBytes = [] := by simp [queuedBytes, hq]
  rw [queueDeleted_def, if_neg (by rw [hq]; decide)] at hundo
  generalize (s.textHoleDelete (s.end_ - 1) (s.end_ - 1) .queued).2 = t
    at hundo htext hsize hend hbytes hfits ⊢
  have hstate : t.undoQueueState = .del := congrArg Undos.undoQueueState hundo
  have htq : t.undoQ = 1 := by
    have := congrArg Undos.undoQ hundo
    change t.undoQ = s.undoQ + 1 at this
    omega
  have hstack : t.undoStack = s.undoStack := by
    rw [congrArg Undos.undoStack hundo]
    rfl
  have htqueue : t.queuedBytes = [s.mem (s.end_ - 1)] := by
    rw [← List.nil_append [s.mem _], ← hnone]
    unfold queuedBytes at hqueued hnone ⊢
    rw [hundo, hqueued, hnone]
    rfl
  have htbytes : t.bytes = s.bytes.take (s.end_ - 2 - s.text).toNat ++ [s.mem (s.end_ - 2)] := by
    rw [hbytes, List.drop_of_length_le (by omega), List.append_nil,
      show (s.end_ - 1 - s.text).toNat = (s.end_ - 2 - s.text).toNat + 1 by omega]
    have := bytes_split (s := s) (p := s.end_ - 2) (by omega) (by omega)
    exact this
  have hwhole : (t.spanAt (s.end_ - 2)).whole = s.exchanged := by
    change t.bytes.take (s.end_ - 2 - t.text).toNat ++ t.queuedBytes ++
      t.bytes.drop (s.end_ - 2 - t.text).toNat = s.exchanged
    have hl : (s.bytes.take (s.end_ - 2 - s.text).toNat).length = (s.end_ - 2 - s.text).toNat := by
      rw [List.length_take]
      omega
    rw [htqueue, htext, htbytes, List.take_left' hl, List.drop_left' hl, List.append_assoc]
    rfl
  have hexch : s.exchanged.length = s.bytes.length := by
    unfold exchanged
    rw [List.length_append, List.length_take]
    simp only [List.length_cons, List.length_nil]
    omega
  have hspan : (t.spanAt (s.end_ - 2)).text = s.text ∧ (t.spanAt (s.end_ - 2)).end_ = s.end_ - 1 ∧
      (t.spanAt (s.end_ - 2)).undoQ = 1 := ⟨htext, hend, htq⟩
  have hsum : (([] : List UndoObject).map (·.length)).sum + (t.spanAt (s.end_ - 2)).undoQ ≤ 1 := by
    rw [hspan.2.2]
    rfl
  refine ⟨hdest, hstate, ?_⟩
  refine ⟨⟨hfits, ?_, htq, fun _ => hstate, fun _ => ⟨hfits, ?_, ?_, fun _ => ⟨hstate, ?_, ?_⟩,
    [], hstack, by simp, trivial, hwhole⟩, [], hstack, by simp, hsum, ?_⟩, ?_, ?_, fun _ => rfl⟩
  all_goals dsimp only
  · omega
  · change (s.exchanged.length : Int) < t.textSize
    omega
  · rw [hspan.2.2]
    decide
  · rw [hspan.1]
    change s.text ≤ s.end_ - 2
    omega
  · rw [hspan.2.1]
    change s.end_ - 2 ≤ s.end_ - 1
    omega
  · intro hf
    exact absurd hf.1 (by decide)
  · omega
  · omega

/-- After a backspace from the end there is another byte only if there were two. -/
theorem two_of_eraseChar_end {s : Ed} (h : s.text < s.end_)
    (hnext : (s.eraseChar s.end_).2.text < (s.eraseChar s.end_).1) : s.text + 2 ≤ s.end_ := by
  have h₀ : s.text ≤ s.end_ - 1 := by omega
  have h₁ : s.end_ - 1 < s.end_ := by omega
  have htext : (s.textHoleDelete (s.end_ - 1) (s.end_ - 1) .queued).2.text = s.text := by
    rw [textHoleDelete_state s h₀ (Int.le_refl _) h₁ .queued]
  rw [eraseChar_of_lt h, textHoleDelete_dest s h₀ (Int.le_refl _) h₁ .queued, htext] at hnext
  by_contra hone
  rw [if_pos (by omega)] at hnext
  omega

/-- From the last byte, the second backspace goes on as if the span had been there. -/
theorem eraseChar_spanAt {x : Int × Ed} {q : Int} (hs : x.2.undoQueueState = .del) (hq : x.1 = q)
    (hlt : x.2.text < x.1) (hle : x.1 ≤ x.2.end_) :
    (x.2.spanAt q).eraseChar q = x.2.eraseChar x.1 := by
  subst hq
  have hspan : (x.2.spanAt x.1).text < x.1 := hlt
  rw [eraseChar_of_lt hlt, eraseChar_of_lt hspan]
  exact textHoleDelete_spanAt x.1 (by omega) (by omega) hs

/-- **Queued backspaces**: from any position, `n` backspaces on existing bytes, the commit and the
pops of what was pushed bring the text back, unless a queue was as long as the text it was deleted
from; and from the end of the text only if its last two bytes are the same. -/
theorem backspaces_undone_iff {s : Ed} (h : s.Fits) (hq : s.undoQ = 0) {p : Int}
    (h₀ : s.text ≤ p) (h₁ : p ≤ s.end_) (n : Nat)
    (hbyte : ∀ j < n, (backspaces j (p, s)).2.text < (backspaces j (p, s)).1) :
    (commitAndPop s (backspaces n (p, s)).2).bytes = s.bytes ↔
      ¬ Filled s.bytes.length n ∧ ¬ Left s.bytes.length n ∧
        (p = s.end_ → 2 ≤ n → s.mem (s.end_ - 2) = s.mem (s.end_ - 1)) := by
  have hstart := Erasing.start h hq
  have hspan : ∀ q, 0 < s.undoQ → s.undoQueueSpos = q := fun q h => by omega
  by_cases hp : p < s.end_
  · have hrun := Erased.backspaces (x := (p, s)) n ⟨hstart, h₀, hp, hspan p⟩ hbyte
    rw [Nat.zero_add] at hrun
    rw [hrun.erasing.undone_iff]
    exact and_congr_right fun _ => ⟨fun hl => ⟨hl, fun he => by omega⟩, fun hl => hl.1⟩
  · obtain rfl : p = s.end_ := by omega
    match n, hbyte with
    | 0, _ =>
      have := hstart.undone_iff (s := s)
      rw [show backspaces 0 (s.end_, s) = (s.end_, s) from rfl, this]
      exact and_congr_right fun _ => ⟨fun hl => ⟨hl, fun _ h => by omega⟩, fun hl => hl.1⟩
    | 1, hbyte =>
      have hlt : s.text < s.end_ := hbyte 0 Nat.zero_lt_one
      have hone := (hstart.erase (p := s.end_ - 1) (by omega) (by omega) (hspan _)).undone_iff
        (s := s)
      rw [backspaces_succ, eraseChar_of_lt hlt, show ∀ x, backspaces 0 x = x from fun _ => rfl, hone]
      exact and_congr_right fun _ => ⟨fun hl => ⟨hl, fun _ h => by omega⟩, fun hl => hl.1⟩
    | n + 2, hbyte =>
      have hlt : s.text < s.end_ := hbyte 0 (Nat.succ_pos _)
      have hnext : (s.eraseChar s.end_).2.text < (s.eraseChar s.end_).1 := hbyte 1 (by omega)
      have htwo := two_of_eraseChar_end hlt hnext
      obtain ⟨hdest, hstate, hrun⟩ := erase_last h hq htwo
      have hon : s.end_ - 2 < (s.eraseChar s.end_).2.end_ := hrun.lt_end
      have hagain := eraseChar_spanAt hstate hdest hnext (by rw [hdest]; exact hon.le)
      have hbyte' : ∀ j < n + 1,
          (backspaces j (s.end_ - 2, (s.eraseChar s.end_).2.spanAt (s.end_ - 2))).2.text <
            (backspaces j (s.end_ - 2, (s.eraseChar s.end_).2.spanAt (s.end_ - 2))).1 := by
        intro j hj
        cases j with
        | zero =>
          rw [hdest] at hnext
          exact hnext
        | succ j =>
          have := hbyte (j + 2) (by omega)
          rw [backspaces_succ, hagain]
          rwa [backspaces_succ, backspaces_succ] at this
      have hsame : backspaces (n + 2) (s.end_, s) =
          backspaces (n + 1) (s.end_ - 2, (s.eraseChar s.end_).2.spanAt (s.end_ - 2)) := by
        rw [backspaces_succ, backspaces_succ, backspaces_succ, hagain]
      have herasing := (hrun.backspaces (n + 1) hbyte').erasing
      rw [← hsame, show 1 + (n + 1) = n + 2 by omega] at herasing
      have hlen : s.exchanged.length = s.bytes.length := by
        rw [bytes_last_two htwo]
        simp [exchanged]
      have hiff := herasing.undone_iff (s := s)
      rw [hlen] at hiff
      constructor
      · intro heq
        have hkept : ¬ Filled s.bytes.length (n + 2) ∧ ¬ Left s.bytes.length (n + 2) := by
          by_contra hlost
          rw [← hlen] at hlost
          exact herasing.loses (s := s) (by tauto) (by rw [heq, hlen])
        refine ⟨hkept.1, hkept.2, fun _ _ => (exchanged_eq_iff htwo).mp ?_⟩
        rw [← heq]
        exact (hiff.mpr hkept).symm
      · rintro ⟨hfilled, hleft, hsame⟩
        rw [hiff.mpr ⟨hfilled, hleft⟩]
        exact (exchanged_eq_iff htwo).mpr (hsame rfl (by omega))

/-- Three backspaces behind `abcd`. -/
theorem backspaces_undone_one :
    (∀ j < 3, (backspaces j (4100, EditOp.holding [97, 98, 99, 100, NL])).2.text <
      (backspaces j (4100, EditOp.holding [97, 98, 99, 100, NL])).1) ∧
    (commitAndPop (EditOp.holding [97, 98, 99, 100, NL])
      (backspaces 3 (4100, EditOp.holding [97, 98, 99, 100, NL])).2).bytes = [97, 98, 99, 100, NL] := by
  have hbyte : ∀ j < 3, (backspaces j (4100, EditOp.holding [97, 98, 99, 100, NL])).2.text <
      (backspaces j (4100, EditOp.holding [97, 98, 99, 100, NL])).1 := by decide +kernel
  have h := backspaces_undone_iff (s := EditOp.holding [97, 98, 99, 100, NL]) ⟨by decide, by decide⟩ rfl
    (p := 4100) (by decide) (by decide) 3 hbyte
  have hbytes : (EditOp.holding [97, 98, 99, 100, NL]).bytes = [97, 98, 99, 100, NL] := by decide +kernel
  rw [hbytes] at h
  refine ⟨hbyte, h.mpr ⟨?_, ?_, ?_⟩⟩
  · exact fun hf => absurd hf.1 (by decide)
  · exact fun hl => absurd hl.2 (by decide)
  · exact fun he => absurd he (by decide)

/-- On a line `a`, one backspace at the newline is undone to an empty line. -/
theorem backspace_strips :
    ¬ ∀ (s : Ed) (p : Int) (n : Nat), s.Fits → s.undoQ = 0 → s.bytes.getLast? = some NL →
      s.text ≤ p → p < s.end_ →
      (∀ j < n, (backspaces j (p, s)).2.text < (backspaces j (p, s)).1) →
      (commitAndPop s (backspaces n (p, s)).2).bytes = s.bytes := by
  intro h
  have hbad := h (EditOp.holding [97, NL]) 4097 1 ⟨by decide, by decide⟩ rfl (by decide +kernel)
    (by decide) (by decide) (by decide +kernel)
  exact absurd hbad (by decide +kernel)

end Ed

end Evim
