import Ewokos.Evim.Edits
import Ewokos.Evim.Session
import Ewokos.Evim.UndoExact

/-!
# evim: the undo queue

`undo_queue_commit` empties the queue while the loop of a queued insertion goes on counting, so a
bulk insertion that fills the queue on its way leaves a count without a state.

* `QueueOk` — what every reader of the queue relies on; `FittingEdit.queueOk` — every primitive
  change keeps it, as long as a queued insertion fits.
* `Counted` — the objects of a run of queued insertions: each is an insertion inside the run, and
  together they are as long as it.

Main result: `undoQueue_ok`.
-/

set_option autoImplicit false

namespace Evim

open Cells

namespace Ed

/-- The queue is not full, and it is empty exactly in the state `UNDO_EMPTY`. -/
structure QueueOk (s : Ed) : Prop where
  lt : s.undoQ < VI_UNDO_QUEUE_MAX
  empty : s.undoQ = 0 ↔ s.undoQueueState = .empty

/-- The queued bytes that a queued insertion joins. -/
def joined (s : Ed) : Nat := if s.undoQueueState = .del then 0 else s.undoQ

/-- A queued insertion of `len` bytes fills the queue at most. -/
def Joins (s : Ed) (len : Nat) : Prop := s.joined + len ≤ VI_UNDO_QUEUE_MAX

end Ed

/-- A primitive change, a queued insertion only if it fits. -/
structure FittingEdit (s s' : Ed) : Prop where
  edit : Edit s s'
  fits : ∀ src len, s' = s.undoPush src len .insQueued → s.Joins len

/-- The queue is as it was. -/
structure SameQueue (s s' : Ed) : Prop where
  count : s'.undoQ = s.undoQ
  state : s'.undoQueueState = s.undoQueueState
  spos : s'.undoQueueSpos = s.undoQueueSpos
  bytes : s'.undoQueue = s.undoQueue

namespace SameQueue

variable {s t u : Ed}

theorem refl (s : Ed) : SameQueue s s := ⟨rfl, rfl, rfl, rfl⟩

theorem trans (h₁ : SameQueue s t) (h₂ : SameQueue t u) : SameQueue s u :=
  ⟨h₂.count.trans h₁.count, h₂.state.trans h₁.state, h₂.spos.trans h₁.spos, h₂.bytes.trans h₁.bytes⟩

theorem of_toUndos (h : t.toUndos = s.toUndos) : SameQueue s t :=
  ⟨congrArg Undos.undoQ h, congrArg Undos.undoQueueState h, congrArg Undos.undoQueueSpos h,
    congrArg Undos.undoQueue h⟩

end SameQueue

namespace Ed

/-! ## The commit -/

/-- The commit of a non-empty queue. -/
theorem undoQueueCommit_queue {s : Ed} (h : 0 < s.undoQ) :
    s.undoQueueCommit.undoQ = 0 ∧ s.undoQueueCommit.undoQueueState = .empty := by
  unfold undoQueueCommit
  rw [if_pos h]
  exact ⟨rfl, rfl⟩

theorem QueueOk.commit {s : Ed} (h : s.QueueOk) : s.undoQueueCommit.QueueOk := by
  by_cases hq : 0 < s.undoQ
  · obtain ⟨h₁, h₂⟩ := undoQueueCommit_queue hq
    exact ⟨by rw [h₁]; decide, iff_of_true h₁ h₂⟩
  · rw [undoQueueCommit_of_empty (by omega)]
    exact h

/-- After a commit the queue is empty. -/
theorem QueueOk.commit_empty {s : Ed} (h : s.QueueOk) :
    s.undoQueueCommit.undoQ = 0 ∧ s.undoQueueCommit.undoQueueState = .empty :=
  have hq := s.undoQueueCommit_undoQ
  ⟨hq, h.commit.empty.mp hq⟩

/-- The commit of queued insertions. -/
theorem undoQueueCommit_ins {s : Ed} (h : 0 < s.undoQ) (hs : s.undoQueueState = .ins) :
    s.undoQueueCommit.undoStack =
      ⟨s.undoQueueSpos - s.text, s.undoQ, .ins, []⟩ :: s.undoStack := by
  unfold undoQueueCommit
  rw [if_pos h, hs]
  rfl

/-- A commit in the state `UNDO_EMPTY` pushes an object of that type. -/
theorem undoQueueCommit_untyped {s : Ed} (h : 0 < s.undoQ) (hs : s.undoQueueState = .empty) :
    ∃ e, s.undoQueueCommit.undoStack = e :: s.undoStack ∧ e.uType = .empty := by
  unfold undoQueueCommit
  rw [if_pos h, hs]
  exact ⟨_, rfl, rfl⟩

theorem undoQueueCommit_text (s : Ed) : s.undoQueueCommit.text = s.text := by
  rw [undoQueueCommit_eq]

/-! ## Counting -/

theorem queueCount_add (a b : Nat) (s : Ed) :
    queueCount (a + b) s = queueCount b (queueCount a s) := by
  induction a generalizing s with
  | zero => rw [Nat.zero_add]; rfl
  | succ a ih =>
    rw [Nat.succ_add]
    exact ih _

/-- Counting that does not fill the queue. -/
theorem queueCount_below : ∀ (n : Nat) (s : Ed), s.undoQ + n < VI_UNDO_QUEUE_MAX →
    queueCount n s = { s with undoQ := s.undoQ + n }
  | 0, s, _ => rfl
  | n + 1, s, h => by
    unfold queueCount
    dsimp only
    rw [if_neg (by omega), queueCount_below n _ (by dsimp only; omega)]
    dsimp only
    rw [show s.undoQ + 1 + n = s.undoQ + (n + 1) by omega]

/-- Counting up to a full queue. -/
theorem queueCount_full {n : Nat} {s : Ed} (hn : 0 < n) (h : s.undoQ + n = VI_UNDO_QUEUE_MAX) :
    queueCount n s = undoQueueCommit { s with undoQ := VI_UNDO_QUEUE_MAX } := by
  obtain ⟨m, rfl⟩ : ∃ m, n = m + 1 := ⟨n - 1, by omega⟩
  rw [queueCount_add m 1, queueCount_below m s (by omega)]
  unfold queueCount
  dsimp only
  rw [if_pos (by omega), show s.undoQ + m + 1 = VI_UNDO_QUEUE_MAX by omega]
  rfl

/-- Counting on in the state `UNDO_EMPTY`: the state stays, and what fills the queue is pushed
without a type. -/
theorem queueCount_untyped : ∀ (n : Nat) (s : Ed), s.undoQ < VI_UNDO_QUEUE_MAX →
    s.undoQueueState = .empty →
    (queueCount n s).undoQueueState = .empty ∧
      (queueCount n s).undoQ = (s.undoQ + n) % VI_UNDO_QUEUE_MAX ∧
      ∃ es, (queueCount n s).undoStack = es ++ s.undoStack ∧
        (VI_UNDO_QUEUE_MAX ≤ s.undoQ + n → ∃ e ∈ es, e.uType = .empty)
  | 0, s, hq, hs => by
    refine ⟨hs, (Nat.mod_eq_of_lt hq).symm, [], rfl, ?_⟩
    intro h
    omega
  | n + 1, s, hq, hs => by
    by_cases hfull : s.undoQ + 1 = VI_UNDO_QUEUE_MAX
    · have hfirst : queueCount (n + 1) s =
          queueCount n (undoQueueCommit { s with undoQ := VI_UNDO_QUEUE_MAX }) := by
        rw [Nat.add_comm n 1, queueCount_add 1 n, queueCount_full (by omega) hfull]
      obtain ⟨h₁, h₂⟩ := undoQueueCommit_queue (s := { s with undoQ := VI_UNDO_QUEUE_MAX })
        (show 0 < VI_UNDO_QUEUE_MAX by decide)
      obtain ⟨e, h₃, hty⟩ := undoQueueCommit_untyped (s := { s with undoQ := VI_UNDO_QUEUE_MAX })
        (show 0 < VI_UNDO_QUEUE_MAX by decide) hs
      obtain ⟨ha, hb, es, hes, -⟩ := queueCount_untyped n _ (by rw [h₁]; decide) h₂
      rw [hfirst]
      refine ⟨ha, ?_, es ++ [e], ?_, ?_⟩
      · rw [hb, h₁, show s.undoQ + (n + 1) = n + VI_UNDO_QUEUE_MAX by omega, Nat.add_mod_right,
          Nat.zero_add]
      · rw [hes, h₃, List.append_assoc]
        rfl
      · intro _
        exact ⟨e, List.mem_append_right _ (List.mem_singleton.mpr rfl), hty⟩
    · have hfirst : queueCount (n + 1) s = queueCount n { s with undoQ := s.undoQ + 1 } := by
        rw [Nat.add_comm n 1, queueCount_add 1 n, queueCount_below 1 s (by omega)]
      obtain ⟨ha, hb, es, hes, he⟩ := queueCount_untyped n { s with undoQ := s.undoQ + 1 }
        (by dsimp only; omega) hs
      dsimp only at hb he
      rw [hfirst, show s.undoQ + (n + 1) = s.undoQ + 1 + n by omega]
      exact ⟨ha, hb, es, hes, he⟩

/-! ## What a queued push does to the representation -/

theorem queueDeleted_queueOk {s : Ed} (h : s.undoQ < VI_UNDO_QUEUE_MAX) (src : Int) :
    (s.queueDeleted src).QueueOk := by
  simp only [queueDeleted]
  split
  · rename_i hfull
    obtain ⟨h₁, h₂⟩ := undoQueueCommit_queue (s := { s with
      undoQueueState := .del
      undoQueueSpos := src
      undoQ := s.undoQ + 1
      undoQueue := Function.update s.undoQueue (VI_UNDO_QUEUE_MAX - (s.undoQ + 1)) (s.mem src) })
      (Nat.succ_pos _)
    exact ⟨by rw [h₁]; decide, iff_of_true h₁ h₂⟩
  · rename_i hfull
    refine ⟨by dsimp only; omega, ?_⟩
    simp

theorem queueInserted_queueOk {s : Ed} (hs : s.undoQueueState ≠ .del) (src : Int)
    {len : Nat} (hlen : 0 < len) (hfit : s.undoQ + len ≤ VI_UNDO_QUEUE_MAX) :
    (s.queueInserted src len).QueueOk := by
  unfold queueInserted
  have hstart : ∃ t : Ed, (if s.undoQueueState = .empty then
      { s with undoQueueState := .ins, undoQueueSpos := src } else s) = t ∧ t.undoQ = s.undoQ ∧
        t.undoQueueState = .ins := by
    refine ⟨_, rfl, ?_, ?_⟩
    · split <;> rfl
    · cases hst : s.undoQueueState with
      | empty => rfl
      | ins => simp [hst]
      | del => exact absurd hst hs
  obtain ⟨t, ht, hq, hst⟩ := hstart
  simp only [ht]
  by_cases hfull : s.undoQ + len = VI_UNDO_QUEUE_MAX
  · rw [queueCount_full hlen (by omega)]
    obtain ⟨h₁, h₂⟩ := undoQueueCommit_queue (s := { t with undoQ := VI_UNDO_QUEUE_MAX })
      (show 0 < VI_UNDO_QUEUE_MAX by decide)
    exact ⟨by rw [h₁]; decide, iff_of_true h₁ h₂⟩
  · rw [queueCount_below len t (by omega)]
    refine ⟨by dsimp only; omega, iff_of_false ?_ ?_⟩
    · dsimp only
      omega
    · simp [hst]

/-- Every push keeps the representation, a queued insertion if it fits. -/
theorem undoPush_queueOk {s : Ed} (h : s.QueueOk) (src : Int) (len : Nat) (t : UndoType)
    (hfit : t = .insQueued → s.Joins len) : (s.undoPush src len t).QueueOk := by
  cases t with
  | ins => exact ⟨h.lt, h.empty⟩
  | del => exact ⟨h.lt, h.empty⟩
  | insChain => exact ⟨h.lt, h.empty⟩
  | delChain => exact ⟨h.lt, h.empty⟩
  | empty => exact h
  | delQueued =>
    simp only [undoPush]
    split
    · exact h
    · split
      · exact queueDeleted_queueOk h.lt src
      · exact queueDeleted_queueOk h.lt src
      · exact queueDeleted_queueOk h.commit.lt src
  | insQueued =>
    have hfit := hfit rfl
    unfold Joins joined at hfit
    simp only [undoPush]
    split
    · exact h
    · rename_i hlen
      split
      · rename_i hst
        rw [if_neg (by simp [hst])] at hfit
        exact queueInserted_queueOk (by simp [hst]) src (by omega) hfit
      · rename_i hst
        rw [if_neg (by simp [hst])] at hfit
        exact queueInserted_queueOk (by simp [hst]) src (by omega) hfit
      · rename_i hst
        rw [if_pos hst] at hfit
        obtain ⟨h₁, h₂⟩ := h.commit_empty
        exact queueInserted_queueOk (by simp [h₂]) src (by omega) (by omega)

theorem undoPushDelete_queueOk {s : Ed} (h : s.QueueOk) (p : Int) (len : Nat) (undo : Undo) :
    (s.undoPushDelete p len undo).QueueOk := by
  cases undo with
  | no => exact h
  | allow => exact undoPush_queueOk h p len .del (by simp)
  | chain => exact undoPush_queueOk h p len .delChain (by simp)
  | queued => exact undoPush_queueOk h p len .delQueued (by simp)

theorem QueueOk.congr {s t : Ed} (h : s.QueueOk) (hq : t.undoQ = s.undoQ)
    (hs : t.undoQueueState = s.undoQueueState) : t.QueueOk :=
  ⟨by rw [hq]; exact h.lt, by rw [hq, hs]; exact h.empty⟩

theorem textHoleDelete_queue (s : Ed) (p q : Int) (undo : Undo) :
    SameQueue (s.undoPushDelete p (q - p + 1).toNat undo) (s.textHoleDelete p q undo).2 ∧
      (s.textHoleDelete p q undo).2.text = s.text := by
  have htext : (s.undoPushDelete p (q - p + 1).toNat undo).text = s.text := by
    rw [undoPushDelete_eq]
  rcases s.textHoleDelete_cases p q undo with h | ⟨m, e, -, -, h⟩
  · rw [h]
    exact ⟨⟨rfl, rfl, rfl, rfl⟩, htext⟩
  · rw [h]
    exact ⟨⟨rfl, rfl, rfl, rfl⟩, htext⟩

/-- `undo_pop` leaves the queue alone. -/
theorem undoApply_sameQueue (s : Ed) (e : UndoObject) : SameQueue s (s.undoApply e) := by
  have hmake : ∀ p n, SameQueue s (s.textHoleMake p n).2 := fun p n =>
    .of_toUndos (s.textHoleMake_toUndos p n)
  have hdelete : ∀ p q, SameQueue s (s.textHoleDelete p q .no).2 := fun p q =>
    (s.textHoleDelete_queue p q .no).1
  unfold undoApply
  split
  · exact (hmake _ _).trans ⟨rfl, rfl, rfl, rfl⟩
  · exact (hmake _ _).trans ⟨rfl, rfl, rfl, rfl⟩
  · exact (hdelete _ _).trans ⟨rfl, rfl, rfl, rfl⟩
  · exact (hdelete _ _).trans ⟨rfl, rfl, rfl, rfl⟩
  · exact .refl s

theorem popObject_sameQueue (s : Ed) (e : UndoObject) (rest : List UndoObject) :
    SameQueue s (s.popObject e rest) := by
  have happly := s.undoApply_sameQueue e
  unfold popObject
  dsimp only
  split
  · rw [refresh_eq]
    exact happly.trans ⟨rfl, rfl, rfl, rfl⟩
  · rw [refresh_eq]
    exact happly.trans ⟨rfl, rfl, rfl, rfl⟩
  · exact happly.trans ⟨rfl, rfl, rfl, rfl⟩

end Ed

/-- Every primitive change keeps the representation. -/
theorem FittingEdit.queueOk {s s' : Ed} (h : FittingEdit s s') (hs : s.QueueOk) : s'.QueueOk := by
  obtain ⟨h, hfit⟩ := h
  cases h with
  | look h =>
    rcases h.undos with hu | hu
    · exact hs.congr (congrArg Undos.undoQ hu) (congrArg Undos.undoQueueState hu)
    · exact hs.commit.congr (congrArg Undos.undoQ hu) (congrArg Undos.undoQueueState hu)
  | still hb hu => exact hs.congr (congrArg Undos.undoQ hu) (congrArg Undos.undoQueueState hu)
  | push src len t =>
    refine Ed.undoPush_queueOk hs src len t ?_
    rintro rfl
    exact hfit src len rfl
  | write m => exact hs.congr rfl rfl
  | hole p size =>
    have hu := s.textHoleMake_toUndos p size
    exact hs.congr (congrArg Undos.undoQ hu) (congrArg Undos.undoQueueState hu)
  | @delete p q hpq undo =>
    have hpush := Ed.undoPushDelete_queueOk hs p (q - p + 1).toNat undo
    rcases s.textHoleDelete_cases p q undo with e | ⟨m, e', -, -, e⟩
    · rw [e]
      exact hpush.congr rfl rfl
    · rw [e]
      exact hpush.congr rfl rfl
  | @pop e rest hst =>
    have hsame := s.popObject_sameQueue e rest
    exact hs.congr hsame.count hsame.state
  | fresh hb hu => exact hs.congr (congrArg Undos.undoQ hu) (congrArg Undos.undoQueueState hu)
  | flush => exact hs.congr rfl rfl
  | clean => exact hs.congr rfl rfl

namespace Ed

/-! ## Runs of queued insertions -/

/-- `UNDO_INS_QUEUED` pushes of these lengths, one behind the other from `p` on. -/
def pushRun : Ed → Int → List Nat → Ed
  | s, _, [] => s
  | s, p, len :: lens => pushRun (s.undoPush p len .insQueued) (p + len) lens

/-- The representation is right after each push. -/
def RunOk : Ed → Int → List Nat → Prop
  | s, _, [] => s.QueueOk
  | s, p, len :: lens => s.QueueOk ∧ RunOk (s.undoPush p len .insQueued) (p + len) lens

/-- The objects that `t` has on top of those of `s`: insertions inside the run from `p` to `q`,
together as long as the run. -/
def Counted (s : Ed) (p q : Int) (t : Ed) : Prop :=
  ∃ es, t.undoStack = es ++ s.undoStack ∧
    (∀ e ∈ es, e.uType = .ins ∧ p - s.text ≤ e.start ∧ e.start < q - s.text) ∧
      ((es.map (·.length)).sum : Int) = q - p

/-- No push of the run takes the queue beyond its size, when `queued` bytes are in it. -/
def RunFits : Nat → List Nat → Prop
  | _, [] => True
  | queued, len :: lens =>
    queued + len ≤ VI_UNDO_QUEUE_MAX ∧ RunFits ((queued + len) % VI_UNDO_QUEUE_MAX) lens

/-- The run so far, from `p` to `q`: what has been committed, and the rest in the queue. -/
structure Running (s : Ed) (p q : Int) (t : Ed) : Prop where
  text : t.text = s.text
  queueOk : t.QueueOk
  queued : 0 < t.undoQ → t.undoQueueState = .ins ∧ p ≤ t.undoQueueSpos ∧ t.undoQueueSpos < q
  committed : ∃ es, t.undoStack = es ++ s.undoStack ∧
    (∀ e ∈ es, e.uType = .ins ∧ p - s.text ≤ e.start ∧ e.start < q - s.text) ∧
      ((es.map (·.length)).sum : Int) + t.undoQ = q - p

/-- The commit at the end of the run. -/
theorem Running.counted {s t : Ed} {p q : Int} (h : Running s p q t) :
    Counted s p q t.undoQueueCommit := by
  obtain ⟨es, hes, hin, hsum⟩ := h.committed
  by_cases hq : 0 < t.undoQ
  · obtain ⟨hst, hlo, hhi⟩ := h.queued hq
    refine ⟨⟨t.undoQueueSpos - t.text, t.undoQ, .ins, []⟩ :: es, ?_, ?_, ?_⟩
    · rw [undoQueueCommit_ins hq hst, hes]
      rfl
    · intro e he
      rcases List.mem_cons.mp he with rfl | he
      · have ht := h.text
        exact ⟨rfl, by dsimp only; omega, by dsimp only; omega⟩
      · exact hin e he
    · simp only [List.map_cons, List.sum_cons]
      omega
  · rw [undoQueueCommit_of_empty (by omega)]
    exact ⟨es, hes, hin, by omega⟩

/-- A push in the states of a run. -/
theorem undoPush_insQueued {t : Ed} {len : Nat} (hlen : 0 < len) (hst : t.undoQueueState ≠ .del)
    (src : Int) : t.undoPush src len .insQueued = t.queueInserted src len := by
  simp only [undoPush]
  rw [if_neg (by omega)]
  split
  · rfl
  · rfl
  · rename_i hdel
    exact absurd hdel hst

/-- The start of a queued insertion: the queue counts insertions from there on. -/
theorem queueInserted_start (t : Ed) (src : Int) (len : Nat) :
    ∃ u : Ed, t.queueInserted src len = queueCount len u ∧ u.text = t.text ∧ u.undoQ = t.undoQ ∧
      u.undoStack = t.undoStack ∧
      (t.undoQueueState = .empty → u.undoQueueState = .ins ∧ u.undoQueueSpos = src) ∧
      (t.undoQueueState = .ins → u.undoQueueState = .ins ∧ u.undoQueueSpos = t.undoQueueSpos) := by
  unfold queueInserted
  refine ⟨_, rfl, ?_⟩
  cases hst : t.undoQueueState with
  | empty => exact ⟨rfl, rfl, rfl, fun _ => ⟨rfl, rfl⟩, by simp⟩
  | ins => exact ⟨rfl, rfl, rfl, by simp, fun _ => ⟨hst, rfl⟩⟩
  | del => exact ⟨rfl, rfl, rfl, by simp, by simp⟩

theorem Running.notDel {s t : Ed} {p q : Int} (h : Running s p q t) : t.undoQueueState ≠ .del := by
  intro hdel
  by_cases hq : 0 < t.undoQ
  · rw [(h.queued hq).1] at hdel
    cases hdel
  · rw [h.queueOk.empty.mp (by omega)] at hdel
    cases hdel

/-- A push that fits continues the run. -/
theorem Running.push {s t : Ed} {p q : Int} (h : Running s p q t) (hpq : p ≤ q) {len : Nat}
    (hfit : t.undoQ + len ≤ VI_UNDO_QUEUE_MAX) :
    Running s p (q + len) (t.undoPush q len .insQueued) ∧
      (t.undoPush q len .insQueued).undoQ = (t.undoQ + len) % VI_UNDO_QUEUE_MAX := by
  obtain ⟨es, hes, hin, hsum⟩ := h.committed
  have hwider : ∀ e ∈ es, e.uType = .ins ∧ p - s.text ≤ e.start ∧ e.start < q + len - s.text := by
    intro e he
    have := hin e he
    exact ⟨this.1, this.2.1, by omega⟩
  by_cases hlen : 0 < len
  · have hok := undoPush_queueOk h.queueOk q len .insQueued fun _ => by
      unfold Joins joined
      rw [if_neg h.notDel]
      exact hfit
    rw [undoPush_insQueued hlen h.notDel] at hok ⊢
    obtain ⟨u, hu, htext, huq, hstack, hempty, hins⟩ := t.queueInserted_start q len
    -- the queue now counts insertions that start inside the run
    have hstart : u.undoQueueState = .ins ∧ p ≤ u.undoQueueSpos ∧ u.undoQueueSpos < q + len := by
      by_cases hq : 0 < t.undoQ
      · obtain ⟨h₁, h₂, h₃⟩ := h.queued hq
        obtain ⟨h₄, h₅⟩ := hins h₁
        exact ⟨h₄, by omega, by omega⟩
      · obtain ⟨h₄, h₅⟩ := hempty (h.queueOk.empty.mp (by omega))
        exact ⟨h₄, by omega, by omega⟩
    rw [hu] at hok ⊢
    by_cases hfull : t.undoQ + len = VI_UNDO_QUEUE_MAX
    · rw [queueCount_full hlen (by omega)] at hok ⊢
      have hpos : 0 < VI_UNDO_QUEUE_MAX := by decide
      have hzero := undoQueueCommit_undoQ { u with undoQ := VI_UNDO_QUEUE_MAX }
      refine ⟨⟨?_, hok, ?_, ?_⟩, ?_⟩
      · rw [undoQueueCommit_text]
        exact htext.trans h.text
      · intro hq
        omega
      · refine ⟨⟨u.undoQueueSpos - u.text, VI_UNDO_QUEUE_MAX, .ins, []⟩ :: es, ?_, ?_, ?_⟩
        · rw [undoQueueCommit_ins (s := { u with undoQ := VI_UNDO_QUEUE_MAX }) hpos hstart.1]
          dsimp only
          rw [hstack, hes]
          rfl
        · intro e he
          rcases List.mem_cons.mp he with rfl | he
          · have ht := h.text
            exact ⟨rfl, by dsimp only; omega, by dsimp only; omega⟩
          · exact hwider e he
        · rw [hzero]
          simp only [List.map_cons, List.sum_cons]
          push_cast
          omega
      · rw [hzero, hfull, Nat.mod_self]
    · rw [queueCount_below len u (by omega)] at hok ⊢
      refine ⟨⟨htext.trans h.text, hok, fun _ => hstart, es, hstack.trans hes, hwider, ?_⟩, ?_⟩
      · dsimp only
        push_cast
        omega
      · dsimp only
        rw [huq, Nat.mod_eq_of_lt (by omega)]
  · obtain rfl : len = 0 := by omega
    have hsame : t.undoPush q 0 .insQueued = t := by
      simp [undoPush]
    rw [hsame]
    refine ⟨⟨h.text, h.queueOk, ?_, es, hes, hwider, by omega⟩, ?_⟩
    · intro hq
      have := h.queued hq
      exact ⟨this.1, this.2.1, by omega⟩
    · rw [Nat.add_zero, Nat.mod_eq_of_lt h.queueOk.lt]

/-- A push that does not fit leaves a count without a state, or an object without a type. -/
theorem Running.overrun {s t : Ed} {p q : Int} (h : Running s p q t) {len : Nat}
    (hfit : ¬ t.undoQ + len ≤ VI_UNDO_QUEUE_MAX) :
    ¬ (t.undoPush q len .insQueued).QueueOk ∨
      ∃ es, (t.undoPush q len .insQueued).undoStack = es ++ s.undoStack ∧
        ∃ e ∈ es, e.uType = .empty := by
  have hlt := h.queueOk.lt
  obtain ⟨es, hes, -, -⟩ := h.committed
  rw [undoPush_insQueued (by omega) h.notDel]
  obtain ⟨u, hu, -, huq, hstack, -, -⟩ := t.queueInserted_start q len
  obtain ⟨a, ha⟩ : ∃ a, t.undoQ + a = VI_UNDO_QUEUE_MAX := ⟨VI_UNDO_QUEUE_MAX - t.undoQ, by omega⟩
  obtain ⟨b, hb⟩ : ∃ b, len = a + b := ⟨len - a, by omega⟩
  have hpos : 0 < VI_UNDO_QUEUE_MAX := by decide
  obtain ⟨h₁, h₂⟩ := undoQueueCommit_queue (s := { u with undoQ := VI_UNDO_QUEUE_MAX }) hpos
  have hcommit : ∃ e, (undoQueueCommit { u with undoQ := VI_UNDO_QUEUE_MAX }).undoStack =
      e :: u.undoStack := by
    unfold undoQueueCommit
    rw [if_pos hpos]
    exact ⟨_, rfl⟩
  obtain ⟨e₀, he₀⟩ := hcommit
  obtain ⟨hc₁, hc₂, fs, hfs, hempty⟩ := queueCount_untyped b _ (by rw [h₁]; exact hpos) h₂
  rw [hu, hb, queueCount_add, queueCount_full (n := a) (s := u) (by omega) (by omega)]
  rw [h₁, Nat.zero_add] at hc₂ hempty
  by_cases hmod : b % VI_UNDO_QUEUE_MAX = 0
  · right
    obtain ⟨e, he, hty⟩ := hempty (Nat.le_of_dvd (by omega) (Nat.dvd_of_mod_eq_zero hmod))
    refine ⟨fs ++ e₀ :: es, ?_, e, List.mem_append_left _ he, hty⟩
    rw [hfs, he₀, hstack, hes, List.append_assoc]
    rfl
  · left
    intro hok
    have := hok.empty.mpr hc₁
    omega

/-- Pushes and commits only add objects. -/
theorem pushRun_stack : ∀ (lens : List Nat) (t : Ed) (q : Int),
    ∃ es, (pushRun t q lens).undoQueueCommit.undoStack = es ++ t.undoStack := by
  have hcommit : ∀ t : Ed, ∃ es, t.undoQueueCommit.undoStack = es ++ t.undoStack := by
    intro t
    unfold undoQueueCommit
    split
    · exact ⟨[_], rfl⟩
    · exact ⟨[], rfl⟩
  have hcount : ∀ (n : Nat) (t : Ed), ∃ es, (queueCount n t).undoStack = es ++ t.undoStack := by
    intro n
    induction n with
    | zero => exact fun t => ⟨[], rfl⟩
    | succ n ih =>
      intro t
      rw [Nat.add_comm, queueCount_add]
      obtain ⟨es, hes⟩ := ih (queueCount 1 t)
      have hone : ∃ fs, (queueCount 1 t).undoStack = fs ++ t.undoStack := by
        simp only [queueCount]
        split
        · exact hcommit _
        · exact ⟨[], rfl⟩
      obtain ⟨fs, hfs⟩ := hone
      exact ⟨es ++ fs, by rw [hes, hfs, List.append_assoc]⟩
  have hpush : ∀ (t : Ed) (q : Int) (len : Nat),
      ∃ es, (t.undoPush q len .insQueued).undoStack = es ++ t.undoStack := by
    intro t q len
    have hins : ∀ u : Ed, ∃ es, (u.queueInserted q len).undoStack = es ++ u.undoStack := by
      intro u
      obtain ⟨v, hv, -, -, hstack, -, -⟩ := u.queueInserted_start q len
      rw [hv, ← hstack]
      exact hcount len v
    simp only [undoPush]
    split
    · exact ⟨[], rfl⟩
    · split
      · exact hins t
      · exact hins t
      · obtain ⟨es, hes⟩ := hins t.undoQueueCommit
        obtain ⟨fs, hfs⟩ := hcommit t
        exact ⟨es ++ fs, by rw [hes, hfs, List.append_assoc]⟩
  intro lens
  induction lens with
  | nil => exact fun t q => hcommit t
  | cons len lens ih =>
    intro t q
    obtain ⟨es, hes⟩ := ih (t.undoPush q len .insQueued) (q + len)
    obtain ⟨fs, hfs⟩ := hpush t q len
    exact ⟨es ++ fs, by rw [pushRun, hes, hfs, List.append_assoc]⟩

/-- A run goes right exactly when its pushes fit. -/
theorem Running.run_iff {s : Ed} {p : Int} : ∀ (lens : List Nat) {t : Ed} {q : Int},
    Running s p q t → p ≤ q →
    (RunOk t q lens ∧ Counted s p (q + lens.sum) (pushRun t q lens).undoQueueCommit ↔
      RunFits t.undoQ lens)
  | [], t, q, h, _ => by
    have hc := h.counted
    simp only [RunOk, RunFits, List.sum_nil, pushRun, iff_true]
    exact ⟨h.queueOk, by simpa using hc⟩
  | len :: lens, t, q, h, hpq => by
    by_cases hfit : t.undoQ + len ≤ VI_UNDO_QUEUE_MAX
    · obtain ⟨hrun, hq⟩ := h.push hpq hfit
      have ih := hrun.run_iff lens (by omega)
      rw [hq] at ih
      simp only [RunOk, RunFits, pushRun, h.queueOk, hfit, true_and]
      rw [← ih, show q + ((len :: lens).sum : Nat) = q + len + (lens.sum : Nat) by
        rw [List.sum_cons]
        push_cast
        omega]
    · refine iff_of_false ?_ ?_
      · rintro ⟨⟨-, hok⟩, gs, hgs, hall, -⟩
        have hnext : (t.undoPush q len .insQueued).QueueOk := by
          cases lens with
          | nil => exact hok
          | cons _ _ => exact hok.1
        rcases h.overrun hfit with hbad | ⟨es, hes, e, he, hty⟩
        · exact hbad hnext
        · obtain ⟨fs, hfs⟩ := pushRun_stack lens (t.undoPush q len .insQueued) (q + len)
          rw [pushRun, hfs, hes, ← List.append_assoc] at hgs
          obtain rfl := List.append_cancel_right hgs
          have := (hall e (List.mem_append_right _ he)).1
          rw [hty] at this
          cases this
      · rintro ⟨h', -⟩
        exact hfit h'

/-- **The undo queue.**  As long as queued insertions fit, no sequence of primitive changes from the
start of the editor on breaks the representation; and a run of queued insertions keeps it and is
recorded object by object exactly when they do. -/
theorem undoQueue_ok (s : Ed) :
    (∀ (env : Env) (rows columns : Nat),
      Relation.ReflTransGen FittingEdit (mainStart env rows columns) s → s.QueueOk) ∧
    ∀ (p : Int) (lens : List Nat), s.undoQ = 0 → s.undoQueueState = .empty →
      (RunOk s p lens ∧ Counted s p (p + lens.sum) (pushRun s p lens).undoQueueCommit ↔
        RunFits 0 lens) := by
  constructor
  · intro env rows columns h
    induction h with
    | refl => exact ⟨show 0 < VI_UNDO_QUEUE_MAX by decide, iff_of_true rfl rfl⟩
    | tail _ hstep ih => exact hstep.queueOk ih
  · intro p lens hq hst
    have hrun : Running s p p s := by
      refine ⟨rfl, ⟨by rw [hq]; decide, iff_of_true hq hst⟩, fun h => by omega, [], rfl, by simp, ?_⟩
      simp [hq]
    have h := hrun.run_iff lens (Int.le_refl p)
    rwa [hq] at h

theorem queueCount_notDel : ∀ (n : Nat) (u : Ed), u.undoQueueState ≠ .del →
    (queueCount n u).undoQueueState ≠ .del
  | 0, _, h => h
  | n + 1, u, h => by
    refine queueCount_notDel n _ ?_
    split
    · rw [(undoQueueCommit_queue (Nat.succ_pos u.undoQ)).2]
      simp
    · exact h

/-- A queued deletion at the start of the editor; and insertions that fill the queue and go on. -/
theorem undoQueue_ok_full :
    ((mainStart .still 24 80).undoPush 0 1 .delQueued).undoQ = 1 ∧
      ((mainStart .still 24 80).undoPush 0 1 .delQueued).QueueOk ∧
      RunOk (mainStart .still 24 80) 0 [20, 12, 5] ∧
      Counted (mainStart .still 24 80) 0 (0 + 37)
        (pushRun (mainStart .still 24 80) 0 [20, 12, 5]).undoQueueCommit := by
  have hstep : FittingEdit (mainStart .still 24 80)
      ((mainStart .still 24 80).undoPush 0 1 .delQueued) := by
    refine ⟨.push _ 0 1 .delQueued, fun src len h => ?_⟩
    have hdel : ((mainStart .still 24 80).undoPush src len .insQueued).undoQueueState = .del := by
      rw [← h]
      rfl
    by_cases hlen : 0 < len
    · rw [undoPush_insQueued hlen (by simp [mainStart])] at hdel
      exact absurd hdel (queueCount_notDel len _ (by simp [mainStart]))
    · obtain rfl : len = 0 := by omega
      exact Nat.zero_le _
  have hfull := (undoQueue_ok (mainStart .still 24 80)).2 0 [20, 12, 5] rfl rfl
  obtain ⟨hrun, hcounted⟩ := hfull.mpr ⟨by decide, by decide, by decide, trivial⟩
  exact ⟨rfl, (undoQueue_ok _).1 _ _ _ (.single hstep), hrun, hcounted⟩

/-- The autoindent of a line with 33 blanks. -/
theorem undoQueue_overrun :
    ¬ ∀ (s : Ed) (p : Int) (lens : List Nat), s.undoQ = 0 → s.undoQueueState = .empty →
      RunOk s p lens ∧ Counted s p (p + lens.sum) (pushRun s p lens).undoQueueCommit := by
  intro h
  have hbad := (h { Ed.zeroed .still with undoQueueState := .empty } 0 [33] rfl rfl).1.2
  exact absurd (hbad.empty.mpr (by decide +kernel)) (by decide +kernel)

end Ed

end Evim
