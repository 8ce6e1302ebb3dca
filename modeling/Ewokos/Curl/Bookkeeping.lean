import Ewokos.Curl.Multi

/-!
# curl: bookkeeping of the multi handle

* `Multi.Holds` — the list of added handles and the queue of messages a `CURLM` stands for.
* `addHandle_holds`, `removeHandle_holds`, `perform_holds`, `infoRead_holds` — what each operation
  does to them.
* `run_holds` — every run keeps them, reads messages in the order the transfers ended, and leaves
  nothing running.
* `transfers_since_add` — a handle put on the list is transferred by the next perform only.
-/

set_option autoImplicit false

namespace Curl

open Intrusive

namespace Multi

/-- The multi handle stands for the list `l` of handles and the queue `q` of message nodes. -/
structure Holds (m : Multi) (l q : List Nat) : Prop where
  handles : Chain m.nextOf m.handles l
  added : ∀ a, (m.easy a).added = true ↔ a ∈ l
  entered : l.length ≤ m.entered
  queue : Chain m.nodeNext m.messagesHead q
  tail : m.messagesTail = q.getLast?
  allocated : ∀ i ∈ q, i < m.nodeCount
  count : q.length ≤ m.nodeCount

/-- The messages of a queue. -/
def messages (m : Multi) (q : List Nat) : List Message := q.map fun i => (m.nodes i).message

variable {m : Multi} {l q : List Nat}

/-! ## Handles -/

/-- A store that keeps the two members of the list is invisible. -/
theorem Holds.setEasy (h : m.Holds l q) {a : Nat} {x : Handle} (hn : x.next = (m.easy a).next)
    (ha : x.added = (m.easy a).added) : (m.setEasy a x).Holds l q := by
  have hnext : ∀ b, (m.setEasy a x).nextOf b = m.nextOf b := by
    intro b
    by_cases hb : b = a
    · subst hb
      simp [nextOf, Multi.setEasy, hn]
    · simp [nextOf, Multi.setEasy, hb]
  refine { h with handles := h.handles.congr fun b _ => hnext b, added := fun b => ?_ }
  by_cases hb : b = a
  · subst hb
    simp only [Multi.setEasy, Function.update_self, ha]
    exact h.added b
  · simp only [Multi.setEasy, Function.update_of_ne hb]
    exact h.added b

theorem addHandle_of_mem (h : m.Holds l q) {a : Nat} (ha : a ∈ l) :
    m.addHandle (some a) = (.ok, m) := by
  simp only [addHandle, (h.added a).mpr ha, if_true]

theorem addHandle_holds (h : m.Holds l q) {a : Nat} (ha : a ∉ l) :
    (m.addHandle (some a)).1 = .ok ∧ (m.addHandle (some a)).2.Holds (a :: l) q ∧
      (m.addHandle (some a)).2.nodes = m.nodes ∧
      ∀ b, ((m.addHandle (some a)).2.easy b).completed =
        if b = a then false else (m.easy b).completed := by
  have hadd : ¬(m.easy a).added = true := fun hm => ha ((h.added a).mp hm)
  simp only [addHandle, if_neg hadd]
  refine ⟨trivial, ?_, rfl, ?_⟩
  · refine { h with handles := ?_, added := ?_, entered := ?_ }
    · refine (h.handles.cons ha).congr fun b hb => ?_
      by_cases hb : b = a
      · subst hb
        simp [nextOf, Multi.setEasy]
      · simp [nextOf, Multi.setEasy, hb]
    · intro b
      by_cases hb : b = a
      · subst hb
        simp [Multi.setEasy]
      · simp [Multi.setEasy, hb, h.added b]
    · have := h.entered
      simp only [List.length_cons]
      omega
  · intro b
    by_cases hb : b = a
    · subst hb
      simp [Multi.setEasy]
    · simp [Multi.setEasy, hb]

/-- The search runs to the end of a list without the handle. -/
theorem findLink_of_notMem {a : Nat} {l : List Nat} {fuel : Nat} {cur : Option Nat}
    (h : Chain m.nextOf cur l) (hf : l.length ≤ fuel) (ha : a ∉ l) (prev : Option Nat) :
    ∃ link, m.findLink a fuel prev cur = some (link, none) := by
  induction l generalizing fuel prev cur with
  | nil =>
    obtain rfl : cur = none := h
    exact ⟨prev, by cases fuel <;> rfl⟩
  | cons b l ih =>
    obtain ⟨rfl, h⟩ := h
    cases fuel with
    | zero => simp at hf
    | succ fuel =>
      have hb : b ≠ a := fun e => ha (by simp [e])
      simp only [findLink, if_neg hb]
      exact ih h (by simpa using hf) (fun hm => ha (by simp [hm])) (some b)

/-- The search stops at the handle, with the link of the cell before it. -/
theorem findLink_of_mem {a : Nat} {pre post : List Nat} {fuel : Nat} {cur : Option Nat}
    (h : Chain m.nextOf cur (pre ++ a :: post)) (hf : (pre ++ a :: post).length ≤ fuel)
    (ha : a ∉ pre) (prev : Option Nat) :
    m.findLink a fuel prev cur = some (pre.getLast?.or prev, some a) := by
  induction pre generalizing fuel prev cur with
  | nil =>
    obtain ⟨rfl, -⟩ := h
    cases fuel with
    | zero => simp at hf
    | succ fuel => simp [findLink]
  | cons b pre ih =>
    obtain ⟨rfl, h⟩ := h
    cases fuel with
    | zero => simp at hf
    | succ fuel =>
      have hb : b ≠ a := fun e => ha (by simp [e])
      simp only [findLink, if_neg hb]
      have hrest := ih h (by simpa using hf) (fun hm => ha (by simp [hm])) (some b)
      refine hrest.trans ?_
      rw [List.getLast?_cons]
      cases pre.getLast? <;> rfl

/-- Taking a cell off the list, whatever link led to it. -/
theorem setLink_chain {a : Nat} {pre post : List Nat}
    (h : Chain m.nextOf m.handles (pre ++ a :: post)) :
    Chain (m.setLink pre.getLast? (m.easy a).next).nextOf
      (m.setLink pre.getLast? (m.easy a).next).handles (pre ++ post) := by
  induction pre using List.reverseRecOn with
  | nil => exact h.2
  | append_singleton pre p _ =>
    rw [List.append_assoc] at h
    rw [List.getLast?_concat, List.append_assoc]
    refine (Chain.unlink h).congr fun b _ => ?_
    by_cases hb : b = p
    · subst hb
      simp [setLink, Multi.setEasy, nextOf]
    · simp [setLink, Multi.setEasy, nextOf, hb]

theorem setLink_members (link value : Option Nat) (b : Nat) :
    ((m.setLink link value).easy b).added = (m.easy b).added ∧
      ((m.setLink link value).easy b).completed = (m.easy b).completed := by
  cases link with
  | none => exact ⟨rfl, rfl⟩
  | some p =>
    by_cases hb : b = p
    · subst hb
      simp [setLink, Multi.setEasy]
    · simp [setLink, Multi.setEasy, hb]

theorem setLink_rest (link value : Option Nat) :
    (m.setLink link value).entered = m.entered ∧ (m.setLink link value).nodes = m.nodes ∧
      (m.setLink link value).nodeCount = m.nodeCount ∧
      (m.setLink link value).messagesHead = m.messagesHead ∧
      (m.setLink link value).messagesTail = m.messagesTail := by
  cases link <;> exact ⟨rfl, rfl, rfl, rfl, rfl⟩

/-- The last two stores of `curl_multi_remove_handle`. -/
theorem detach_holds {a : Nat} (hc : Chain m.nextOf m.handles l) (ha : a ∉ l)
    (hadd : ∀ b, b ≠ a → ((m.easy b).added = true ↔ b ∈ l)) (he : l.length ≤ m.entered)
    (hq : Chain m.nodeNext m.messagesHead q) (ht : m.messagesTail = q.getLast?)
    (hall : ∀ i ∈ q, i < m.nodeCount) (hn : q.length ≤ m.nodeCount) :
    (m.setEasy a { m.easy a with next := none, added := false }).Holds l q := by
  refine ⟨hc.congr fun b hb => ?_, fun b => ?_, he, hq, ht, hall, hn⟩
  · have hne : b ≠ a := fun e => ha (e ▸ hb)
    simp [nextOf, Multi.setEasy, hne]
  · by_cases hb : b = a
    · subst hb
      simp [Multi.setEasy, ha]
    · simpa [Multi.setEasy, hb] using hadd b hb

theorem removeHandle_holds (h : m.Holds l q) (a : Nat) :
    ∃ m', m.removeHandle (some a) = some (.ok, m') ∧ m'.Holds (l.erase a) q ∧
      m'.nodes = m.nodes ∧ ∀ b, (m'.easy b).completed = (m.easy b).completed := by
  have hnd := h.handles.nodup
  by_cases ha : a ∈ l
  · obtain ⟨pre, post, rfl⟩ := List.append_of_mem ha
    have hpre : a ∉ pre := fun hm => (List.nodup_append.mp hnd).2.2 a hm a (by simp) rfl
    have hpost : a ∉ post := (List.nodup_cons.mp (List.nodup_append.mp hnd).2.1).1
    have hfind := findLink_of_mem h.handles h.entered hpre none
    rw [Option.or_none] at hfind
    have herase : (pre ++ a :: post).erase a = pre ++ post := by
      rw [List.erase_append_right _ hpre, List.erase_cons_head]
    obtain ⟨hent, hnodes, hcount, hhead, htail⟩ :=
      setLink_rest (m := m) pre.getLast? (m.easy a).next
    have hmem := setLink_members (m := m) pre.getLast? (m.easy a).next
    have hchain := setLink_chain h.handles
    generalize hm₁ : m.setLink pre.getLast? (m.easy a).next = m₁ at *
    refine ⟨m₁.setEasy a { m₁.easy a with next := none, added := false }, ?_, ?_, hnodes, ?_⟩
    · simp [removeHandle, hfind, hm₁]
    · rw [herase]
      refine detach_holds hchain (by simp [hpre, hpost]) (fun b hb => ?_) ?_ ?_ (htail.trans h.tail)
        (fun i hi => hcount ▸ h.allocated i hi) (hcount ▸ h.count)
      · rw [(hmem b).1, h.added b]
        simp [hb]
      · have := h.entered
        simp only [List.length_append, List.length_cons] at this ⊢
        omega
      · rw [hhead]
        exact h.queue.congr fun i _ => by rw [nodeNext, nodeNext, hnodes]
    · intro b
      by_cases hb : b = a
      · subst hb
        simpa [Multi.setEasy] using (hmem b).2
      · simpa [Multi.setEasy, hb] using (hmem b).2
  · obtain ⟨link, hfind⟩ := findLink_of_notMem h.handles h.entered ha none
    refine ⟨m.setEasy a { m.easy a with next := none, added := false }, by simp [removeHandle, hfind],
      ?_, rfl, ?_⟩
    · rw [List.erase_of_not_mem ha]
      exact detach_holds h.handles ha (fun b _ => h.added b) h.entered h.queue h.tail h.allocated
        h.count
    · intro b
      by_cases hb : b = a
      · subst hb
        simp [Multi.setEasy]
      · simp [Multi.setEasy, hb]

/-! ## Messages -/

/-- A message put at the end of the queue. -/
theorem queueDone_holds (h : m.Holds l q) (a : Nat) :
    (m.queueDone a true).1 = .ok ∧ (m.queueDone a true).2.Holds l (q ++ [m.nodeCount]) ∧
      (m.queueDone a true).2.messages (q ++ [m.nodeCount]) =
        m.messages q ++ [⟨a, (m.easy a).result⟩] ∧
      (m.queueDone a true).2.easy = m.easy ∧ (m.queueDone a true).2.entered = m.entered ∧
      (m.queueDone a true).2.handles = m.handles := by
  have hfresh : m.nodeCount ∉ q := fun hm => Nat.lt_irrefl _ (h.allocated _ hm)
  have hall : ∀ i ∈ q ++ [m.nodeCount], i < m.nodeCount + 1 := by
    intro i hi
    obtain hi | hi := List.mem_append.mp hi
    · have := h.allocated i hi
      omega
    · have := List.mem_singleton.mp hi
      omega
  have hcount : (q ++ [m.nodeCount]).length ≤ m.nodeCount + 1 := by
    have := h.count
    simp only [List.length_append, List.length_singleton]
    omega
  have hq := h.queue
  have ht := h.tail
  unfold queueDone
  simp only [if_true]
  induction q using List.reverseRecOn with
  | nil =>
    simp only [List.getLast?_nil] at ht
    simp only [ht]
    refine ⟨trivial, { h with queue := ?_, tail := rfl, allocated := hall, count := hcount },
      ?_, trivial, trivial, trivial⟩
    · refine ⟨rfl, ?_⟩
      simp only [nodeNext, Function.update_self]
      rfl
    · simp [messages]
  | append_singleton q t _ =>
    rw [List.getLast?_concat] at ht
    simp only [ht]
    have hne : m.nodeCount ≠ t := fun e => hfresh (by simp [e])
    refine ⟨trivial, { h with
      queue := ?_, tail := by simp, allocated := hall, count := hcount }, ?_, trivial, trivial, trivial⟩
    · -- the new node is linked behind the tail
      have hnew : Chain (Function.update m.nodeNext m.nodeCount none) m.messagesHead (q ++ [t]) :=
        hq.congr fun i hi => Function.update_of_ne (fun e : i = m.nodeCount => hfresh (e ▸ hi)) _ _
      refine (hnew.concat hfresh (by simp)).congr fun i _ => ?_
      by_cases hi : i = t
      · subst hi
        simp [nodeNext]
      · by_cases hi' : i = m.nodeCount
        · subst hi'
          simp [nodeNext, hi]
        · simp [nodeNext, hi, hi']
    · unfold messages
      rw [List.map_append]
      congr 1
      · apply List.map_congr_left
        intro i hi
        have hi' : i ≠ m.nodeCount := fun e => hfresh (e ▸ hi)
        by_cases hit : i = t
        · subst hit
          simp [hi']
        · simp [hit, hi']
      · simp [hne]

/-! ## Perform -/

/-- A transfer marks its handle and leaves it on the list. -/
theorem easyPerform_spec (w : World) (h : Handle) :
    ∃ o, easyPerform w h = some o ∧ o.handle.completed = true ∧ o.handle.result = o.code ∧
      o.handle.added = h.added ∧ o.handle.next = h.next := by
  obtain ⟨o, ho⟩ := perform_total w (clearTransferResults h)
  have hc := perform_config ho
  have ha := congrArg Handle.added hc
  have hn := congrArg Handle.next hc
  exact ⟨{ o with handle := { o.handle with result := o.code, completed := true } },
    by simp [easyPerform, ho], rfl, rfl, ha, hn⟩

/-- The loop transfers the handles that are not completed, in the order of the list, and queues one
message for each. -/
theorem performFrom_holds (worlds : Nat → World) {alloc : Nat → Bool} (halloc : ∀ a, alloc a = true)
    {rest : List Nat} {fuel : Nat} {head : Option Nat} (h : m.Holds l q)
    (hc : Chain m.nextOf head rest) (hf : rest.length ≤ fuel) :
    ∃ m' q' transfers, performFrom worlds alloc fuel head m = some (.ok, m', transfers) ∧
      m'.Holds l (q ++ q') ∧ m'.messages (q ++ q') = m.messages q ++ transfers ∧
      transfers.map Message.easyHandle = rest.filter (fun a => !(m.easy a).completed) ∧
      (∀ a, (m'.easy a).completed = true ↔ a ∈ rest ∨ (m.easy a).completed = true) ∧
      m'.handles = m.handles ∧ m'.entered = m.entered := by
  induction rest generalizing m q fuel head with
  | nil =>
    obtain rfl : head = none := hc
    refine ⟨m, [], [], by cases fuel <;> rfl, by simpa using h, by simp, rfl, by simp, rfl, rfl⟩
  | cons a rest ih =>
    obtain ⟨hnotMem, -⟩ := List.nodup_cons.mp hc.nodup
    obtain ⟨rfl, hc⟩ := hc
    cases fuel with
    | zero => simp at hf
    | succ fuel =>
      have hf' : rest.length ≤ fuel := by simpa using hf
      by_cases hdone : (m.easy a).completed = true
      · obtain ⟨m', q', transfers, hp, hh, hm, ht, hcomp, hhead, hent⟩ := ih h hc hf'
        refine ⟨m', q', transfers, ?_, hh, hm, ?_, ?_, hhead, hent⟩
        · rw [performFrom, if_pos hdone]
          exact hp
        · rw [ht, List.filter_cons, if_neg (by simp [hdone])]
        · intro b
          rw [hcomp b, List.mem_cons]
          constructor
          · rintro (hb | hb)
            · exact Or.inl (Or.inr hb)
            · exact Or.inr hb
          · rintro ((rfl | hb) | hb)
            · exact Or.inr hdone
            · exact Or.inl hb
            · exact Or.inr hb
      · obtain ⟨o, ho, hcompleted, hresult, hadded, hnext⟩ := easyPerform_spec (worlds a) (m.easy a)
        have h₁ := h.setEasy hnext hadded
        obtain ⟨hcode, h₂, hmess, heasy, hent₂, hhead₂⟩ := queueDone_holds h₁ a
        rw [show (m.setEasy a o.handle).nodeCount = m.nodeCount from rfl] at h₂ hmess
        have hstep : (m.setEasy a o.handle).queueDone a true =
            (.ok, ((m.setEasy a o.handle).queueDone a true).2) := Prod.ext hcode rfl
        generalize ((m.setEasy a o.handle).queueDone a true).2 = m₂ at *
        have hsame : ∀ b, b ≠ a → m₂.easy b = m.easy b := fun b hb => by
          simp [heasy, Multi.setEasy, hb]
        have hself : m₂.easy a = o.handle := by simp [heasy, Multi.setEasy]
        have hc₂ : Chain m₂.nextOf (m₂.easy a).next rest := by
          rw [hself, hnext]
          refine hc.congr fun b hb => ?_
          rw [nextOf, nextOf, hsame b fun e => hnotMem (e ▸ hb)]
        obtain ⟨m', q', transfers, hp, hh, hm, ht, hcomp, hhead, hent⟩ := ih h₂ hc₂ hf'
        refine ⟨m', m.nodeCount :: q', ⟨a, o.code⟩ :: transfers, ?_, by simpa using hh, ?_, ?_, ?_,
          hhead.trans hhead₂, hent.trans hent₂⟩
        · simp [performFrom, hdone, ho, halloc, hstep, hp]
        · have hq : q ++ m.nodeCount :: q' = q ++ [m.nodeCount] ++ q' := by simp
          have hres : ((m.setEasy a o.handle).easy a).result = o.code := by
            simp [Multi.setEasy, hresult]
          rw [hq, hm, hmess, hres, List.append_assoc]
          rfl
        · have hfilter : rest.filter (fun b => !(m₂.easy b).completed) =
              rest.filter (fun b => !(m.easy b).completed) :=
            List.filter_congr fun b hb => by rw [hsame b fun e => hnotMem (e ▸ hb)]
          rw [List.map_cons, ht, hfilter, List.filter_cons, if_pos (by simpa using hdone)]
        · intro b
          rw [hcomp b, List.mem_cons]
          by_cases hb : b = a
          · subst hb
            simp [hself, hcompleted]
          · simp [hsame b hb, hb]

/-- A perform completes the whole list and leaves nothing running. -/
theorem perform_holds (worlds : Nat → World) {alloc : Nat → Bool} (halloc : ∀ a, alloc a = true)
    (h : m.Holds l q) :
    ∃ m' q' transfers, m.perform worlds alloc = some (.ok, some 0, m', transfers) ∧
      m'.Holds l (q ++ q') ∧ m'.messages (q ++ q') = m.messages q ++ transfers ∧
      transfers.map Message.easyHandle = l.filter (fun a => !(m.easy a).completed) ∧
      ∀ a, (m'.easy a).completed = true ↔ a ∈ l ∨ (m.easy a).completed = true := by
  obtain ⟨m', q', transfers, hp, hh, hm, ht, hcomp, hhead, hent⟩ :=
    performFrom_holds worlds halloc h h.handles h.entered
  refine ⟨m', q', transfers, ?_, hh, hm, ht, hcomp⟩
  have hwalk : walk m'.nextOf m'.entered m'.handles = some l := walk_eq hh.handles hh.entered
  have hnone : l.countP (fun a => !(m'.easy a).completed) = 0 := by
    rw [List.countP_eq_zero]
    intro a ha
    simp [(hcomp a).mpr (Or.inl ha)]
  simp [Multi.perform, hp, hwalk, hnone]

/-! ## Reading -/

theorem popMessage_holds (h : m.Holds l q) :
    m.popMessage.Holds l q.tail ∧ m.popMessage.easy = m.easy ∧ m.popMessage.nodes = m.nodes ∧
      m.messagesHead = q.head? := by
  have hq := h.queue
  cases q with
  | nil =>
    have hhead : m.messagesHead = none := hq
    have hm : m.popMessage = m := by simp [popMessage, hhead]
    rw [hm]
    exact ⟨h, rfl, rfl, hhead⟩
  | cons i q =>
    obtain ⟨hhead, hrest⟩ := hq
    have hm : m.popMessage = { m with
        messagesHead := (m.nodes i).next
        messagesTail := if (m.nodes i).next.isNone then none else m.messagesTail } := by
      simp [popMessage, hhead]
    rw [hm]
    refine ⟨{ h with queue := hrest, tail := ?_, allocated := ?_, count := ?_ }, rfl, rfl, hhead⟩
    · cases q with
      | nil =>
        have hnext : (m.nodes i).next = none := hrest
        simp [hnext]
      | cons j q =>
        have hnext : (m.nodes i).next = some j := hrest.1
        rw [h.tail]
        simp [hnext]
    · exact fun j hj => h.allocated j (List.mem_cons_of_mem _ hj)
    · have := h.count
      simp only [List.length_cons, List.tail_cons] at this ⊢
      omega

/-- A read takes the oldest message and counts the others. -/
theorem infoRead_holds (h : m.Holds l q) :
    ∃ m', m.infoRead = some ((m.messages q).head?, q.tail.length, m') ∧ m'.Holds l q.tail ∧
      m'.easy = m.easy ∧ m'.nodes = m.nodes := by
  obtain ⟨hp, heasy, hnodes, hhead⟩ := popMessage_holds h
  have hw := walk_eq hp.queue hp.count
  refine ⟨m.popMessage, ?_, hp, heasy, hnodes⟩
  simp only [infoRead, hw, hhead, Option.map_some, messages]
  cases q <;> rfl

end Multi

/-! ## The board

What the multi handle is for: which handles are added, which of them are done, and the messages
nobody has read yet. -/

structure Board where
  added : List Nat
  nodup : added.Nodup
  done : Nat → Bool
  queue : List Message

namespace Board

/-- Put a handle on the list. -/
def add (b : Board) (a : Nat) (h : a ∉ b.added) : Board :=
  { b with
    added := a :: b.added
    nodup := List.nodup_cons.mpr ⟨h, b.nodup⟩
    done := Function.update b.done a false }

/-- Take a handle off the list. -/
def remove (b : Board) (a : Nat) : Board :=
  { b with added := b.added.erase a, nodup := b.nodup.erase a }

/-- All added handles are done, with these messages. -/
def finish (b : Board) (messages : List Message) : Board :=
  { b with done := fun a => decide (a ∈ b.added) || b.done a, queue := b.queue ++ messages }

/-- Drop the oldest message. -/
def read (b : Board) : Board := { b with queue := b.queue.tail }

@[simp] theorem add_queue (b : Board) (a : Nat) (h : a ∉ b.added) : (b.add a h).queue = b.queue :=
  rfl

@[simp] theorem remove_queue (b : Board) (a : Nat) : (b.remove a).queue = b.queue := rfl

/-- What a call does to the board, and what it returns. -/
inductive Step (b : Board) : Op → Out → Board → Prop where
  | setopt (a : Nat) (options : Handle → Handle) : Step b (.setopt a options) (.code .ok) b
  | addNull : Step b (.addHandle none) (.code .badEasyHandle) b
  | addAgain {a : Nat} (h : a ∈ b.added) : Step b (.addHandle (some a)) (.code .ok) b
  | add {a : Nat} (h : a ∉ b.added) : Step b (.addHandle (some a)) (.code .ok) (b.add a h)
  | removeNull : Step b (.removeHandle none) (.code .badEasyHandle) b
  | remove (a : Nat) : Step b (.removeHandle (some a)) (.code .ok) (b.remove a)
  | perform (worlds : Nat → World) (alloc : Nat → Bool) {transfers : List Message}
      (h : transfers.map Message.easyHandle = b.added.filter (fun a => !b.done a)) :
      Step b (.perform worlds alloc) (.performed .ok (some 0) transfers) (b.finish transfers)
  | infoRead : Step b .infoRead (.read b.queue.head? b.queue.tail.length) b.read

/-- The board over a sequence of calls. -/
inductive Run : Board → List Op → List Out → Board → Prop where
  | nil (b : Board) : Run b [] [] b
  | cons {b b' b'' : Board} {op : Op} {ops : List Op} {out : Out} {outs : List Out}
      (step : Step b op out b') (run : Run b' ops outs b'') : Run b (op :: ops) (out :: outs) b''

end Board

/-- The multi handle stands for the board. -/
def Multi.Rep (m : Multi) (b : Board) : Prop :=
  (∀ a, (m.easy a).completed = b.done a) ∧
    ∃ q, m.Holds b.added q ∧ m.messages q = b.queue

/-- Every message a perform queues gets its memory. -/
def Op.Allocs : Op → Prop
  | .perform _ alloc => ∀ a, alloc a = true
  | _ => True

/-- Each call does to the multi handle what it does to the board. -/
theorem step_refines {m : Multi} {b : Board} (h : m.Rep b) {op : Op} (ha : op.Allocs) :
    ∃ m' out b', step m op = some (m', out) ∧ b.Step op out b' ∧ m'.Rep b' := by
  obtain ⟨hdone, q, hq, hmess⟩ := h
  cases op with
  | setopt a options =>
    refine ⟨_, _, b, rfl, .setopt a options, ?_, q, hq.setEasy rfl rfl, hmess⟩
    intro c
    by_cases hc : c = a
    · subst hc
      simp [Multi.setEasy, Handle.setOptions, hdone]
    · simp [Multi.setEasy, hc, hdone]
  | addHandle handle =>
    cases handle with
    | none => exact ⟨_, _, b, rfl, .addNull, hdone, q, hq, hmess⟩
    | some a =>
      by_cases hm : a ∈ b.added
      · refine ⟨m, .code .ok, b, ?_, .addAgain hm, hdone, q, hq, hmess⟩
        simp [step, Multi.addHandle_of_mem hq hm]
      · obtain ⟨hcode, hh, hnodes, hcomp⟩ := Multi.addHandle_holds hq hm
        refine ⟨(m.addHandle (some a)).2, .code .ok, b.add a hm, ?_, .add hm, ?_, q, hh, ?_⟩
        · simp only [step, hcode]
        · intro c
          rw [hcomp c, hdone c]
          simp [Board.add, Function.update_apply]
        · simpa [Multi.messages, hnodes] using hmess
  | removeHandle handle =>
    cases handle with
    | none => exact ⟨_, _, b, rfl, .removeNull, hdone, q, hq, hmess⟩
    | some a =>
      obtain ⟨m', hr, hh, hnodes, hcomp⟩ := Multi.removeHandle_holds hq a
      refine ⟨m', .code .ok, b.remove a, by simp [step, hr], .remove a, ?_, q, hh, ?_⟩
      · intro c
        rw [hcomp c, hdone c]
        rfl
      · simpa [Multi.messages, hnodes] using hmess
  | perform worlds alloc =>
    obtain ⟨m', q', transfers, hp, hh, hm, ht, hcomp⟩ := Multi.perform_holds worlds ha hq
    refine ⟨m', .performed .ok (some 0) transfers, b.finish transfers, by simp [step, hp],
      .perform worlds alloc ?_, ?_, q ++ q', hh, ?_⟩
    · simp only [ht, hdone]
    · intro c
      rw [Bool.eq_iff_iff, hcomp c, hdone c]
      simp [Board.finish]
    · rw [hm, hmess]
      rfl
  | infoRead =>
    obtain ⟨m', hr, hh, heasy, hnodes⟩ := Multi.infoRead_holds hq
    refine ⟨m', .read b.queue.head? b.queue.tail.length, b.read, ?_, .infoRead, ?_, q.tail, hh, ?_⟩
    · rw [← hmess]
      simp [step, hr, Multi.messages]
    · intro c
      rw [heasy, hdone c]
      rfl
    · simp only [Board.read, ← hmess, Multi.messages, hnodes, List.map_tail]

/-! ## Runs -/

/-- The messages a call queued. -/
def Out.queued : Out → List Message
  | .performed _ _ transfers => transfers
  | _ => []

/-- The message a call read. -/
def Out.taken : Out → List Message
  | .read (some message) _ => [message]
  | _ => []

theorem run_refines {ops : List Op} (ha : ∀ op ∈ ops, op.Allocs) {m : Multi} {b : Board}
    (h : m.Rep b) :
    ∃ m' outs b', run m ops = some (m', outs) ∧ b.Run ops outs b' ∧ m'.Rep b' := by
  induction ops generalizing m b with
  | nil => exact ⟨m, [], b, rfl, .nil b, h⟩
  | cons op ops ih =>
    obtain ⟨m₁, out, b₁, hs, hb, hr⟩ := step_refines h (ha op (by simp))
    obtain ⟨m₂, outs, b₂, hs', hb', hr'⟩ := ih (fun o ho => ha o (by simp [ho])) hr
    exact ⟨m₂, out :: outs, b₂, by simp [run, hs, hs'], .cons hb hb', hr'⟩

/-- A run can be cut in two. -/
theorem run_append {m m' : Multi} {pre post : List Op} {outs : List Out}
    (h : run m (pre ++ post) = some (m', outs)) :
    ∃ m₁ outs₁ outs₂, run m pre = some (m₁, outs₁) ∧ run m₁ post = some (m', outs₂) ∧
      outs = outs₁ ++ outs₂ ∧ outs₁.length = pre.length := by
  induction pre generalizing m outs with
  | nil => exact ⟨m, [], outs, rfl, h, rfl, rfl⟩
  | cons op pre ih =>
    simp only [List.cons_append, run, Option.bind_eq_bind, Option.bind_eq_some_iff,
      Option.some.injEq, Prod.mk.injEq, Prod.exists] at h
    obtain ⟨m₁, out, hs, m₂, rest, hrest, rfl, rfl⟩ := h
    obtain ⟨m₃, outs₁, outs₂, h₁, h₂, rfl, hl⟩ := ih hrest
    exact ⟨m₃, out :: outs₁, outs₂, by simp [run, hs, h₁], h₂, rfl, by simp [hl]⟩

theorem multiInit_rep (easy : Nat → Handle) :
    (multiInit easy).Rep ⟨[], List.nodup_nil, fun _ => false, []⟩ :=
  ⟨fun _ => rfl, [], ⟨rfl, fun a => by simp [multiInit], by simp, rfl, rfl, by simp, by simp⟩, rfl⟩

namespace Board

/-- First in, first out: what was queued is what was read and what is left. -/
theorem Run.fifo {b b' : Board} {ops : List Op} {outs : List Out} (h : b.Run ops outs b') :
    b.queue ++ outs.flatMap Out.queued = outs.flatMap Out.taken ++ b'.queue := by
  induction h with
  | nil b => simp
  | @cons b b' b'' op ops out outs step run ih =>
    rw [List.flatMap_cons, List.flatMap_cons, List.append_assoc, ← ih]
    cases step with
    | infoRead =>
      cases hq : b.queue with
      | nil => simp [Out.queued, Out.taken, Board.read, hq]
      | cons x q => simp [Out.queued, Out.taken, Board.read, hq]
    | perform worlds alloc ht => simp [Out.queued, Out.taken, Board.finish]
    | _ => simp [Out.queued, Out.taken]

/-- Every perform succeeds and leaves nothing running. -/
theorem Run.performed {b b' : Board} {ops : List Op} {outs : List Out} (h : b.Run ops outs b')
    {c : MCode} {running : Option Nat} {transfers : List Message}
    (hm : .performed c running transfers ∈ outs) : c = .ok ∧ running = some 0 := by
  induction h with
  | nil b => simp at hm
  | cons step run ih =>
    obtain hm | hm := List.mem_cons.mp hm
    · cases step <;> simp_all
    · exact ih hm

/-- The count of a read is what was queued and not read so far. -/
theorem Run.count {b b' : Board} {ops : List Op} {outs pre post : List Out} {n : Nat}
    {message : Option Message} (h : b.Run ops outs b')
    (ho : outs = pre ++ .read message n :: post) :
    n + (pre.flatMap Out.taken ++ (Out.read message n).taken).length =
      (b.queue ++ pre.flatMap Out.queued).length := by
  induction pre generalizing b ops outs with
  | nil =>
    subst ho
    cases h with
    | cons step run =>
      cases step with
      | infoRead =>
        cases hq : b.queue with
        | nil => simp [Out.taken]
        | cons x q => simp [Out.taken]
  | cons out pre ih =>
    subst ho
    cases h with
    | @cons _ b₁ _ op ops _ _ step run =>
      have hrest := ih run rfl
      have hstep := (Run.cons step (Run.nil b₁)).fifo
      have hlen := congrArg List.length hstep
      simp only [List.flatMap_cons, List.flatMap_nil, List.append_nil, List.length_append] at *
      omega

/-- How often a handle was transferred. -/
def transfersOf (a : Nat) (outs : List Out) : Nat :=
  ((outs.flatMap Out.queued).map Message.easyHandle).count a

theorem transfersOf_cons (a : Nat) (out : Out) (outs : List Out) :
    transfersOf a (out :: outs) =
      (out.queued.map Message.easyHandle).count a + transfersOf a outs := by
  simp [transfersOf]

/-- One call on an added handle: it stays added unless removed, only a perform transfers it, and
only while it is not done. -/
theorem Step.transfers {b b' : Board} {op : Op} {out : Out} (h : b.Step op out b') {a : Nat}
    (ha : a ∈ b.added) (hr : op ≠ .removeHandle (some a)) :
    a ∈ b'.added ∧
      (b.done a = true → b'.done a = true ∧ (out.queued.map Message.easyHandle).count a = 0) ∧
      (b.done a = false →
        (∃ worlds alloc, op = .perform worlds alloc) ∧ b'.done a = true ∧
            (out.queued.map Message.easyHandle).count a = 1 ∨
          (∀ worlds alloc, op ≠ .perform worlds alloc) ∧ b'.done a = false ∧
            (out.queued.map Message.easyHandle).count a = 0) := by
  cases h with
  | @add a' hnew =>
    have hne : a ≠ a' := fun e => hnew (e ▸ ha)
    refine ⟨List.mem_cons_of_mem _ ha, ?_, ?_⟩ <;> simp [Board.add, hne, Out.queued]
  | remove a' =>
    have hne : a ≠ a' := by
      rintro rfl
      exact hr rfl
    exact ⟨(List.mem_erase_of_ne hne).mpr ha, fun hd => ⟨hd, rfl⟩,
      fun hd => Or.inr ⟨by simp, hd, rfl⟩⟩
  | perform worlds alloc ht =>
    refine ⟨ha, ?_, ?_⟩
    · intro hd
      refine ⟨by simp [finish, hd], ?_⟩
      rw [Out.queued, ht, List.count_eq_zero]
      simp [hd]
    · intro hd
      refine Or.inl ⟨⟨worlds, alloc, rfl⟩, by simp [finish, ha], ?_⟩
      rw [Out.queued, ht]
      exact List.count_eq_one_of_mem (b.nodup.filter _) (by simp [ha, hd])
  | _ => exact ⟨ha, fun hd => ⟨hd, rfl⟩, fun hd => Or.inr ⟨by simp, hd, rfl⟩⟩

/-- A handle that is done is not transferred again while it stays added. -/
theorem Run.transfers_done {b b' : Board} {ops : List Op} {outs : List Out}
    (h : b.Run ops outs b') {a : Nat} (ha : a ∈ b.added) (hd : b.done a = true)
    (hr : .removeHandle (some a) ∉ ops) : transfersOf a outs = 0 := by
  induction h with
  | nil b => rfl
  | cons step run ih =>
    simp only [List.mem_cons, not_or] at hr
    obtain ⟨ha', hdone, -⟩ := step.transfers ha (Ne.symm hr.1)
    obtain ⟨hd', hc⟩ := hdone hd
    rw [transfersOf_cons, hc, ih ha' hd' hr.2]

/-- A handle that is not done is transferred by the next perform, and not again. -/
theorem Run.transfers_once {b b' : Board} {ops : List Op} {outs : List Out}
    (h : b.Run ops outs b') {a : Nat} (ha : a ∈ b.added) (hd : b.done a = false)
    (hr : .removeHandle (some a) ∉ ops) (hp : ∃ worlds alloc, .perform worlds alloc ∈ ops) :
    transfersOf a outs = 1 := by
  induction h with
  | nil b => simp at hp
  | cons step run ih =>
    simp only [List.mem_cons, not_or] at hr
    obtain ⟨ha', -, hnot⟩ := step.transfers ha (Ne.symm hr.1)
    rw [transfersOf_cons]
    obtain ⟨-, hd', hc⟩ | ⟨hno, hd', hc⟩ := hnot hd
    · rw [hc, run.transfers_done ha' hd' hr.2]
    · obtain ⟨worlds, alloc, hm⟩ := hp
      obtain rfl | hm := List.mem_cons.mp hm
      · exact absurd rfl (hno worlds alloc)
      · rw [hc, ih ha' hd' hr.2 ⟨worlds, alloc, hm⟩]

end Board

/-- **Bookkeeping of the multi handle.**  After any calls on one `CURLM`: the list holds exactly
the added handles, once each; messages come out in the order the transfers ended, none lost and
none twice; every read reports how many are left; every perform leaves nothing running; a handle
put on the list gets one message once it is performed and not removed, and adding it again while
it is there changes nothing. -/
theorem multi_bookkeeping (easy : Nat → Handle) (ops : List Op) (ha : ∀ op ∈ ops, op.Allocs) :
    ∃ m outs l q, run (multiInit easy) ops = some (m, outs) ∧
      (Chain m.nextOf m.handles l ∧ l.Nodup ∧ ∀ a, (m.easy a).added = true ↔ a ∈ l) ∧
      (Chain m.nodeNext m.messagesHead q ∧
        outs.flatMap Out.queued = outs.flatMap Out.taken ++ m.messages q) ∧
      (∀ pre post message n, outs = pre ++ .read message n :: post →
        n + (pre.flatMap Out.taken ++ (Out.read message n).taken).length =
          (pre.flatMap Out.queued).length) ∧
      (∀ c running transfers, .performed c running transfers ∈ outs →
        c = .ok ∧ running = some 0) ∧
      (∀ pre a post m₁ outs₁, ops = pre ++ .addHandle (some a) :: post →
        run (multiInit easy) pre = some (m₁, outs₁) → (m₁.easy a).added = false →
        .removeHandle (some a) ∉ post → (∃ worlds alloc, .perform worlds alloc ∈ post) →
        Board.transfersOf a (outs.drop pre.length) = 1) ∧
      ∀ a, (m.easy a).added = true → m.addHandle (some a) = (.ok, m) := by
  obtain ⟨m, outs, b, hrun, hb, hdone, q, hq, hmess⟩ := run_refines ha (multiInit_rep easy)
  refine ⟨m, outs, b.added, q, hrun, ⟨hq.handles, b.nodup, hq.added⟩, ⟨hq.queue, ?_⟩, ?_,
    fun _ _ _ hm => hb.performed hm, ?_, fun a hadd => Multi.addHandle_of_mem hq ((hq.added a).mp hadd)⟩
  · rw [hmess, ← hb.fifo]
    rfl
  · intro pre post message n ho
    exact hb.count ho
  · intro pre a post m₁ outs₁ hops hpre hadd hrem hperf
    subst hops
    obtain ⟨m₂, outs₂, outs₃, hpre', hpost, rfl, hlen⟩ := run_append hrun
    obtain ⟨rfl, rfl⟩ := Prod.mk.inj (Option.some.inj (hpre.symm.trans hpre'))
    obtain ⟨m₂, outs₂, b₁, hpre₂, -, hrep⟩ :=
      run_refines (fun op ho => ha op (List.mem_append_left _ ho)) (multiInit_rep easy)
    obtain ⟨rfl, rfl⟩ := Prod.mk.inj (Option.some.inj (hpre.symm.trans hpre₂))
    obtain ⟨m₂, outs₂, b₂, hpost₂, hrun₂, -⟩ :=
      run_refines (fun op ho => ha op (List.mem_append_right _ ho)) hrep
    obtain ⟨rfl, rfl⟩ := Prod.mk.inj (Option.some.inj (hpost.symm.trans hpost₂))
    obtain ⟨-, q₁, hq₁, -⟩ := hrep
    have hnot : a ∉ b₁.added := fun hm => by
      rw [(hq₁.added a).mpr hm] at hadd
      simp at hadd
    rw [← hlen, List.drop_left]
    cases hrun₂ with
    | cons step run =>
      cases step with
      | addAgain h => exact absurd h hnot
      | add h =>
        rw [Board.transfersOf_cons,
          run.transfers_once (by simp [Board.add]) (by simp [Board.add]) hrem hperf]
        rfl

/-- A handle without a URL, so that its transfer ends at once. -/
def idle : Op := .perform (fun _ => twoChunks) (fun _ => true)

/-- A handle that is added again while it is on the list is not performed again: its second add is
followed by a perform while it is added, and no message is queued. -/
theorem add_again_no_message :
    (run (multiInit fun _ => easyInit) [.addHandle (some 0), idle, .addHandle (some 0), idle]).map
        (fun r => (r.1.handles, r.2)) =
      some (some 0, [.code .ok, .performed .ok (some 0) [⟨0, .urlMalformat⟩], .code .ok,
        .performed .ok (some 0) []]) := by
  decide

/-- Two handles added, performed and read. -/
theorem multi_bookkeeping_two :
    ∃ m outs, run (multiInit fun _ => easyInit)
        [.addHandle (some 0), .addHandle (some 1), idle, .infoRead] = some (m, outs) ∧
      Board.transfersOf 0 outs = 1 := by
  have hok : ∀ op ∈ [Op.addHandle (some 0), .addHandle (some 1), idle, .infoRead], op.Allocs := by
    simp [Op.Allocs, idle]
  obtain ⟨m, outs, l, q, hrun, -, -, -, -, honce, -⟩ := multi_bookkeeping (fun _ => easyInit) _ hok
  exact ⟨m, outs, hrun, honce [] 0 [.addHandle (some 1), idle, .infoRead] _ _ rfl rfl rfl
    (by simp [idle]) ⟨_, _, by simp [idle]; exact ⟨rfl, rfl⟩⟩⟩

end Curl
