import Ewokos.Curl.Bookkeeping

/-!
# curl: messages for removed handles

`curl_multi_remove_handle` and the messages nobody has read yet.

* `Multi.Grows` — a message node that was allocated keeps its message.
* `step_queue`, `run_queue` — what any call does to the queue, with or without memory.
* `reads_to` — reading comes to every message of the queue.

Main result: `no_stale_message_iff`.
-/

set_option autoImplicit false

namespace Curl

open Intrusive

/-! ## The specification -/

/-- The messages nobody has read yet. -/
def Multi.unread (m : Multi) : List Message :=
  ((walk m.nodeNext m.nodeCount m.messagesHead).getD []).map fun i => (m.nodes i).message

/-- A read returns node `i`, which was queued for `a` before the application removed `a`. -/
def ReadsRemoved (easy : Nat → Handle) (ops : List Op) : Prop :=
  ∃ (pre : List Op) (a : Nat) (mid post : List Op) (m₁ m₂ : Multi) (outs₁ outs₂ : List Out)
    (i : Nat), ops = pre ++ .removeHandle (some a) :: (mid ++ .infoRead :: post) ∧
      run (multiInit easy) pre = some (m₁, outs₁) ∧
      run (multiInit easy) (pre ++ .removeHandle (some a) :: mid) = some (m₂, outs₂) ∧
      i < m₁.nodeCount ∧ (m₁.nodes i).message.easyHandle = a ∧ m₂.messagesHead = some i

/-- No handle is removed while there is an unread message for it. -/
def RemovesRead (easy : Nat → Handle) (ops : List Op) : Prop :=
  ∀ (pre : List Op) (a : Nat) (post : List Op), ops = pre ++ .removeHandle (some a) :: post →
    ∀ (m : Multi) (outs : List Out), run (multiInit easy) pre = some (m, outs) →
      ∀ message ∈ m.unread, message.easyHandle ≠ a

/-! ## One call -/

namespace Multi

variable {m m' m'' : Multi} {l l' q q' q'' : List Nat}

/-- Later on there may be more nodes. -/
structure Grows (m m' : Multi) : Prop where
  count : m.nodeCount ≤ m'.nodeCount
  message : ∀ i < m.nodeCount, (m'.nodes i).message = (m.nodes i).message

theorem Grows.refl (m : Multi) : m.Grows m := ⟨le_refl _, fun _ _ => rfl⟩

theorem Grows.trans (h : m.Grows m') (h' : m'.Grows m'') : m.Grows m'' :=
  ⟨h.count.trans h'.count, fun i hi =>
    (h'.message i (Nat.lt_of_lt_of_le hi h.count)).trans (h.message i hi)⟩

theorem Grows.of_eq (hcount : m'.nodeCount = m.nodeCount) (hnodes : m'.nodes = m.nodes) :
    m.Grows m' := ⟨le_of_eq hcount.symm, fun i _ => by rw [hnodes]⟩

theorem addHandle_nodeCount (handle : Option Nat) :
    (m.addHandle handle).2.nodeCount = m.nodeCount := by
  unfold addHandle
  split
  · rfl
  · split <;> rfl

theorem removeHandle_nodeCount {handle : Option Nat} {c : MCode}
    (h : m.removeHandle handle = some (c, m')) : m'.nodeCount = m.nodeCount := by
  unfold removeHandle at h
  split at h
  · cases h
    rfl
  · obtain ⟨⟨link, found⟩, -, h⟩ := Option.bind_eq_some_iff.mp h
    cases h
    dsimp only
    split
    · exact (setLink_rest link _).2.2.1
    · rfl

theorem popMessage_nodeCount : m.popMessage.nodeCount = m.nodeCount := by
  unfold popMessage
  split <;> rfl

theorem infoRead_nodeCount {message : Option Message} {n : Nat}
    (h : m.infoRead = some (message, n, m')) : m'.nodeCount = m.nodeCount := by
  obtain ⟨rest, -, h⟩ := Option.map_eq_some_iff.mp h
  cases h
  exact popMessage_nodeCount

theorem queueDone_grows (a : Nat) : m.Grows (m.queueDone a true).2 := by
  refine ⟨?_, fun i hi => ?_⟩
  · unfold queueDone
    rw [if_pos rfl]
    exact Nat.le_succ _
  · have hne : i ≠ m.nodeCount := Nat.ne_of_lt hi
    unfold queueDone
    rw [if_pos rfl]
    dsimp only
    split
    · rename_i t _
      by_cases ht : i = t
      · subst ht
        simp [hne]
      · simp [ht, hne]
    · simp [hne]

/-- The loop of a perform, when some messages get no memory. -/
theorem performFrom_queue (worlds : Nat → World) (alloc : Nat → Bool) {rest : List Nat} {fuel : Nat}
    {head : Option Nat} (h : m.Holds l q) (hc : Chain m.nextOf head rest)
    (hf : rest.length ≤ fuel) :
    ∃ c m' transfers new, performFrom worlds alloc fuel head m = some (c, m', transfers) ∧
      m'.Holds l (q ++ new) ∧ m.Grows m' ∧ (∀ i ∈ new, m.nodeCount ≤ i) ∧
      m'.handles = m.handles ∧ m'.entered = m.entered := by
  induction rest generalizing m q fuel head with
  | nil =>
    obtain rfl : head = none := hc
    refine ⟨.ok, m, [], [], by cases fuel <;> rfl, ?_, .refl m, fun i hi => ?_, rfl, rfl⟩
    · rw [List.append_nil]
      exact h
    · cases hi
  | cons a rest ih =>
    obtain ⟨hnotMem, -⟩ := List.nodup_cons.mp hc.nodup
    obtain ⟨rfl, hc⟩ := hc
    obtain ⟨fuel, rfl⟩ : ∃ n, fuel = n + 1 := ⟨fuel - 1, by
      rw [List.length_cons] at hf
      omega⟩
    have hf' : rest.length ≤ fuel := Nat.le_of_succ_le_succ hf
    unfold performFrom
    by_cases hdone : (m.easy a).completed = true
    · rw [if_pos hdone]
      exact ih h hc hf'
    · obtain ⟨o, ho, -, -, hadded, hnext⟩ := easyPerform_spec (worlds a) (m.easy a)
      have h₁ := h.setEasy hnext hadded
      rw [if_neg hdone, ho, Option.bind_eq_bind, Option.bind_some]
      cases halloc : alloc a with
      | false =>
        refine ⟨.outOfMemory, m.setEasy a o.handle, [⟨a, o.code⟩], [], rfl, ?_, .of_eq rfl rfl,
          fun i hi => ?_, rfl, rfl⟩
        · rw [List.append_nil]
          exact h₁
        · cases hi
      | true =>
        obtain ⟨hcode, h₂, -, heasy, hent₂, hhead₂⟩ := queueDone_holds h₁ a
        have hset : m.Grows (m.setEasy a o.handle) := .of_eq rfl rfl
        have hgrows := hset.trans (queueDone_grows a)
        have hstep : (m.setEasy a o.handle).queueDone a true =
            (.ok, ((m.setEasy a o.handle).queueDone a true).2) := Prod.ext hcode rfl
        rw [show (m.setEasy a o.handle).nodeCount = m.nodeCount from rfl] at h₂
        rw [hstep]
        generalize ((m.setEasy a o.handle).queueDone a true).2 = m₂ at *
        have hc₂ : Chain m₂.nextOf (m₂.easy a).next rest := by
          have hself : (m₂.easy a).next = (m.easy a).next := by
            rw [heasy]
            simp [Multi.setEasy, hnext]
          rw [hself]
          refine hc.congr fun b hb => ?_
          have hb : b ≠ a := fun e => hnotMem (e ▸ hb)
          simp [nextOf, heasy, Multi.setEasy, hb]
        obtain ⟨c, m', transfers, new, hp, hh, hg, hnew, hhead, hent⟩ := ih h₂ hc₂ hf'
        refine ⟨c, m', ⟨a, o.code⟩ :: transfers, m.nodeCount :: new, ?_, ?_, hgrows.trans hg, ?_,
          hhead.trans hhead₂, hent.trans hent₂⟩
        · dsimp only
          rw [hp]
          rfl
        · rw [List.append_cons]
          exact hh
        · intro i hi
          rcases List.mem_cons.mp hi with rfl | hi
          · exact le_refl _
          · exact hgrows.count.trans (hnew i hi)

theorem perform_queue (worlds : Nat → World) (alloc : Nat → Bool) (h : m.Holds l q) :
    ∃ c running m' transfers new, m.perform worlds alloc = some (c, running, m', transfers) ∧
      m'.Holds l (q ++ new) ∧ m.Grows m' ∧ ∀ i ∈ new, m.nodeCount ≤ i := by
  obtain ⟨c, m', transfers, new, hp, hh, hg, hnew, -, -⟩ :=
    performFrom_queue worlds alloc h h.handles h.entered
  have hwalk : walk m'.nextOf m'.entered m'.handles = some l := walk_eq hh.handles hh.entered
  unfold perform
  rw [hp, Option.bind_eq_bind, Option.bind_some]
  dsimp only
  rw [hwalk]
  split
  · exact ⟨_, _, m', _, new, rfl, hh, hg, hnew⟩
  · exact ⟨_, _, m', _, new, rfl, hh, hg, hnew⟩

end Multi

/-- A read takes the first node off the queue; any other call only puts new ones behind it. -/
theorem step_queue {m : Multi} {l q : List Nat} (h : m.Holds l q) (op : Op) :
    ∃ m' out l' q', step m op = some (m', out) ∧ m'.Holds l' q' ∧ m.Grows m' ∧
      (op = .infoRead ∧ q' = q.tail ∨ ∃ new, q' = q ++ new ∧ ∀ i ∈ new, m.nodeCount ≤ i) := by
  have hsame : ∃ new, q = q ++ new ∧ ∀ i ∈ new, m.nodeCount ≤ i :=
    ⟨[], (List.append_nil q).symm, fun _ hi => nomatch hi⟩
  cases op with
  | setopt a options =>
    exact ⟨_, _, l, q, rfl, h.setEasy rfl rfl, .of_eq rfl rfl, .inr hsame⟩
  | addHandle handle =>
    cases handle with
    | none => exact ⟨m, _, l, q, rfl, h, .refl m, .inr hsame⟩
    | some a =>
      have hcount := Multi.addHandle_nodeCount (m := m) (some a)
      by_cases ha : a ∈ l
      · have hadd := Multi.addHandle_of_mem h ha
        refine ⟨m, .code .ok, l, q, ?_, h, .refl m, .inr hsame⟩
        dsimp only [step]
        rw [hadd]
      · obtain ⟨-, hh, hnodes, -⟩ := Multi.addHandle_holds h ha
        exact ⟨_, _, a :: l, q, rfl, hh, .of_eq hcount hnodes, .inr hsame⟩
  | removeHandle handle =>
    cases handle with
    | none => exact ⟨m, _, l, q, rfl, h, .refl m, .inr hsame⟩
    | some a =>
      obtain ⟨m', hr, hh, hnodes, -⟩ := Multi.removeHandle_holds h a
      refine ⟨m', .code .ok, l.erase a, q, ?_, hh,
        .of_eq (Multi.removeHandle_nodeCount hr) hnodes, .inr hsame⟩
      dsimp only [step]
      rw [hr]
      rfl
  | perform worlds alloc =>
    obtain ⟨c, running, m', transfers, new, hp, hh, hg, hnew⟩ :=
      Multi.perform_queue worlds alloc h
    refine ⟨m', .performed c running transfers, l, q ++ new, ?_, hh, hg, .inr ⟨new, rfl, hnew⟩⟩
    dsimp only [step]
    rw [hp]
    rfl
  | infoRead =>
    obtain ⟨m', hr, hh, -, hnodes⟩ := Multi.infoRead_holds h
    refine ⟨m', .read (m.messages q).head? q.tail.length, l, q.tail, ?_, hh,
      .of_eq (Multi.infoRead_nodeCount hr) hnodes, .inl ⟨rfl, rfl⟩⟩
    dsimp only [step]
    rw [hr]
    rfl

/-! ## Runs -/

/-- What is left of a queue after some calls, behind what was read and before what was put. -/
structure Later (m : Multi) (q : List Nat) (m' : Multi) (q' : List Nat) : Prop where
  grows : m.Grows m'
  queue : ∃ new, q' <:+ q ++ new ∧ ∀ i ∈ new, m.nodeCount ≤ i

theorem Later.refl (m : Multi) (q : List Nat) : Later m q m q :=
  ⟨.refl m, [], (List.append_nil q).symm ▸ List.suffix_refl q, fun _ hi => nomatch hi⟩

theorem Later.trans {m m' m'' : Multi} {q q' q'' : List Nat} (h : Later m q m' q')
    (h' : Later m' q' m'' q'') : Later m q m'' q'' := by
  obtain ⟨new, ⟨read, hq⟩, hnew⟩ := h.queue
  obtain ⟨new', hsuf, hnew'⟩ := h'.queue
  refine ⟨h.grows.trans h'.grows, new ++ new', hsuf.trans ⟨read, ?_⟩, fun i hi => ?_⟩
  · rw [← List.append_assoc, hq, List.append_assoc]
  · rcases List.mem_append.mp hi with hi | hi
    · exact hnew i hi
    · exact h.grows.count.trans (hnew' i hi)

/-- A node of the queue that was there before. -/
theorem Later.mem {m m' : Multi} {q q' : List Nat} (h : Later m q m' q') {i : Nat} (hi : i ∈ q')
    (hlt : i < m.nodeCount) : i ∈ q := by
  obtain ⟨new, hsuf, hnew⟩ := h.queue
  rcases List.mem_append.mp (hsuf.mem hi) with hq | hn
  · exact hq
  · exact absurd (hnew i hn) (Nat.not_le.mpr hlt)

theorem run_cons {m m' m'' : Multi} {op : Op} {ops : List Op} {out : Out} {outs : List Out}
    (hs : step m op = some (m', out)) (hr : run m' ops = some (m'', outs)) :
    run m (op :: ops) = some (m'', out :: outs) := by
  simp only [run, hs, hr, Option.bind_eq_bind, Option.bind_some]

theorem run_queue {m : Multi} {l q : List Nat} (h : m.Holds l q) (ops : List Op) :
    ∃ m' outs l' q', run m ops = some (m', outs) ∧ m'.Holds l' q' ∧ Later m q m' q' := by
  induction ops generalizing m l q with
  | nil => exact ⟨m, [], l, q, rfl, h, .refl m q⟩
  | cons op ops ih =>
    obtain ⟨m₁, out, l₁, q₁, hs, h₁, hg, hq⟩ := step_queue h op
    obtain ⟨m₂, outs, l₂, q₂, hr, h₂, hlater⟩ := ih h₁
    have hstep : Later m q m₁ q₁ := by
      refine ⟨hg, ?_⟩
      rcases hq with ⟨-, rfl⟩ | ⟨new, rfl, hnew⟩
      · exact ⟨[], (List.append_nil q).symm ▸ List.tail_suffix q, fun _ hi => nomatch hi⟩
      · exact ⟨new, List.suffix_refl _, hnew⟩
    exact ⟨m₂, out :: outs, l₂, q₂, run_cons hs hr, h₂, hstep.trans hlater⟩

/-- A message of the queue is read, or it is still there. -/
theorem run_reads {m : Multi} {l q : List Nat} (h : m.Holds l q) {i : Nat} (hi : i ∈ q)
    (ops : List Op) :
    (∃ (mid post : List Op) (m' : Multi) (outs : List Out), ops = mid ++ .infoRead :: post ∧
      run m mid = some (m', outs) ∧ m'.messagesHead = some i) ∨
    ∃ m' outs l' q', run m ops = some (m', outs) ∧ m'.Holds l' q' ∧ i ∈ q' := by
  induction ops generalizing m l q with
  | nil => exact .inr ⟨m, [], l, q, rfl, h, hi⟩
  | cons op ops ih =>
    obtain ⟨m₁, out, l₁, q₁, hs, h₁, -, hq⟩ := step_queue h op
    have hhere : op = .infoRead ∧ m.messagesHead = some i ∨ i ∈ q₁ := by
      rcases hq with ⟨rfl, rfl⟩ | ⟨new, rfl, -⟩
      · cases q with
        | nil => cases hi
        | cons j q =>
          rcases List.mem_cons.mp hi with rfl | hi
          · exact .inl ⟨rfl, h.queue.1⟩
          · exact .inr hi
      · exact .inr (List.mem_append_left new hi)
    rcases hhere with ⟨rfl, hhead⟩ | hi₁
    · exact .inl ⟨[], ops, m, [], rfl, rfl, hhead⟩
    · rcases ih h₁ hi₁ with ⟨mid, post, m', outs, rfl, hr, hhead⟩ | ⟨m', outs, l', q', hr, h', hi'⟩
      · exact .inl ⟨op :: mid, post, m', out :: outs, rfl, run_cons hs hr, hhead⟩
      · exact .inr ⟨m', out :: outs, l', q', run_cons hs hr, h', hi'⟩

/-- Reading comes to every message of the queue. -/
theorem reads_to {m : Multi} {l q : List Nat} (h : m.Holds l q) {i : Nat} (hi : i ∈ q) :
    ∃ n m' outs, run m (List.replicate n .infoRead) = some (m', outs) ∧
      m'.messagesHead = some i := by
  induction q generalizing m with
  | nil => cases hi
  | cons j q ih =>
    by_cases hj : i = j
    · subst hj
      exact ⟨0, m, [], rfl, h.queue.1⟩
    · obtain ⟨m₁, hr, h₁, -⟩ := Multi.infoRead_holds h
      obtain ⟨n, m', outs, hrun, hhead⟩ := ih h₁ ((List.mem_cons.mp hi).resolve_left hj)
      have hs : step m .infoRead = some (m₁, .read (m.messages (j :: q)).head? q.length) := by
        dsimp only [step]
        rw [hr]
        rfl
      exact ⟨n + 1, m', _, run_cons hs hrun, hhead⟩

theorem run_trans {m m' m'' : Multi} {ops ops' : List Op} {outs outs' : List Out}
    (h : run m ops = some (m', outs)) (h' : run m' ops' = some (m'', outs')) :
    run m (ops ++ ops') = some (m'', outs ++ outs') := by
  induction ops generalizing m outs with
  | nil =>
    cases h
    exact h'
  | cons op ops ih =>
    obtain ⟨⟨m₁, out⟩, hs, h⟩ := Option.bind_eq_some_iff.mp h
    obtain ⟨⟨m₂, outs₂⟩, hr, h⟩ := Option.bind_eq_some_iff.mp h
    cases h
    exact run_cons hs (ih hr)

theorem Multi.Holds.unread {m : Multi} {l q : List Nat} (h : m.Holds l q) :
    m.unread = m.messages q := by
  unfold Multi.unread
  rw [walk_eq h.queue h.count]
  rfl

theorem multiInit_holds (easy : Nat → Handle) : (multiInit easy).Holds [] [] := by
  obtain ⟨-, q, hq, hmess⟩ := multiInit_rep easy
  obtain rfl := List.map_eq_nil_iff.mp hmess
  exact hq

/-! ## The result -/

variable {easy : Nat → Handle} {ops : List Op}

theorem RemovesRead.append_reads (h : RemovesRead easy ops) (n : Nat) :
    RemovesRead easy (ops ++ List.replicate n .infoRead) := by
  intro pre a post heq
  rcases List.append_eq_append_iff.mp heq with ⟨mid, rfl, hrest⟩ | ⟨mid, rfl, hrest⟩
  · have hmem : Op.removeHandle (some a) ∈ List.replicate n Op.infoRead := by
      rw [hrest]
      exact List.mem_append_right _ List.mem_cons_self
    cases List.eq_of_mem_replicate hmem
  · cases mid with
    | nil =>
      have hmem : Op.removeHandle (some a) ∈ List.replicate n Op.infoRead := by
        rw [List.nil_append] at hrest
        rw [← hrest]
        exact List.mem_cons_self
      cases List.eq_of_mem_replicate hmem
    | cons op mid =>
      cases hrest
      exact h pre a mid rfl

/-- In a run that reads before it removes, no read returns a message of a removed handle. -/
theorem RemovesRead.not_readsRemoved (h : RemovesRead easy ops) : ¬ReadsRemoved easy ops := by
  rintro ⟨pre, a, mid, post, m₁, m₂, outs₁, outs₂, i, rfl, hpre, hmid, hlt, hmess, hhead⟩
  obtain ⟨m, outs, l, q, hrun, hq, -⟩ := run_queue (multiInit_holds easy) pre
  obtain ⟨rfl, rfl⟩ := Prod.mk.inj (Option.some.inj (hpre.symm.trans hrun))
  obtain ⟨m, outs, l', q', hrun', hq', hlater⟩ :=
    run_queue hq (.removeHandle (some a) :: mid)
  obtain ⟨rfl, rfl⟩ := Prod.mk.inj (Option.some.inj (hmid.symm.trans (run_trans hpre hrun')))
  have hi' : i ∈ q' := by
    have hc := hq'.queue
    rw [hhead] at hc
    cases q' with
    | nil => cases hc
    | cons j q' =>
      obtain ⟨hj, -⟩ := hc
      cases hj
      exact List.mem_cons_self
  have hi := hlater.mem hi' hlt
  refine h pre a _ rfl m₁ outs₁ hpre _ ?_ hmess
  rw [hq.unread]
  exact List.mem_map_of_mem hi

/-- **No message for a removed transfer.**  However the messages are read in the end, no read
returns one of a handle that was removed since its transfer, if and only if no handle is removed
while there is an unread message for it. -/
theorem no_stale_message_iff (easy : Nat → Handle) (ops : List Op) :
    (∃ m outs, run (multiInit easy) ops = some (m, outs)) ∧
      ((∀ n, ¬ReadsRemoved easy (ops ++ List.replicate n .infoRead)) ↔ RemovesRead easy ops) := by
  refine ⟨?_, fun hno => ?_, fun h n => (h.append_reads n).not_readsRemoved⟩
  · obtain ⟨m, outs, -, -, hrun, -⟩ := run_queue (multiInit_holds easy) ops
    exact ⟨m, outs, hrun⟩
  · rintro pre a post rfl m₁ outs₁ hpre message hmem rfl
    obtain ⟨m, outs, l, q, hrun, hq, -⟩ := run_queue (multiInit_holds easy) pre
    obtain ⟨rfl, rfl⟩ := Prod.mk.inj (Option.some.inj (hpre.symm.trans hrun))
    rw [hq.unread] at hmem
    obtain ⟨i, hi, rfl⟩ := List.mem_map.mp hmem
    have hlt := hq.allocated i hi
    have hafter : ∃ (m₂ : Multi) (out : Out) (l₂ q₂ : List Nat),
        step m₁ (.removeHandle (some (m₁.nodes i).message.easyHandle)) = some (m₂, out) ∧
          m₂.Holds l₂ q₂ ∧ i ∈ q₂ := by
      obtain ⟨m₂, out, l₂, q₂, hs, h₂, -, ⟨he, -⟩ | ⟨new, rfl, -⟩⟩ :=
        step_queue hq (.removeHandle (some (m₁.nodes i).message.easyHandle))
      · cases he
      · exact ⟨m₂, out, l₂, _, hs, h₂, List.mem_append_left new hi⟩
    obtain ⟨m₂, out, l₂, q₂, hs, h₂, hi₂⟩ := hafter
    -- it is read by one of the calls behind, or by one of the reads in the end
    rcases run_reads h₂ hi₂ post with ⟨mid, post, m₃, outs₃, rfl, hr, hhead⟩ |
      ⟨m₃, outs₃, l₃, q₃, hr, h₃, hi₃⟩
    · refine hno 0 ⟨pre, _, mid, post, m₁, m₃, outs₁, _, i, ?_, hpre,
        run_trans hpre (run_cons hs hr), hlt, rfl, hhead⟩
      rw [List.replicate_zero, List.append_nil]
    · obtain ⟨n, m₄, outs₄, hr', hhead⟩ := reads_to h₃ hi₃
      refine hno (n + 1) ⟨pre, _, post ++ List.replicate n .infoRead, [], m₁, m₄, outs₁, _, i, ?_,
        hpre, run_trans hpre (run_cons hs (run_trans hr hr')), hlt, rfl, hhead⟩
      rw [List.replicate_succ', List.append_assoc, List.cons_append, List.append_assoc]

/-- A message that is still there when its handle is removed. -/
theorem stale_message : ¬∀ (easy : Nat → Handle) (ops : List Op), ¬ReadsRemoved easy ops := by
  intro hno
  have hpre : (run (multiInit fun _ => easyInit) [.addHandle (some 0), idle]).map (fun r =>
      (r.1.nodeCount, (r.1.nodes 0).message.easyHandle)) = some (1, 0) := by decide
  have hmid : (run (multiInit fun _ => easyInit)
      [.addHandle (some 0), idle, .removeHandle (some 0)]).map (fun r => r.1.messagesHead) =
      some (some 0) := by decide
  obtain ⟨⟨m₁, outs₁⟩, hpre, hnode⟩ := Option.map_eq_some_iff.mp hpre
  obtain ⟨⟨m₂, outs₂⟩, hmid, hhead⟩ := Option.map_eq_some_iff.mp hmid
  obtain ⟨hcount, hmess⟩ := Prod.mk.inj hnode
  exact hno _ _ ⟨[.addHandle (some 0), idle], 0, [], [], m₁, m₂, outs₁, outs₂, 0, rfl, hpre, hmid,
    hcount.symm ▸ Nat.zero_lt_one, hmess, hhead⟩

end Curl
