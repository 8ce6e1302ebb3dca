import Ewokos.Git.HttpLog

/-!
# Runs of a session

What every client finds true of the request slots, whatever it does and whatever its callbacks do,
as long as no slot is released.

* `phaseOf` — where a handle is: each start is followed by its transfer, and that by its finish.
* `Inv` — the slots, the counters and the multi handle agree with the phases.
* `Quiet` — between calls nothing is left to transfer.
* `Later` — the flags and the slots in use survive what happens in between.
* `exec_sound` — a client that returns leaves the session quiet.

Main results: `session_accounts` and `run_active_slot_finishes`.
-/

set_option autoImplicit false

namespace Git

open Curl

/-! ## Phases -/

/-- Where a handle is between its start and its finish. -/
inductive Phase where
  | idle
  | started (slot : Nat)
  | done (slot : Nat) (result : Code)
  deriving DecidableEq, Repr

/-- The slot that uses the handle. -/
def Phase.slot : Phase → Option Nat
  | .idle => none
  | .started i => some i
  | .done i _ => some i

/-- The handle an event is about. -/
def HttpEvent.handle : HttpEvent → Option Nat
  | .started _ h => some h
  | .transferred message => some message.easyHandle
  | .finished _ h _ => some h
  | .awaited _ => none
  | .released _ => none

/-- An idle handle is started, a started one transferred, and a transferred one finished with the
result of its transfer. -/
def Phase.next : Phase → HttpEvent → Option Phase
  | .idle, .started i _ => some (.started i)
  | .started i, .transferred message => some (.done i message.result)
  | .done i c, .finished j _ d => if i = j ∧ c = d then some .idle else none
  | _, _ => none

/-- The phase of the handle `h` after the events; `none` when they are not in order. -/
def phaseOf (log : List HttpEvent) (h : Nat) : Option Phase :=
  (log.filter fun e => e.handle == some h).foldlM Phase.next .idle

variable {log : List HttpEvent} {h : Nat}

theorem phaseOf_append (events : List HttpEvent) : phaseOf (log ++ events) h =
    (phaseOf log h).bind fun p =>
      (events.filter fun e => e.handle == some h).foldlM Phase.next p := by
  simp only [phaseOf, List.filter_append, List.foldlM_append]
  rfl

theorem phaseOf_of_ne {e : HttpEvent} (hne : e.handle ≠ some h) :
    phaseOf (log ++ [e]) h = phaseOf log h := by
  rw [phaseOf_append, List.filter_cons_of_neg (by simpa using hne)]
  cases phaseOf log h <;> rfl

theorem phaseOf_next {e : HttpEvent} {p q : Phase} (he : e.handle = some h)
    (hp : phaseOf log h = some p) (hq : p.next e = some q) :
    phaseOf (log ++ [e]) h = some q := by
  rw [phaseOf_append, List.filter_cons_of_pos (by simpa using he), hp]
  simp [List.foldlM, hq]

/-! ## The invariant -/

variable {σ : Type}

/-- The session `s` over the board `b`, with every handle in its phase. -/
structure Inv (s : Http σ) (b : Board) (phase : Nat → Phase) : Prop where
  rep : s.curlm.Rep b
  lawful : ∀ h, phaseOf s.log h = some (phase h)
  active : s.activeRequests = s.slots.countP (·.inUse)
  sessions : s.curlSessionCount = s.slots.countP (·.curl.isSome)
  distinct : ∀ (i j : Nat) (slot slot' : Slot) (h : Nat), s.slots[i]? = some slot →
    s.slots[j]? = some slot' → slot.curl = some h → slot'.curl = some h → i = j
  allocated : ∀ (i : Nat) (slot : Slot) (h : Nat), s.slots[i]? = some slot →
    slot.curl = some h → h < s.nextHandle
  owner : ∀ h i, (phase h).slot = some i →
    ∃ slot, s.slots[i]? = some slot ∧ slot.curl = some h ∧ slot.inUse = true
  busy : ∀ (i : Nat) (slot : Slot), s.slots[i]? = some slot → slot.inUse = true →
    ∃ h, slot.curl = some h ∧ (phase h).slot = some i
  added : ∀ h, h ∈ b.added ↔ ∃ i, (phase h).slot = some i
  waiting : ∀ h i, phase h = .started i → b.done h = false
  done : ∀ h i c, phase h = .done i c → b.done h = true ∧ ⟨h, c⟩ ∈ b.queue
  queue : ∀ message ∈ b.queue, ∃ i, phase message.easyHandle = .done i message.result
  once : (b.queue.map Message.easyHandle).Nodup
  positive : 1 ≤ s.maxRequests

/-- Nothing is left to transfer. -/
def Settled (phase : Nat → Phase) : Prop := ∀ h i, phase h ≠ .started i

/-- A session between calls. -/
def Quiet (s : Http σ) : Prop :=
  s.activeRequests ≤ s.maxRequests ∧ ∃ b phase, Inv s b phase ∧ Settled phase

variable {s s' : Http σ} {b b' : Board} {phase : Nat → Phase}

/-- The calls into curl act on the board. -/
theorem curl_board (hrep : s.curlm.Rep b) (op : Op) (ha : op.Allocs) :
    ∃ m out b', s.curl op = some ({ s with curlm := m }, out) ∧ b.Step op out b' ∧ m.Rep b' := by
  obtain ⟨m, out, b', hs, hb, hr⟩ := step_refines hrep ha
  exact ⟨m, out, b', by simp [Http.curl, hs], hb, hr⟩

/-! ## Perform -/

/-- The transfer of a handle that was started. -/
def Phase.transfer (transfers : List Message) (h : Nat) : Phase → Phase
  | .started i =>
    match transfers.find? fun message => message.easyHandle == h with
    | some message => .done i message.result
    | none => .started i
  | p => p

theorem filter_transferred {transfers : List Message}
    (hnd : (transfers.map Message.easyHandle).Nodup) :
    (transfers.map HttpEvent.transferred).filter (fun e => e.handle == some h) =
      ((transfers.find? fun message => message.easyHandle == h).map
        HttpEvent.transferred).toList := by
  induction transfers with
  | nil => rfl
  | cons message transfers ih =>
    simp only [List.map_cons, List.nodup_cons] at hnd
    by_cases he : message.easyHandle = h
    · have hrest :
          (transfers.map HttpEvent.transferred).filter (fun e => e.handle == some h) = [] := by
        rw [List.filter_eq_nil_iff]
        intro e hmem
        obtain ⟨m, hm, rfl⟩ := List.mem_map.mp hmem
        have hne : m.easyHandle ≠ h := by
          rintro rfl
          exact hnd.1 (he ▸ List.mem_map_of_mem hm)
        simpa [HttpEvent.handle] using hne
      rw [List.map_cons, List.filter_cons_of_pos (by simp [HttpEvent.handle, he]), hrest,
        List.find?_cons_of_pos (by simp [he])]
      rfl
    · rw [List.map_cons, List.filter_cons_of_neg (by simp [HttpEvent.handle, he]),
        List.find?_cons_of_neg (by simp [he])]
      exact ih hnd.2

theorem phaseOf_transfers {transfers : List Message} {p : Phase}
    (hnd : (transfers.map Message.easyHandle).Nodup)
    (hstarted : ∀ message ∈ transfers, message.easyHandle = h → ∃ i, p = .started i)
    (hp : phaseOf log h = some p) :
    phaseOf (log ++ transfers.map HttpEvent.transferred) h = some (p.transfer transfers h) := by
  rw [phaseOf_append, hp, filter_transferred hnd, Option.bind_some]
  cases hf : transfers.find? fun message => message.easyHandle == h with
  | none => cases p <;> simp [Phase.transfer, hf]
  | some message =>
    obtain ⟨i, rfl⟩ := hstarted message (List.mem_of_find?_eq_some hf)
      (by simpa using List.find?_some hf)
    simp [Phase.transfer, hf, Phase.next]

theorem Phase.transfer_slot (transfers : List Message) (p : Phase) :
    (p.transfer transfers h).slot = p.slot := by
  cases p with
  | started i =>
    cases hf : transfers.find? fun message => message.easyHandle == h <;>
      simp [Phase.transfer, hf, Phase.slot]
  | _ => rfl

theorem Phase.transfer_started {transfers : List Message}
    (hmem : h ∈ transfers.map Message.easyHandle) (i : Nat) :
    ∃ c, (Phase.started i).transfer transfers h = .done i c ∧ ⟨h, c⟩ ∈ transfers := by
  obtain ⟨message, hm, he⟩ := List.mem_map.mp hmem
  have hsome : (transfers.find? fun message => message.easyHandle == h).isSome := by
    rw [List.find?_isSome]
    exact ⟨message, hm, by simpa using he⟩
  obtain ⟨found, hf⟩ := Option.isSome_iff_exists.mp hsome
  obtain rfl : found.easyHandle = h := by simpa using List.find?_some hf
  exact ⟨found.result, by simp [Phase.transfer, hf], List.mem_of_find?_eq_some hf⟩

/-- A handle whose transfer has ended had ended before, or is one of those transferred. -/
theorem Phase.transfer_done {transfers : List Message} {p : Phase} {i : Nat} {c : Code}
    (hall : ∀ j, p = .started j → h ∈ transfers.map Message.easyHandle)
    (hp : p.transfer transfers h = .done i c) :
    p = .done i c ∨ p = .started i ∧ ⟨h, c⟩ ∈ transfers := by
  cases p with
  | started j =>
    obtain ⟨d, hd, hm⟩ := Phase.transfer_started (hall j rfl) j
    rw [hd] at hp
    cases hp
    exact .inr ⟨rfl, hm⟩
  | _ => exact .inl hp

theorem Phase.transfer_ne_started {transfers : List Message} {p : Phase} {i : Nat}
    (hall : ∀ j, p = .started j → h ∈ transfers.map Message.easyHandle) :
    p.transfer transfers h ≠ .started i := by
  intro hp
  cases p with
  | started j =>
    obtain ⟨d, hd, -⟩ := Phase.transfer_started (hall j rfl) j
    rw [hd] at hp
    cases hp
  | _ => cases hp

/-- The handles a perform transfers are those that were started. -/
theorem Inv.transfers_iff (hinv : Inv s b phase) {transfers : List Message}
    (ht : transfers.map Message.easyHandle = b.added.filter (fun a => !b.done a)) (h : Nat) :
    h ∈ transfers.map Message.easyHandle ↔ ∃ i, phase h = .started i := by
  rw [ht]
  simp only [List.mem_filter, Bool.not_eq_true', hinv.added]
  constructor
  · rintro ⟨⟨i, hi⟩, hd⟩
    cases hp : phase h with
    | idle => simp [hp, Phase.slot] at hi
    | started j => exact ⟨j, rfl⟩
    | done j c => simp [(hinv.done h j c hp).1] at hd
  · rintro ⟨i, hi⟩
    exact ⟨⟨i, by simp [hi, Phase.slot]⟩, hinv.waiting h i hi⟩

/-- The messages of a perform are queued behind those still to be read. -/
theorem Inv.transfers_once (hinv : Inv s b phase) {transfers : List Message}
    (ht : transfers.map Message.easyHandle = b.added.filter (fun a => !b.done a)) :
    ((b.finish transfers).queue.map Message.easyHandle).Nodup := by
  have hnd : (transfers.map Message.easyHandle).Nodup := ht ▸ b.nodup.filter _
  rw [show (b.finish transfers).queue = b.queue ++ transfers from rfl, List.map_append]
  refine List.nodup_append.mpr ⟨hinv.once, hnd, ?_⟩
  rintro a ha a' ha' rfl
  obtain ⟨message, hm, rfl⟩ := List.mem_map.mp ha
  obtain ⟨i, hi⟩ := hinv.queue message hm
  obtain ⟨j, hj⟩ := (hinv.transfers_iff ht _).mp ha'
  rw [hi] at hj
  cases hj

/-- The transfers of a perform. -/
theorem Inv.transferred (hinv : Inv s b phase) {transfers : List Message}
    (ht : transfers.map Message.easyHandle = b.added.filter (fun a => !b.done a)) {m : Multi}
    (hrep : m.Rep (b.finish transfers)) (performs : Nat) :
    Inv { s with
      curlm := m, performs := performs, log := s.log ++ transfers.map HttpEvent.transferred }
      (b.finish transfers) fun h => (phase h).transfer transfers h := by
  have hnd : (transfers.map Message.easyHandle).Nodup := ht ▸ b.nodup.filter _
  have hall : ∀ h i, phase h = .started i → h ∈ transfers.map Message.easyHandle :=
    fun h i hp => (hinv.transfers_iff ht h).mpr ⟨i, hp⟩
  refine { hinv with
    rep := hrep, lawful := ?_, owner := ?_, busy := ?_, added := ?_, waiting := ?_, done := ?_,
    queue := ?_, once := hinv.transfers_once ht }
  · intro h
    refine phaseOf_transfers hnd ?_ (hinv.lawful h)
    intro message hm he
    exact (hinv.transfers_iff ht h).mp (he ▸ List.mem_map_of_mem hm)
  · intro h i hi
    exact hinv.owner h i ((Phase.transfer_slot transfers _).symm.trans hi)
  · intro i slot hs hu
    obtain ⟨h, hc, hp⟩ := hinv.busy i slot hs hu
    exact ⟨h, hc, (Phase.transfer_slot transfers _).trans hp⟩
  · intro h
    rw [show (b.finish transfers).added = b.added from rfl, hinv.added h]
    simp only [Phase.transfer_slot]
  · exact fun h i hp => absurd hp (Phase.transfer_ne_started (hall h))
  · intro h i c hp
    have hadd : h ∈ b.added := by
      rw [hinv.added]
      exact ⟨i, by rw [← Phase.transfer_slot transfers, hp]; rfl⟩
    refine ⟨by simp [Board.finish, hadd], ?_⟩
    obtain hq | ⟨-, hm⟩ := Phase.transfer_done (hall h) hp
    · exact List.mem_append_left _ (hinv.done h i c hq).2
    · exact List.mem_append_right _ hm
  · intro message hm
    rcases List.mem_append.mp hm with hm | hm
    · obtain ⟨i, hi⟩ := hinv.queue message hm
      exact ⟨i, by rw [hi]; rfl⟩
    · have hmem := List.mem_map_of_mem (f := Message.easyHandle) hm
      obtain ⟨i, hi⟩ := (hinv.transfers_iff ht message.easyHandle).mp hmem
      obtain ⟨c, hd, hm'⟩ := Phase.transfer_started hmem i
      have hsame : message = ⟨message.easyHandle, c⟩ :=
        List.inj_on_of_nodup_map hnd hm hm' rfl
      exact ⟨i, by rw [hi, hd, hsame]⟩

/-- A perform transfers the handles that were started, and leaves nothing to transfer. -/
theorem perform_inv (env : Env σ) (hinv : Inv s b phase) :
    ∃ s' b' phase', s.perform env = some (s', some 0) ∧ Inv s' b' phase' ∧ Settled phase' ∧
      ∃ (m : Multi) (performs : Nat) (transfers : List Message), s' = { s with
        curlm := m, performs := performs,
        log := s.log ++ transfers.map HttpEvent.transferred } := by
  obtain ⟨m, out, b', hs, hstep, hrep⟩ := curl_board hinv.rep
    (.perform (env.network s.performs) fun _ => true) (fun _ => rfl)
  cases hstep with
  | @perform worlds alloc transfers ht =>
    refine ⟨_, b.finish transfers, _, ?_, hinv.transferred ht hrep (s.performs + 1), ?_, m,
      s.performs + 1, transfers, rfl⟩
    · simp [Http.perform, hs]
    · exact fun h i => Phase.transfer_ne_started fun j hp => (hinv.transfers_iff ht h).mpr ⟨j, hp⟩

/-! ## Later sessions -/

/-- What holds of a session after the events `new`: a flag that was set is set, and a slot in use is
still waited for unless its flag was set or somebody else waits for it. -/
structure Later (s s' : Http σ) (new : List HttpEvent) : Prop where
  log : s'.log = s.log ++ new
  max : s'.maxRequests = s.maxRequests
  nextFlag : s.nextFlag ≤ s'.nextFlag
  flags : ∀ f < s.nextFlag, s.flags f = true → s'.flags f = true
  waits : ∀ (i : Nat) (slot : Slot) (f : Nat), s.slots[i]? = some slot → slot.inUse = true →
    slot.finished = some f → f < s.nextFlag →
    (∃ slot', s'.slots[i]? = some slot' ∧ slot'.inUse = true ∧ slot'.finished = some f) ∨
      s'.flags f = true ∨ .awaited i ∈ new

theorem Later.refl (s : Http σ) : Later s s [] :=
  ⟨by simp, rfl, le_refl _, fun _ _ h => h, fun _ slot _ h hu hf _ => .inl ⟨slot, h, hu, hf⟩⟩

theorem Later.trans {s'' : Http σ} {new new' : List HttpEvent} (h : Later s s' new)
    (h' : Later s' s'' new') : Later s s'' (new ++ new') := by
  refine ⟨by rw [h'.log, h.log, List.append_assoc], h'.max.trans h.max,
    h.nextFlag.trans h'.nextFlag, ?_, ?_⟩
  · intro f hf hset
    exact h'.flags f (Nat.lt_of_lt_of_le hf h.nextFlag) (h.flags f hf hset)
  · intro i slot f hs hu hfin hf
    have hf' := Nat.lt_of_lt_of_le hf h.nextFlag
    obtain ⟨slot', hs', hu', hfin'⟩ | hset | hnew := h.waits i slot f hs hu hfin hf
    · obtain hsame | hset | hnew := h'.waits i slot' f hs' hu' hfin' hf'
      · exact .inl hsame
      · exact .inr (.inl hset)
      · exact .inr (.inr (List.mem_append_right _ hnew))
    · exact .inr (.inl (h'.flags f hf' hset))
    · exact .inr (.inr (List.mem_append_left _ hnew))

/-- Nothing happened to the slots in use. -/
theorem Later.of_slots {new : List HttpEvent} (hlog : s'.log = s.log ++ new)
    (hmax : s'.maxRequests = s.maxRequests) (hnext : s'.nextFlag = s.nextFlag)
    (hflags : s'.flags = s.flags)
    (hslots : ∀ (i : Nat) (slot : Slot), s.slots[i]? = some slot → slot.inUse = true →
      s'.slots[i]? = some slot) : Later s s' new :=
  ⟨hlog, hmax, hnext.ge, fun _ _ h => hflags ▸ h,
    fun i slot _ hs hu hfin _ => .inl ⟨slot, hslots i slot hs hu, hu, hfin⟩⟩

theorem getElem?_modifySlot (i j : Nat) (f : Slot → Slot) :
    (s.modifySlot i f).slots[j]? = s.slots[j]?.map fun slot => if i = j then f slot else slot := by
  simp [Http.modifySlot, List.getElem?_modify]

theorem countP_modify {α : Type} {l : List α} {p : α → Bool} {i : Nat} {f : α → α} {a : α}
    (h : l[i]? = some a) :
    (l.modify i f).countP p + (if p a then 1 else 0) =
      l.countP p + (if p (f a) then 1 else 0) := by
  induction l generalizing i with
  | nil => simp at h
  | cons x l ih =>
    cases i with
    | zero =>
      obtain rfl : x = a := by simpa using h
      simp only [List.modify_zero_cons, List.countP_cons]
      omega
    | succ i =>
      have := ih (i := i) (by simpa using h)
      simp only [List.modify_succ_cons, List.countP_cons]
      omega

/-- A slot that is changed keeps its handle, and the others stay. -/
theorem modify_curl {slots : List Slot} {f : Slot → Slot} (hf : ∀ slot, (f slot).curl = slot.curl)
    {i j : Nat} {slot' : Slot} (hj : (slots.modify i f)[j]? = some slot') :
    ∃ slot, slots[j]? = some slot ∧ slot'.curl = slot.curl ∧ (j ≠ i → slot' = slot) := by
  rw [List.getElem?_modify] at hj
  obtain ⟨slot, hj', rfl⟩ := Option.map_eq_some_iff.mp hj
  refine ⟨slot, hj', ?_⟩
  by_cases hij : i = j
  · simp [hij, hf]
  · simp [hij]

/-- The next event of `h` takes `h` to its next phase. -/
theorem Inv.next (hinv : Inv s b phase) {e : HttpEvent} {q : Phase} (he : e.handle = some h)
    (hq : (phase h).next e = some q) (g : Nat) :
    phaseOf (s.log ++ [e]) g = some (Function.update phase h q g) := by
  by_cases hg : g = h
  · subst hg
    rw [Function.update_self]
    exact phaseOf_next he (hinv.lawful g) hq
  · rw [Function.update_of_ne hg, phaseOf_of_ne (by simpa [he] using Ne.symm hg)]
    exact hinv.lawful g

/-- Changing a slot without its handle leaves the handles counted, distinct and allocated. -/
theorem Inv.handles (hinv : Inv s b phase) {f : Slot → Slot}
    (hf : ∀ slot, (f slot).curl = slot.curl) {i : Nat} {slot : Slot} (hs : s.slots[i]? = some slot) :
    s.curlSessionCount = (s.slots.modify i f).countP (·.curl.isSome) ∧
      (∀ (j k : Nat) (slot₁ slot₂ : Slot) (g : Nat), (s.slots.modify i f)[j]? = some slot₁ →
        (s.slots.modify i f)[k]? = some slot₂ → slot₁.curl = some g → slot₂.curl = some g →
          j = k) ∧
      ∀ (j : Nat) (slot : Slot) (g : Nat), (s.slots.modify i f)[j]? = some slot →
        slot.curl = some g → g < s.nextHandle := by
  refine ⟨?_, fun j k slot₁ slot₂ g hj hk hc₁ hc₂ => ?_, fun j slot' g hj hg => ?_⟩
  · have hcount := countP_modify (p := (·.curl.isSome)) (f := f) hs
    have hsessions := hinv.sessions
    simp only [hf] at hcount
    omega
  · obtain ⟨slot₁', hj', he₁, -⟩ := modify_curl hf hj
    obtain ⟨slot₂', hk', he₂, -⟩ := modify_curl hf hk
    exact hinv.distinct j k slot₁' slot₂' g hj' hk' (he₁ ▸ hc₁) (he₂ ▸ hc₂)
  · obtain ⟨slot'', hj', he, -⟩ := modify_curl hf hj
    exact hinv.allocated j _ g hj' (he ▸ hg)

/-- The handle of a phase is on its slot only. -/
theorem Inv.slot_unique (hinv : Inv s b phase) {i j : Nat} {slot : Slot}
    (hp : (phase h).slot = some i) (hs : s.slots[j]? = some slot) (hc : slot.curl = some h) :
    j = i := by
  obtain ⟨slot', hs', hc', -⟩ := hinv.owner h i hp
  exact hinv.distinct j i slot slot' h hs hs' hc hc'

theorem Inv.slotOf (hinv : Inv s b phase) {i : Nat} (hp : (phase h).slot = some i) :
    s.slotOf h = some i := by
  obtain ⟨slot, hs, hc, -⟩ := hinv.owner h i hp
  obtain ⟨hlt, rfl⟩ := List.getElem?_eq_some_iff.mp hs
  rw [Http.slotOf, List.findIdx?_eq_some_iff_getElem]
  refine ⟨hlt, by simpa using hc, ?_⟩
  intro j hj
  have hne : ¬s.slots[j].curl = some h := by
    intro hcj
    have := hinv.slot_unique hp (List.getElem?_eq_getElem (Nat.lt_trans hj hlt)) hcj
    omega
  simpa using hne

/-! ## Finishing -/

theorem storeResults_eq (s : Http σ) (i h : Nat) (slot : Slot) :
    ∃ flags results,
      s.storeResults i h slot = { s with
        slots := (s.slots.modify i fun slot => { slot with inUse := false }).modify i fun slot =>
          { slot with httpCode := (s.curlm.easy h).responseCode }
        activeRequests := s.activeRequests - 1
        flags := flags
        results := results
        log := s.log ++ [.finished i h slot.curlResult] } ∧
      (∀ f, slot.finished = some f → flags f = true) ∧
      ∀ f, s.flags f = true → flags f = true := by
  unfold Http.storeResults Http.closedownActiveSlot Http.modifySlot
  cases hf : slot.finished with
  | none =>
    cases slot.results with
    | none => exact ⟨s.flags, s.results, rfl, by simp, fun _ h => h⟩
    | some r => exact ⟨s.flags, _, rfl, by simp, fun _ h => h⟩
  | some f =>
    have hset : ∀ g, s.flags g = true → Function.update s.flags f true g = true := by
      intro g hg
      by_cases hgf : g = f
      · simp [hgf]
      · simpa [hgf] using hg
    cases slot.results with
    | none => exact ⟨_, s.results, rfl, by simp, hset⟩
    | some r => exact ⟨_, _, rfl, by simp, hset⟩

/-- `s'` is `s` with the request of slot `i` finished. -/
structure Finished (s s' : Http σ) (i h : Nat) (result : Code) : Prop where
  slots : ∃ f : Slot → Slot, s'.slots = s.slots.modify i f ∧
    ∀ slot, (f slot).curl = slot.curl ∧ (f slot).inUse = false
  active : s'.activeRequests = s.activeRequests - 1
  sessions : s'.curlSessionCount = s.curlSessionCount
  nextHandle : s'.nextHandle = s.nextHandle
  max : s'.maxRequests = s.maxRequests
  log : s'.log = s.log ++ [.finished i h result]

/-- The messages behind the first are about other handles. -/
theorem Inv.queue_tail (hinv : Inv s b phase) {message : Message} {queue : List Message}
    (hq : b.queue = message :: queue) :
    (queue.map Message.easyHandle).Nodup ∧
      ∀ m ∈ queue, m.easyHandle ≠ message.easyHandle ∧
        ∃ i, phase m.easyHandle = .done i m.result := by
  have hone := hinv.once
  rw [hq, List.map_cons, List.nodup_cons] at hone
  refine ⟨hone.2, fun m hm => ⟨fun he => hone.1 (he ▸ List.mem_map_of_mem hm), ?_⟩⟩
  exact hinv.queue m (by simp [hq, hm])

/-- Who uses the slots when slot `i` with the handle `h` is given back. -/
theorem Inv.given_back (hinv : Inv s b phase) {i : Nat} {slot : Slot} {f : Slot → Slot}
    (hslot : (phase h).slot = some i) (hs : s.slots[i]? = some slot) (hc : slot.curl = some h)
    (hf : ∀ slot, (f slot).curl = slot.curl ∧ (f slot).inUse = false) :
    (∀ g j, (Function.update phase h .idle g).slot = some j →
      ∃ slot, (s.slots.modify i f)[j]? = some slot ∧ slot.curl = some g ∧ slot.inUse = true) ∧
    ∀ (j : Nat) (slot : Slot), (s.slots.modify i f)[j]? = some slot → slot.inUse = true →
      ∃ g, slot.curl = some g ∧ (Function.update phase h .idle g).slot = some j := by
  constructor
  · intro g j hg
    have hne : g ≠ h := by
      rintro rfl
      simp [Phase.slot] at hg
    rw [Function.update_of_ne hne] at hg
    obtain ⟨slot', hj, hc', hu'⟩ := hinv.owner g j hg
    have hij : i ≠ j := by
      rintro rfl
      obtain rfl : slot = slot' := Option.some.inj (hs.symm.trans hj)
      exact hne (Option.some.inj (hc'.symm.trans hc))
    exact ⟨slot', by simp [hj, hij], hc', hu'⟩
  · intro j slot' hj hu'
    obtain ⟨slot'', hj', -, hsame⟩ := modify_curl (fun slot => (hf slot).1) hj
    have hji : j ≠ i := by
      rintro rfl
      rw [List.getElem?_modify, hj'] at hj
      obtain rfl : f slot'' = slot' := by simpa using hj
      simp [(hf slot'').2] at hu'
    obtain rfl := hsame hji
    obtain ⟨g, hg, hpg⟩ := hinv.busy j slot' hj' hu'
    refine ⟨g, hg, ?_⟩
    rw [Function.update_of_ne]
    · exact hpg
    · rintro rfl
      exact hji (hinv.slot_unique hslot hj' hg)

/-- The handle of the first message leaves the multi handle and is idle. -/
theorem Finished.inv {message : Message} {queue : List Message} {i : Nat} (hinv : Inv s b phase)
    (hsettled : Settled phase) (hq : b.queue = message :: queue)
    (hp : phase message.easyHandle = .done i message.result)
    (hfin : Finished s s' i message.easyHandle message.result)
    (hrep : s'.curlm.Rep (b.read.remove message.easyHandle)) :
    ∃ b' phase', Inv s' b' phase' ∧ Settled phase' ∧ b'.queue = queue := by
  obtain ⟨h, result⟩ := message
  dsimp only at hp hfin hrep
  have hslot : (phase h).slot = some i := by simp [hp, Phase.slot]
  obtain ⟨slot, hs, hc, hu⟩ := hinv.owner _ i hslot
  obtain ⟨f, hslots, hf⟩ := hfin.slots
  have hrest : (b.read.remove h).queue = queue := by simp [Board.read, hq]
  obtain ⟨hnd, hothers⟩ := hinv.queue_tail hq
  obtain ⟨hsessions, hdistinct, hallocated⟩ := hinv.handles (fun slot => (hf slot).1) hs
  obtain ⟨howner, hbusy⟩ := hinv.given_back hslot hs hc hf
  rw [← hslots] at hsessions hdistinct hallocated howner hbusy
  have hsettled' : Settled (Function.update phase h .idle) := by
    intro g j hg
    by_cases hgh : g = h
    · subst hgh
      simp at hg
    · rw [Function.update_of_ne hgh] at hg
      exact hsettled g j hg
  refine ⟨b.read.remove h, Function.update phase h .idle, ?_, hsettled', hrest⟩
  refine ⟨hrep, ?_, ?_, hfin.sessions.trans hsessions, hdistinct, ?_, howner, hbusy, ?_,
    fun g j hg => absurd hg (hsettled' g j), ?_, ?_, hrest ▸ hnd, hfin.max ▸ hinv.positive⟩
  · rw [hfin.log]
    exact hinv.next rfl (by simp [hp, Phase.next])
  · have hcount := countP_modify (p := (·.inUse)) (f := f) hs
    simp only [hu, hf, if_true, Bool.false_eq_true, if_false] at hcount
    rw [hfin.active, hinv.active, hslots]
    omega
  · rw [hfin.nextHandle]
    exact hallocated
  · intro g
    rw [show (b.read.remove h).added = b.added.erase h from rfl, b.nodup.mem_erase_iff,
      hinv.added]
    by_cases hg : g = h
    · subst hg
      simp [Phase.slot]
    · simp [hg]
  · intro g j c hg
    have hne : g ≠ h := by
      rintro rfl
      simp at hg
    rw [Function.update_of_ne hne] at hg
    obtain ⟨hd, hm⟩ := hinv.done g j c hg
    refine ⟨hd, ?_⟩
    rw [hq] at hm
    rw [hrest]
    rcases List.mem_cons.mp hm with hm | hm
    · exact absurd (congrArg Message.easyHandle hm) hne
    · exact hm
  · intro message hm
    rw [hrest] at hm
    obtain ⟨hne, j, hj⟩ := hothers message hm
    exact ⟨j, (Function.update_of_ne hne _ _).trans hj⟩

/-- What happens for the first message, up to the callback. -/
theorem message_inv {message : Message} {queue : List Message} (hinv : Inv s b phase)
    (hsettled : Settled phase) (hq : b.queue = message :: queue) {m : Multi}
    (hrep : m.Rep (b.read.remove message.easyHandle)) :
    ∃ i slot, s.slotOf message.easyHandle = some i ∧ s.slots[i]? = some slot ∧
      slot.curl = some message.easyHandle ∧
      let s₁ := { s with curlm := m }.modifySlot i fun slot =>
        { slot with curlResult := message.result }
      let s₂ := s₁.storeResults i message.easyHandle { slot with curlResult := message.result }
      (∃ b' phase', Inv s₂ b' phase' ∧ Settled phase' ∧ b'.queue = queue) ∧
        s₂.activeRequests = s.activeRequests - 1 ∧
        Later s s₂ [.finished i message.easyHandle message.result] := by
  obtain ⟨i, hp⟩ := hinv.queue message (by simp [hq])
  have hslot : (phase message.easyHandle).slot = some i := by simp [hp, Phase.slot]
  obtain ⟨slot, hs, hc, hu⟩ := hinv.owner _ i hslot
  refine ⟨i, slot, hinv.slotOf hslot, hs, hc, ?_⟩
  intro s₁ s₂
  obtain ⟨flags, results, heq, hflag, hkeep⟩ := storeResults_eq s₁ i message.easyHandle
    { slot with curlResult := message.result }
  have hslots := congrArg Http.slots heq
  simp only [s₁, Http.modifySlot, List.modify_modify_eq] at hslots
  have hfin : Finished s s₂ i message.easyHandle message.result :=
    ⟨⟨_, hslots, fun _ => ⟨rfl, rfl⟩⟩, (congrArg Http.activeRequests heq :),
      (congrArg Http.curlSessionCount heq :), (congrArg Http.nextHandle heq :),
      (congrArg Http.maxRequests heq :), (congrArg Http.log heq :)⟩
  refine ⟨hfin.inv hinv hsettled hq hp ?_, hfin.active, hfin.log, hfin.max,
    (congrArg Http.nextFlag heq :).ge, ?_, ?_⟩
  · rw [congrArg Http.curlm heq]
    exact hrep
  · intro f _ hf
    rw [congrArg Http.flags heq]
    exact hkeep f hf
  · intro j slot' f hj hu' hfin' _
    by_cases hij : i = j
    · subst hij
      obtain rfl : slot = slot' := Option.some.inj (hs.symm.trans hj)
      refine .inr (.inl ?_)
      rw [congrArg Http.flags heq]
      exact hflag f hfin'
    · refine .inl ⟨slot', ?_, hu', hfin'⟩
      rw [show s₂.slots = _ from hslots, List.getElem?_modify, hj]
      simp [hij]

/-! ## The code -/

/-- A client keeps the session quiet, unless it releases a slot. -/
structure Sound (back : Runner σ) : Prop where
  grows : Grows back
  quiet : ∀ p s s' value, Quiet s → back p s = some (s', value) → s'.Unreleased →
    Quiet s' ∧ ∃ new, Later s s' new

/-- All requests are finished. -/
def Drained (s : Http σ) : Prop :=
  ∃ b phase, Inv s b phase ∧ Settled phase ∧ b.queue = []

variable {env : Env σ} {back : Runner σ}

theorem Drained.unused (h : Drained s) {i : Nat} {slot : Slot} (hs : s.slots[i]? = some slot) :
    slot.inUse = false := by
  obtain ⟨b, phase, hinv, hsettled, hq⟩ := h
  by_contra hu
  obtain ⟨h, -, hp⟩ := hinv.busy i slot hs (by simpa using hu)
  cases hph : phase h with
  | idle => simp [hph, Phase.slot] at hp
  | started j => exact hsettled h j hph
  | done j c =>
    have := (hinv.done h j c hph).2
    simp [hq] at this

theorem Drained.active (h : Drained s) : s.activeRequests = 0 := by
  have hcount : s.slots.countP (·.inUse) = 0 := by
    rw [List.countP_eq_zero]
    intro slot hm
    obtain ⟨i, hi⟩ := List.getElem?_of_mem hm
    simp [h.unused hi]
  obtain ⟨b, phase, hinv, -⟩ := h
  rw [hinv.active, hcount]
  rfl

theorem Drained.quiet (h : Drained s) : Quiet s := by
  have ha := h.active
  obtain ⟨b, phase, hinv, hsettled, -⟩ := h
  have := hinv.positive
  exact ⟨by omega, b, phase, hinv, hsettled⟩

theorem Inv.read {m : Multi} (hinv : Inv s b phase) (hq : b.queue = []) (hrep : m.Rep b.read) :
    Inv { s with curlm := m } b.read phase := by
  have hread : b.read.queue = [] := by simp [Board.read, hq]
  refine { hinv with rep := hrep, done := ?_, queue := ?_, once := ?_ }
  · intro h i c hp
    have := (hinv.done h i c hp).2
    simp [hq] at this
  · intro message hm
    simp [hread] at hm
  · simp [hread]

theorem finishActiveSlot_eq {i : Nat} {slot : Slot} (hs : s.slots[i]? = some slot)
    (hc : slot.curl = some h) : s.finishActiveSlot env back i =
      match slot.callbackFunc with
      | some f => (back (env.callback f) (s.storeResults i h slot)).map Prod.fst
      | none => some (s.storeResults i h slot) := by
  cases hf : slot.callbackFunc with
  | none => simp [Http.finishActiveSlot, hs, hc, hf]
  | some f => simp [Http.finishActiveSlot, hs, hc, hf]

theorem quiet_messages (hback : Sound back) {fuel : Nat} (hquiet : Quiet s)
    (h : s.processCurlMessages env back fuel = some s') (hun : s'.Unreleased) :
    Drained s' ∧ ∃ new, Later s s' new := by
  induction fuel generalizing s with
  | zero => simp [Http.processCurlMessages] at h
  | succ fuel ih =>
    obtain ⟨hmax, b, phase, hinv, hsettled⟩ := hquiet
    obtain ⟨m, out, b', hread, hstep, hrep⟩ := curl_board hinv.rep .infoRead trivial
    cases hstep
    simp only [Http.processCurlMessages, hread, Option.bind_eq_bind, Option.bind_some] at h
    cases hq : b.queue with
    | nil =>
      simp only [hq, List.head?_nil, Option.some.injEq] at h
      subst h
      exact ⟨⟨b.read, phase, hinv.read hq hrep, hsettled, by simp [Board.read, hq]⟩, [],
        .of_slots (by simp) rfl rfl rfl fun _ _ hs _ => hs⟩
    | cons message queue =>
      obtain ⟨m', out', b'', hremove, hstep', hrep'⟩ := curl_board (s := { s with curlm := m }) hrep
        (.removeHandle (some message.easyHandle)) trivial
      cases hstep'
      obtain ⟨i, slot, hof, hs, hc, ⟨b₂, phase₂, hinv₂, hsettled₂, hq₂⟩, hactive, hlater⟩ :=
        message_inv hinv hsettled hq hrep'
      have hof' : Http.slotOf { s with curlm := m } message.easyHandle = some i := hof
      have hs' : ((({ s with curlm := m' }).modifySlot i fun slot =>
          { slot with curlResult := message.result } : Http σ)).slots[i]? =
          some { slot with curlResult := message.result } := by
        simp [getElem?_modifySlot, hs]
      simp only [hq, List.head?_cons, hof', hremove, Option.bind_some] at h
      rw [finishActiveSlot_eq hs' hc] at h
      generalize Http.storeResults _ i message.easyHandle
        { slot with curlResult := message.result } = s₂ at *
      have hquiet₂ : Quiet s₂ := by
        refine ⟨?_, b₂, phase₂, hinv₂, hsettled₂⟩
        rw [hactive, hlater.max]
        omega
      cases hcb : slot.callbackFunc with
      | none =>
        rw [hcb] at h
        obtain ⟨hd, new, hl⟩ := ih hquiet₂ h
        exact ⟨hd, _, hlater.trans hl⟩
      | some f =>
        rw [hcb] at h
        obtain ⟨s₃, hfinish, h⟩ := Option.bind_eq_some_iff.mp h
        obtain ⟨⟨s₃', value⟩, hrun, rfl⟩ := Option.map_eq_some_iff.mp hfinish
        obtain ⟨hquiet₃, new₃, hl₃⟩ := hback.quiet _ _ _ _ hquiet₂ hrun
          (hun.earlier (Http.messages_log hback.grows h))
        obtain ⟨hd, new, hl⟩ := ih hquiet₃ h
        exact ⟨hd, _, (hlater.trans hl₃).trans hl⟩

theorem quiet_perform (env : Env σ) (hinv : Inv s b phase)
    (hmax : s.activeRequests ≤ s.maxRequests) :
    ∃ s' new, s.perform env = some (s', some 0) ∧ Quiet s' ∧ Later s s' new ∧
      s'.activeRequests = s.activeRequests := by
  obtain ⟨s', b', phase', hperf, hinv', hsettled, m, performs, transfers, rfl⟩ :=
    perform_inv env hinv
  exact ⟨_, _, hperf, ⟨hmax, b', phase', hinv', hsettled⟩,
    .of_slots rfl rfl rfl rfl fun _ _ hs _ => hs, rfl⟩

/-- The loop of `get_active_slot` leaves room for a request. -/
theorem quiet_wait (hback : Sound back) {fuel : Nat} (hquiet : Quiet s)
    (h : s.waitForSlot env back fuel = some s') (hun : s'.Unreleased) :
    s'.activeRequests < s'.maxRequests ∧ Quiet s' ∧ ∃ new, Later s s' new := by
  induction fuel generalizing s with
  | zero => simp [Http.waitForSlot] at h
  | succ fuel ih =>
    rw [Http.waitForSlot] at h
    split at h
    · obtain ⟨hmax, b, phase, hinv, hsettled⟩ := hquiet
      obtain ⟨s₁, new₁, hperf, hquiet₁, hl₁, hactive⟩ := quiet_perform env hinv hmax
      have hpos := hinv.positive
      have hlt : (0 : Int) < s₁.activeRequests := by omega
      simp only [hperf, Option.bind_eq_bind, Option.bind_some, Nat.cast_zero, if_pos hlt] at h
      obtain ⟨s₂, hproc, h⟩ := Option.bind_eq_some_iff.mp h
      obtain ⟨hd, new₂, hl₂⟩ := quiet_messages hback hquiet₁ hproc
        (hun.earlier (Http.wait_log hback.grows h))
      obtain ⟨hlt, hquiet', new₃, hl₃⟩ := ih hd.quiet h
      exact ⟨hlt, hquiet', _, (hl₁.trans hl₂).trans hl₃⟩
    · rename_i hlt
      obtain rfl := Option.some.inj h
      exact ⟨by omega, hquiet, [], .refl s⟩

/-! ## Requests -/

/-- A slot that is not in use, at its place. -/
structure Free (s : Http σ) (i : Nat) (slot : Slot) : Prop where
  slots : s.slots[i]? = some slot
  unused : slot.inUse = false

theorem freeSlot_inv (hinv : Inv s b phase) :
    ∃ i slot s', s.freeSlot = (i, s') ∧ Free s' i slot ∧ Inv s' b phase ∧ Later s s' [] ∧
      s'.activeRequests = s.activeRequests := by
  unfold Http.freeSlot
  cases hf : s.slots.findIdx? fun slot => !slot.inUse with
  | some i =>
    obtain ⟨hlt, hu, -⟩ := List.findIdx?_eq_some_iff_getElem.mp hf
    exact ⟨i, s.slots[i], s, rfl, ⟨List.getElem?_eq_getElem hlt, by simpa using hu⟩, hinv, .refl s,
      rfl⟩
  | none =>
    have hold : ∀ (j : Nat) (slot : Slot), slot.curl ≠ none ∨ slot.inUse = true →
        (s.slots ++ [⟨none, false, .ok, 0, none, none, none⟩])[j]? = some slot →
        s.slots[j]? = some slot := by
      intro j slot hne hj
      rcases Nat.lt_or_ge j s.slots.length with hlt | hge
      · rwa [List.getElem?_append_left hlt] at hj
      · rw [List.getElem?_append_right hge] at hj
        obtain ⟨hlt, rfl⟩ := List.getElem?_eq_some_iff.mp hj
        simp at hne
    have hnew : ∀ (j : Nat) (slot : Slot), s.slots[j]? = some slot →
        (s.slots ++ [⟨none, false, .ok, 0, none, none, none⟩])[j]? = some slot := by
      intro j slot hj
      rw [List.getElem?_append_left (List.getElem?_eq_some_iff.mp hj).1]
      exact hj
    refine ⟨s.slots.length, _, _, rfl, ⟨List.getElem?_concat_length, rfl⟩, ?_,
      .of_slots (by simp) rfl rfl rfl fun j slot hj _ => hnew j slot hj, rfl⟩
    refine { hinv with
      active := ?_, sessions := ?_, distinct := ?_, allocated := ?_, owner := ?_, busy := ?_ }
    · simp [hinv.active]
    · simp [hinv.sessions]
    · intro j k slot slot' h hj hk hc hc'
      exact hinv.distinct j k slot slot' h (hold j slot (.inl (by simp [hc])) hj)
        (hold k slot' (.inl (by simp [hc'])) hk) hc hc'
    · intro j slot h hj hc
      exact hinv.allocated j slot h (hold j slot (.inl (by simp [hc])) hj) hc
    · intro h j hp
      obtain ⟨slot, hj, hc, hu⟩ := hinv.owner h j hp
      exact ⟨slot, hnew j slot hj, hc, hu⟩
    · intro j slot hj hu
      exact hinv.busy j slot (hold j slot (.inr hu) hj) hu

/-- The handle of a slot that is not in use is idle. -/
theorem Inv.idle (hinv : Inv s b phase) {i : Nat} {slot : Slot} (hfree : Free s i slot)
    (hc : slot.curl = some h) : phase h = .idle := by
  have hnone : ∀ j, (phase h).slot ≠ some j := by
    intro j hp
    obtain rfl := hinv.slot_unique hp hfree.slots hc
    obtain ⟨slot', hs, -, hu⟩ := hinv.owner h i hp
    obtain rfl : slot = slot' := Option.some.inj (hfree.slots.symm.trans hs)
    simp [hfree.unused] at hu
  cases hph : phase h with
  | idle => rfl
  | started j => exact absurd (by simp [hph, Phase.slot]) (hnone j)
  | done j c => exact absurd (by simp [hph, Phase.slot]) (hnone j)

theorem withHandle_inv (env : Env σ) (hinv : Inv s b phase) {i : Nat} {slot : Slot}
    (hfree : Free s i slot) :
    ∃ h slot' s', s.withHandle env i slot = some (s', h) ∧ Free s' i slot' ∧
      slot'.curl = some h ∧ Inv s' b phase ∧ Later s s' [] ∧
      s'.activeRequests = s.activeRequests := by
  unfold Http.withHandle
  cases hc : slot.curl with
  | some h => exact ⟨h, slot, s, rfl, hfree, hc, hinv, .refl s, rfl⟩
  | none =>
    obtain ⟨m, out, b', hset, hstep, hrep⟩ := curl_board hinv.rep
      (.setopt s.nextHandle fun _ => env.curlDefault) trivial
    cases hstep
    simp only [hset, Option.bind_eq_bind, Option.bind_some]
    have hslots : ∀ (j : Nat) (slot' : Slot),
        (s.slots.modify i fun slot => { slot with curl := some s.nextHandle })[j]? = some slot' →
        ∃ old, s.slots[j]? = some old ∧ slot'.inUse = old.inUse ∧
          (j ≠ i → slot' = old) ∧ (j = i → slot'.curl = some s.nextHandle) := by
      intro j slot' hj
      rw [List.getElem?_modify] at hj
      obtain ⟨old, hj', rfl⟩ := Option.map_eq_some_iff.mp hj
      refine ⟨old, hj', ?_⟩
      by_cases hij : i = j
      · simp [hij]
      · simp [hij, Ne.symm hij]
    have hkeep : ∀ (j : Nat) (old : Slot), s.slots[j]? = some old → j ≠ i →
        (s.slots.modify i fun slot => { slot with curl := some s.nextHandle })[j]? = some old := by
      intro j old hj hne
      rw [List.getElem?_modify, hj]
      simp [Ne.symm hne]
    have hused : ∀ (j : Nat) (old : Slot), s.slots[j]? = some old → old.inUse = true → j ≠ i := by
      rintro j old hj hu rfl
      obtain rfl : slot = old := Option.some.inj (hfree.slots.symm.trans hj)
      simp [hfree.unused] at hu
    refine ⟨s.nextHandle, { slot with curl := some s.nextHandle }, _, rfl,
      ⟨by simp [getElem?_modifySlot, hfree.slots], hfree.unused⟩, rfl, ?_,
      .of_slots (by simp [Http.modifySlot]) rfl rfl rfl
        fun j old hj hu => hkeep j old hj (hused j old hj hu), rfl⟩
    refine { hinv with
      rep := hrep, active := ?_, sessions := ?_, distinct := ?_, allocated := ?_, owner := ?_,
      busy := ?_ }
    · have hcount := countP_modify (p := (·.inUse))
        (f := fun slot => { slot with curl := some s.nextHandle }) hfree.slots
      have := hinv.active
      simp only [Http.modifySlot]
      simp only [hfree.unused] at hcount
      omega
    · have hcount := countP_modify (p := (·.curl.isSome))
        (f := fun slot => { slot with curl := some s.nextHandle }) hfree.slots
      have := hinv.sessions
      simp only [Http.modifySlot]
      simp only [hc, Option.isSome_none, Option.isSome_some, Bool.false_eq_true, if_false,
        if_true] at hcount
      omega
    · intro j k slot₁ slot₂ g hj hk hc₁ hc₂
      obtain ⟨old₁, hj', -, hne₁, he₁⟩ := hslots j slot₁ hj
      obtain ⟨old₂, hk', -, hne₂, he₂⟩ := hslots k slot₂ hk
      by_cases hji : j = i
      · by_cases hki : k = i
        · exact hji.trans hki.symm
        · rw [hne₂ hki] at hc₂
          have := hinv.allocated k old₂ g hk' hc₂
          have := Option.some.inj ((he₁ hji).symm.trans hc₁)
          omega
      · rw [hne₁ hji] at hc₁
        by_cases hki : k = i
        · have := hinv.allocated j old₁ g hj' hc₁
          have := Option.some.inj ((he₂ hki).symm.trans hc₂)
          omega
        · rw [hne₂ hki] at hc₂
          exact hinv.distinct j k old₁ old₂ g hj' hk' hc₁ hc₂
    · intro j slot' g hj hg
      obtain ⟨old, hj', -, hne, he⟩ := hslots j slot' hj
      simp only [Http.modifySlot]
      by_cases hji : j = i
      · have := Option.some.inj ((he hji).symm.trans hg)
        omega
      · rw [hne hji] at hg
        have := hinv.allocated j old g hj' hg
        omega
    · intro g j hp
      obtain ⟨old, hj, hc', hu⟩ := hinv.owner g j hp
      exact ⟨old, hkeep j old hj (hused j old hj hu), hc', hu⟩
    · intro j slot' hj hu
      obtain ⟨old, hj', hu', hne, -⟩ := hslots j slot' hj
      rw [hu'] at hu
      rw [hne (hused j old hj' hu)]
      exact hinv.busy j old hj' hu

/-- Who uses the slots when the free slot `i` with the handle `h` is taken. -/
theorem Inv.taken (hinv : Inv s b phase) {i : Nat} {slot : Slot} {f : Slot → Slot}
    (hfree : Free s i slot) (hc : slot.curl = some h)
    (hf : ∀ slot, (f slot).curl = slot.curl ∧ (f slot).inUse = true) :
    (∀ g j, (Function.update phase h (.started i) g).slot = some j →
      ∃ slot, (s.slots.modify i f)[j]? = some slot ∧ slot.curl = some g ∧ slot.inUse = true) ∧
    ∀ (j : Nat) (slot : Slot), (s.slots.modify i f)[j]? = some slot → slot.inUse = true →
      ∃ g, slot.curl = some g ∧ (Function.update phase h (.started i) g).slot = some j := by
  have hidle := hinv.idle hfree hc
  constructor
  · intro g j hg
    by_cases hgh : g = h
    · subst hgh
      simp only [Function.update_self, Phase.slot, Option.some.injEq] at hg
      subst hg
      exact ⟨f slot, by simp [hfree.slots], (hf slot).1.trans hc, (hf slot).2⟩
    · rw [Function.update_of_ne hgh] at hg
      obtain ⟨old, hj, hc', hu⟩ := hinv.owner g j hg
      have hij : i ≠ j := by
        rintro rfl
        obtain rfl : slot = old := Option.some.inj (hfree.slots.symm.trans hj)
        simp [hfree.unused] at hu
      exact ⟨old, by simp [hj, hij], hc', hu⟩
  · intro j slot' hj hu
    obtain ⟨old, hj', he, hsame⟩ := modify_curl (fun slot => (hf slot).1) hj
    by_cases hij : j = i
    · subst hij
      obtain rfl : slot = old := Option.some.inj (hfree.slots.symm.trans hj')
      exact ⟨h, he.trans hc, by simp [Phase.slot]⟩
    · obtain rfl := hsame hij
      obtain ⟨g, hg, hp⟩ := hinv.busy j slot' hj' hu
      refine ⟨g, hg, ?_⟩
      rw [Function.update_of_ne]
      · exact hp
      · rintro rfl
        simp [hidle, Phase.slot] at hp

/-- A slot that was free is in use, and its handle is started. -/
theorem started_inv (hinv : Inv s b phase) {i : Nat} {slot : Slot} (hfree : Free s i slot)
    (hc : slot.curl = some h) {f : Slot → Slot}
    (hf : ∀ slot, (f slot).curl = slot.curl ∧ (f slot).inUse = true) {m : Multi}
    (hnot : h ∉ b.added) (hrep : m.Rep (b.add h hnot)) :
    Inv { s with
      curlm := m, activeRequests := s.activeRequests + 1, slots := s.slots.modify i f,
      log := s.log ++ [HttpEvent.started i h] } (b.add h hnot)
      (Function.update phase h (.started i)) := by
  have hidle := hinv.idle hfree hc
  obtain ⟨hsessions, hdistinct, hallocated⟩ := hinv.handles (fun slot => (hf slot).1) hfree.slots
  obtain ⟨howner, hbusy⟩ := hinv.taken hfree hc hf
  refine ⟨hrep, hinv.next rfl (by simp [hidle, Phase.next]), ?_, hsessions, hdistinct, hallocated,
    howner, hbusy, ?_, ?_, ?_, ?_, hinv.once, hinv.positive⟩
  · have hcount := countP_modify (p := (·.inUse)) (f := f) hfree.slots
    have := hinv.active
    simp only [hfree.unused, hf, if_true, Bool.false_eq_true, if_false] at hcount
    simp only
    omega
  · intro g
    rw [show (b.add h hnot).added = h :: b.added from rfl, List.mem_cons, hinv.added]
    by_cases hg : g = h
    · subst hg
      simp [Phase.slot]
    · simp [hg]
  · intro g j hg
    by_cases hgh : g = h
    · subst hgh
      simp [Board.add]
    · rw [Function.update_of_ne hgh] at hg
      simpa [Board.add, hgh] using hinv.waiting g j hg
  · intro g j c hg
    have hne : g ≠ h := by
      rintro rfl
      simp at hg
    rw [Function.update_of_ne hne] at hg
    simpa [Board.add, hne] using hinv.done g j c hg
  · intro message hm
    obtain ⟨j, hj⟩ := hinv.queue message hm
    have hne : message.easyHandle ≠ h := by
      intro he
      rw [he, hidle] at hj
      cases hj
    exact ⟨j, (Function.update_of_ne hne _ _).trans hj⟩

/-- A request starts a slot; when it returns its transfer has ended. -/
theorem quiet_request (hback : Sound back) {fuel : Nat} {r : Request} {i : Nat} (hquiet : Quiet s)
    (h : s.request env back fuel r = some (s', i)) (hun : s'.Unreleased) :
    Quiet s' ∧ ∃ new, Later s s' new := by
  obtain ⟨s₀, hwait₀, hlog⟩ := Http.request_log h
  unfold Http.request Http.getActiveSlot at h
  simp only [Option.bind_eq_bind, Option.bind_assoc] at h
  obtain ⟨s₁, hwait, h⟩ := Option.bind_eq_some_iff.mp h
  obtain rfl : s₀ = s₁ := Option.some.inj (hwait₀.symm.trans hwait)
  obtain ⟨hlt, ⟨-, b, phase, hinv, hsettled⟩, new₁, hl₁⟩ :=
    quiet_wait hback hquiet hwait (hun.earlier hlog)
  obtain ⟨j, slot, s₂, hfree, hslot, hinv₂, hl₂, ha₂⟩ := freeSlot_inv hinv
  obtain ⟨a, slot', s₃, hhandle, hslot₃, hc, hinv₃, hl₃, ha₃⟩ := withHandle_inv env hinv₂ hslot
  have hidle := hinv₃.idle hslot₃ hc
  have hnot : a ∉ b.added := by
    rw [hinv₃.added]
    simp [hidle, Phase.slot]
  simp only [hfree, hslot.slots, hhandle, Option.bind_some] at h
  obtain ⟨m, out, b', hset, hstep, hrep⟩ := curl_board (s := { s₃ with
      activeRequests := s₃.activeRequests + 1 }.modifySlot j fun slot =>
      { slot with inUse := true, results := none, finished := none, callbackFunc := none })
    (b := b) hinv₃.rep (.setopt a r.options) trivial
  cases hstep
  rw [hset, Option.bind_some] at h
  unfold Http.startActiveSlot at h
  have hslots : (s₃.slots.modify j fun slot =>
      { slot with inUse := true, results := none, finished := none, callbackFunc := none }).modify
        j (fun slot => { slot with results := r.results, callbackFunc := r.callbackFunc }) =
      s₃.slots.modify j fun slot => { slot with
        inUse := true, finished := none, results := r.results, callbackFunc := r.callbackFunc }
      := by
    rw [List.modify_modify_eq]
    rfl
  have hgot : (s₃.slots.modify j fun slot => { slot with
        inUse := true, finished := none, results := r.results,
        callbackFunc := r.callbackFunc })[j]?
      = some { slot' with inUse := true, finished := none, results := r.results,
                          callbackFunc := r.callbackFunc } := by
    simp [hslot₃.slots]
  simp only [Http.modifySlot, hslots, hgot, Option.bind_eq_bind, Option.bind_some, hc] at h
  obtain ⟨m', out', b'', hadd, hstep', hrep'⟩ := curl_board (s := { s₃ with
      activeRequests := s₃.activeRequests + 1, curlm := m, slots := s₃.slots.modify j fun slot =>
        { slot with inUse := true, finished := none, results := r.results,
                    callbackFunc := r.callbackFunc } }) (b := b) hrep
    (.addHandle (some a)) trivial
  rw [hadd, Option.bind_some] at h
  cases hstep' with
  | addAgain hmem => exact absurd hmem hnot
  | add hmem =>
    have hstarted := started_inv hinv₃ hslot₃ hc (f := fun slot => { slot with
      inUse := true, finished := none, results := r.results, callbackFunc := r.callbackFunc })
      (fun _ => ⟨rfl, rfl⟩) hnot hrep'
    obtain ⟨s₄, new₄, hperf, hquiet₄, hl₄, -⟩ := quiet_perform env hstarted (by
      have := hl₂.max
      have := hl₃.max
      simp only
      omega)
    simp only [hperf, Option.map_some, Option.bind_some, Option.some.injEq, Prod.mk.injEq] at h
    obtain ⟨rfl, rfl⟩ := h
    have hmid : Later s₃ { s₃ with
        curlm := m', activeRequests := s₃.activeRequests + 1
        slots := s₃.slots.modify j fun slot => { slot with
          inUse := true, finished := none, results := r.results, callbackFunc := r.callbackFunc }
        log := s₃.log ++ [HttpEvent.started j a] } [HttpEvent.started j a] := by
      refine .of_slots rfl rfl rfl rfl ?_
      intro k old hk hu
      have hjk : j ≠ k := by
        rintro rfl
        obtain rfl : slot' = old := Option.some.inj (hslot₃.slots.symm.trans hk)
        simp [hslot₃.unused] at hu
      simp [hk, hjk]
    exact ⟨hquiet₄, _, (((hl₁.trans hl₂).trans hl₃).trans hmid).trans hl₄⟩

/-! ## Filling -/

theorem quiet_tryFills (hback : Sound back) {fuel k : Nat} {filled : Bool} (hquiet : Quiet s)
    (h : s.tryFills env back fuel k = some (s', filled)) (hun : s'.Unreleased) :
    Quiet s' ∧ ∃ new, Later s s' new := by
  induction fuel generalizing s k with
  | zero => simp [Http.tryFills] at h
  | succ fuel ih =>
    rw [Http.tryFills] at h
    split at h
    · obtain ⟨rfl, -⟩ := Prod.mk.inj (Option.some.inj h)
      exact ⟨hquiet, [], .refl s⟩
    · obtain ⟨⟨s₁, value⟩, hrun, h⟩ := Option.bind_eq_some_iff.mp h
      dsimp only at h
      split at h
      · obtain ⟨rfl, -⟩ := Prod.mk.inj (Option.some.inj h)
        exact hback.quiet _ _ _ _ hquiet hrun hun
      · obtain ⟨hquiet₁, new₁, hl₁⟩ := hback.quiet _ _ _ _ hquiet hrun
          (hun.earlier (Http.tryFills_log hback.grows h))
        obtain ⟨hquiet', new₂, hl₂⟩ := ih hquiet₁ h
        exact ⟨hquiet', _, hl₁.trans hl₂⟩

theorem quiet_fillLoop (hback : Sound back) {fuel : Nat} (hquiet : Quiet s)
    (h : s.fillLoop env back fuel = some s') (hun : s'.Unreleased) :
    Quiet s' ∧ ∃ new, Later s s' new := by
  induction fuel generalizing s with
  | zero => simp [Http.fillLoop] at h
  | succ fuel ih =>
    rw [Http.fillLoop] at h
    split at h
    · obtain ⟨⟨s₁, filled⟩, htry, h⟩ := Option.bind_eq_some_iff.mp h
      dsimp only at h
      split at h
      · obtain ⟨hquiet₁, new₁, hl₁⟩ := quiet_tryFills hback hquiet htry
          (hun.earlier (Http.fillLoop_log hback.grows h))
        obtain ⟨hquiet', new₂, hl₂⟩ := ih hquiet₁ h
        exact ⟨hquiet', _, hl₁.trans hl₂⟩
      · obtain rfl := Option.some.inj h
        exact quiet_tryFills hback hquiet htry hun
    · obtain rfl := Option.some.inj h
      exact ⟨hquiet, [], .refl s⟩

/-- The last loop takes handles from slots that are not in use, one from the count for each. -/
theorem closeIdle_spec (min : Int) (slots : List Slot) (count : Int) :
    (∀ i : Nat, ∀ slot' : Slot, (Http.closeIdle min slots count).1[i]? = some slot' →
      ∃ slot : Slot, slots[i]? = some slot ∧ slot'.inUse = slot.inUse ∧
        ∀ h, slot'.curl = some h → slot.curl = some h) ∧
      (∀ i : Nat, ∀ slot : Slot, slots[i]? = some slot → slot.inUse = true →
        (Http.closeIdle min slots count).1[i]? = some slot) ∧
      (Http.closeIdle min slots count).1.countP (·.inUse) = slots.countP (·.inUse) ∧
      (Http.closeIdle min slots count).2 - (Http.closeIdle min slots count).1.countP (·.curl.isSome)
        = count - slots.countP (·.curl.isSome) := by
  induction slots generalizing count with
  | nil => simp [Http.closeIdle]
  | cons slot slots ih =>
    rw [Http.closeIdle]
    split
    · rename_i hclose
      simp only [Bool.and_eq_true, Bool.not_eq_true'] at hclose
      obtain ⟨hkeep, hused, hcount, hcurl⟩ := ih (count - 1)
      refine ⟨?_, ?_, ?_, ?_⟩
      · intro i slot' hi
        cases i with
        | zero =>
          obtain rfl : _ = slot' := Option.some.inj hi
          exact ⟨slot, rfl, rfl, by simp⟩
        | succ i => exact hkeep i slot' hi
      · intro i slot' hi hu
        cases i with
        | zero =>
          obtain rfl : slot = slot' := Option.some.inj hi
          simp [hclose.1.1] at hu
        | succ i => exact hused i slot' hi hu
      · rw [List.countP_cons, List.countP_cons, hcount]
      · simp only [List.countP_cons, hclose.1.2, if_true, Option.isSome_none, Bool.false_eq_true,
          if_false]
        push_cast at hcurl ⊢
        omega
    · obtain ⟨hkeep, hused, hcount, hcurl⟩ := ih count
      refine ⟨?_, ?_, ?_, ?_⟩
      · intro i slot' hi
        cases i with
        | zero =>
          obtain rfl : slot = slot' := Option.some.inj hi
          exact ⟨slot, rfl, rfl, fun _ h => h⟩
        | succ i => exact hkeep i slot' hi
      · intro i slot' hi hu
        cases i with
        | zero => exact hi
        | succ i => exact hused i slot' hi hu
      · rw [List.countP_cons, List.countP_cons, hcount]
      · simp only [List.countP_cons]
        push_cast at hcurl ⊢
        omega

theorem quiet_fill (hback : Sound back) {fuel : Nat} (hquiet : Quiet s)
    (h : s.fillActiveSlots env back fuel = some s') (hun : s'.Unreleased) :
    Quiet s' ∧ ∃ new, Later s s' new := by
  obtain ⟨s₁, hfill, h⟩ := Option.bind_eq_some_iff.mp h
  dsimp only at h
  split at h
  · obtain rfl := Option.some.inj h
    exact quiet_fillLoop hback hquiet hfill hun
  · obtain rfl := Option.some.inj h
    obtain ⟨⟨hmax, b, phase, hinv, hsettled⟩, new, hl⟩ := quiet_fillLoop hback hquiet hfill hun
    obtain ⟨hkeep, hused, hcount, hcurl⟩ :=
      closeIdle_spec s₁.minCurlSessions s₁.slots s₁.curlSessionCount
    have hinv' : Inv { s₁ with
        slots := (Http.closeIdle s₁.minCurlSessions s₁.slots s₁.curlSessionCount).1
        curlSessionCount :=
          (Http.closeIdle s₁.minCurlSessions s₁.slots s₁.curlSessionCount).2 } b phase := by
      refine { hinv with
        active := ?_, sessions := ?_, distinct := ?_, allocated := ?_, owner := ?_, busy := ?_ }
      · rw [hcount]
        exact hinv.active
      · have := hinv.sessions
        simp only
        omega
      · intro i j slot slot' g hi hj hc hc'
        obtain ⟨old, hi', -, he⟩ := hkeep i slot hi
        obtain ⟨old', hj', -, he'⟩ := hkeep j slot' hj
        exact hinv.distinct i j old old' g hi' hj' (he g hc) (he' g hc')
      · intro i slot g hi hc
        obtain ⟨old, hi', -, he⟩ := hkeep i slot hi
        exact hinv.allocated i old g hi' (he g hc)
      · intro g i hp
        obtain ⟨slot, hi, hc, hu⟩ := hinv.owner g i hp
        exact ⟨slot, hused i slot hi hu, hc, hu⟩
      · intro i slot hi hu
        obtain ⟨old, hi', he, -⟩ := hkeep i slot hi
        have hsame := hused i old hi' (he ▸ hu)
        obtain rfl : old = slot := Option.some.inj (hsame.symm.trans hi)
        exact hinv.busy i old hi' hu
    refine ⟨⟨hmax, b, phase, hinv', hsettled⟩, new, ?_⟩
    have hlast : Later s₁ { s₁ with
        slots := (Http.closeIdle s₁.minCurlSessions s₁.slots s₁.curlSessionCount).1
        curlSessionCount :=
          (Http.closeIdle s₁.minCurlSessions s₁.slots s₁.curlSessionCount).2 } [] :=
      .of_slots (by simp) rfl rfl rfl hused
    simpa using hl.trans hlast

/-! ## Waiting -/

/-- A step finishes all requests before it fills the slots again. -/
theorem quiet_step (hback : Sound back) {fuel : Nat} (hquiet : Quiet s)
    (h : s.stepActiveSlots env back fuel = some s') (hun : s'.Unreleased) :
    Quiet s' ∧ ∃ s₁ new₁ new₂, Drained s₁ ∧ Later s s₁ new₁ ∧ Later s₁ s' new₂ := by
  obtain ⟨hmax, b, phase, hinv, hsettled⟩ := hquiet
  obtain ⟨s₁, new₁, hperf, hquiet₁, hl₁, ha₁⟩ := quiet_perform env hinv hmax
  simp only [Http.stepActiveSlots, hperf, Option.bind_eq_bind, Option.bind_some,
    Nat.cast_zero] at h
  split at h
  · obtain ⟨s₂, hproc, h⟩ := Option.bind_eq_some_iff.mp h
    obtain ⟨hd, new₂, hl₂⟩ := quiet_messages hback hquiet₁ hproc
      (hun.earlier (Http.fill_log hback.grows h))
    obtain ⟨hquiet', new₃, hl₃⟩ := quiet_fill hback hd.quiet h hun
    exact ⟨hquiet', s₂, _, new₃, hd, hl₁.trans hl₂, hl₃⟩
  · rename_i hle
    obtain rfl := Option.some.inj h
    obtain ⟨hmax₁, b₁, phase₁, hinv₁, hsettled₁⟩ := hquiet₁
    have hzero : s₁.slots.countP (·.inUse) = 0 := by
      have := hinv₁.active
      omega
    have hempty : b₁.queue = [] := by
      rw [List.eq_nil_iff_forall_not_mem]
      intro message hm
      obtain ⟨i, hi⟩ := hinv₁.queue message hm
      obtain ⟨slot, hs, -, hu⟩ := hinv₁.owner message.easyHandle i (by simp [hi, Phase.slot])
      exact (List.countP_eq_zero.mp hzero) slot (List.mem_of_getElem? hs) hu
    exact ⟨⟨hmax₁, b₁, phase₁, hinv₁, hsettled₁⟩, s₁, new₁, [],
      ⟨b₁, phase₁, hinv₁, hsettled₁, hempty⟩, hl₁, .refl s₁⟩

/-- A slot's `finished` is set to any value. -/
theorem Inv.setFinished (hinv : Inv s b phase) (i : Nat) (finished : Option Nat) :
    Inv (s.modifySlot i fun slot => { slot with finished := finished }) b phase := by
  have hback : ∀ (j : Nat) (slot' : Slot),
      (s.modifySlot i fun slot => { slot with finished := finished }).slots[j]? = some slot' →
      ∃ slot, s.slots[j]? = some slot ∧ slot'.curl = slot.curl ∧ slot'.inUse = slot.inUse := by
    intro j slot' hj
    rw [getElem?_modifySlot] at hj
    obtain ⟨slot, hj', rfl⟩ := Option.map_eq_some_iff.mp hj
    refine ⟨slot, hj', ?_⟩
    by_cases hij : i = j <;> simp [hij]
  have hcount : ∀ p : Slot → Bool, (∀ slot, p { slot with finished := finished } = p slot) →
      (s.modifySlot i fun slot => { slot with finished := finished }).slots.countP p =
        s.slots.countP p := by
    intro p hp
    cases hs : s.slots[i]? with
    | none =>
      have hle : s.slots.length ≤ i := List.getElem?_eq_none_iff.mp hs
      simp only [Http.modifySlot, List.modify_eq_self hle]
    | some slot =>
      have := countP_modify (p := p) (f := fun slot => { slot with finished := finished }) hs
      rw [hp] at this
      simp only [Http.modifySlot]
      omega
  refine { hinv with
    active := ?_, sessions := ?_, distinct := ?_, allocated := ?_, owner := ?_, busy := ?_ }
  · rw [hcount (·.inUse) fun _ => rfl]
    exact hinv.active
  · rw [hcount (·.curl.isSome) fun _ => rfl]
    exact hinv.sessions
  · intro j k slot slot' g hj hk hc hc'
    obtain ⟨old, hj', he, -⟩ := hback j slot hj
    obtain ⟨old', hk', he', -⟩ := hback k slot' hk
    exact hinv.distinct j k old old' g hj' hk' (he ▸ hc) (he' ▸ hc')
  · intro j slot g hj hc
    obtain ⟨old, hj', he, -⟩ := hback j slot hj
    exact hinv.allocated j old g hj' (he ▸ hc)
  · intro g j hp
    obtain ⟨slot, hj, hc, hu⟩ := hinv.owner g j hp
    refine ⟨if i = j then { slot with finished := finished } else slot, ?_, ?_, ?_⟩
    · rw [getElem?_modifySlot, hj]
      rfl
    · by_cases hij : i = j <;> simp [hij, hc]
    · by_cases hij : i = j <;> simp [hij, hu]
  · intro j slot hj hu
    obtain ⟨old, hj', hc, hu'⟩ := hback j slot hj
    obtain ⟨g, hg, hp⟩ := hinv.busy j old hj' (hu' ▸ hu)
    exact ⟨g, hc.trans hg, hp⟩

theorem quiet_setFinished (hquiet : Quiet s) (i : Nat) (finished : Option Nat) :
    Quiet (s.modifySlot i fun slot => { slot with finished := finished }) := by
  obtain ⟨hmax, b, phase, hinv, hsettled⟩ := hquiet
  exact ⟨hmax, b, phase, hinv.setFinished i finished, hsettled⟩

theorem quiet_await (hquiet : Quiet s) (i : Nat) :
    Quiet (s.awaitSlot i).1 ∧ Later s (s.awaitSlot i).1 [.awaited i] := by
  obtain ⟨hmax, b, phase, hinv, hsettled⟩ := hquiet
  have hinv' : Inv { s with
      flags := Function.update s.flags s.nextFlag false, nextFlag := s.nextFlag + 1
      log := s.log ++ [HttpEvent.awaited i] } b phase := by
    refine { hinv with lawful := ?_ }
    intro g
    exact (phaseOf_of_ne (by simp [HttpEvent.handle])).trans (hinv.lawful g)
  refine ⟨⟨hmax, b, phase, hinv'.setFinished i _, hsettled⟩, rfl, rfl, Nat.le_succ _, ?_, ?_⟩
  · intro f hf hset
    simpa [Http.awaitSlot, Http.modifySlot, Nat.ne_of_lt hf] using hset
  · intro j slot f hj hu hfin _
    by_cases hij : i = j
    · exact .inr (.inr (by simp [hij]))
    · refine .inl ⟨slot, ?_, hu, hfin⟩
      simp [Http.awaitSlot, Http.modifySlot, hj, hij]

theorem quiet_runLoop (hback : Sound back) {flag fuel : Nat} (hquiet : Quiet s)
    (h : s.runLoop env back flag fuel = some s') (hun : s'.Unreleased) :
    s'.flags flag = true ∧ Quiet s' ∧ ∃ new, Later s s' new := by
  induction fuel generalizing s with
  | zero => simp [Http.runLoop] at h
  | succ fuel ih =>
    rw [Http.runLoop] at h
    split at h
    · rename_i hset
      obtain rfl := Option.some.inj h
      exact ⟨hset, hquiet, [], .refl s⟩
    · obtain ⟨s₁, hstep, h⟩ := Option.bind_eq_some_iff.mp h
      obtain ⟨hquiet₁, s₂, new₁, new₂, -, hl₁, hl₂⟩ := quiet_step hback hquiet hstep
        (hun.earlier (Http.runLoop_log hback.grows h))
      obtain ⟨hset, hquiet', new₃, hl₃⟩ := ih hquiet₁ h
      exact ⟨hset, hquiet', _, (hl₁.trans hl₂).trans hl₃⟩

theorem runActiveSlot_eq (s : Http σ) (fuel i : Nat) :
    s.runActiveSlot env back fuel i =
      ((s.awaitSlot i).1.runLoop env back (s.awaitSlot i).2 fuel).map fun s' =>
        s'.modifySlot i fun slot => { slot with finished := none } := by
  simp only [Http.runActiveSlot, Option.bind_eq_bind, Option.map_eq_bind]
  rfl

theorem quiet_run (hback : Sound back) {fuel i : Nat} (hquiet : Quiet s)
    (h : s.runActiveSlot env back fuel i = some s') (hun : s'.Unreleased) :
    Quiet s' ∧ ∃ new, Later s s' new := by
  rw [runActiveSlot_eq] at h
  obtain ⟨s₁, hloop, rfl⟩ := Option.map_eq_some_iff.mp h
  obtain ⟨hquiet₀, hl₀⟩ := quiet_await hquiet i
  obtain ⟨hset, hquiet₁, new, hl₁⟩ := quiet_runLoop hback hquiet₀ hloop hun
  refine ⟨quiet_setFinished hquiet₁ i none, [.awaited i] ++ new, ?_⟩
  have hl := hl₀.trans hl₁
  refine ⟨hl.log, hl.max, hl.nextFlag, hl.flags, ?_⟩
  intro j slot f hj hu hfin hf
  by_cases hij : i = j
  · exact .inr (.inr (by simp [hij]))
  · obtain ⟨slot', hs', hu', hfin'⟩ | hset | hnew := hl.waits j slot f hj hu hfin hf
    · refine .inl ⟨slot', ?_, hu', hfin'⟩
      simp [getElem?_modifySlot, hs', hij]
    · exact .inr (.inl hset)
    · exact .inr (.inr hnew)

theorem quiet_finishAll (hback : Sound back) {fuel : Nat} (hquiet : Quiet s)
    (h : s.finishAllActiveSlots env back fuel = some s') (hun : s'.Unreleased) :
    Quiet s' ∧ ∃ new, Later s s' new := by
  induction fuel generalizing s with
  | zero => simp [Http.finishAllActiveSlots] at h
  | succ fuel ih =>
    rw [Http.finishAllActiveSlots] at h
    split at h
    · obtain ⟨s₁, hrun, h⟩ := Option.bind_eq_some_iff.mp h
      obtain ⟨hquiet₁, new₁, hl₁⟩ := quiet_run hback hquiet hrun
        (hun.earlier (Http.finishAll_log hback.grows h))
      obtain ⟨hquiet', new₂, hl₂⟩ := ih hquiet₁ h
      exact ⟨hquiet', _, hl₁.trans hl₂⟩
    · obtain rfl := Option.some.inj h
      exact ⟨hquiet, [], .refl s⟩

/-! ## Clients -/

theorem quiet_call (hback : Sound back) {fuel r : Nat} {c : HttpCall} (hquiet : Quiet s)
    (h : s.doCall env back fuel c = some (s', r)) (hun : s'.Unreleased) :
    Quiet s' ∧ ∃ new, Later s s' new := by
  cases c with
  | request req => exact quiet_request hback hquiet h hun
  | release i =>
    obtain ⟨s₁, hrelease, he⟩ := Option.map_eq_some_iff.mp h
    obtain ⟨rfl, -⟩ := Prod.mk.inj he
    have hlog := Http.release_request_log hback.grows hrelease
    exact absurd (hlog.subset (by simp)) (hun i)
  | run i =>
    obtain ⟨s₁, hrun, he⟩ := Option.map_eq_some_iff.mp h
    obtain ⟨rfl, -⟩ := Prod.mk.inj he
    exact quiet_run hback hquiet hrun hun
  | step =>
    obtain ⟨s₁, hstep, he⟩ := Option.map_eq_some_iff.mp h
    obtain ⟨rfl, -⟩ := Prod.mk.inj he
    obtain ⟨hquiet₁, s₂, new₁, new₂, -, hl₁, hl₂⟩ := quiet_step hback hquiet hstep hun
    exact ⟨hquiet₁, _, hl₁.trans hl₂⟩
  | fill =>
    obtain ⟨s₁, hfill, he⟩ := Option.map_eq_some_iff.mp h
    obtain ⟨rfl, -⟩ := Prod.mk.inj he
    exact quiet_fill hback hquiet hfill hun
  | finishAll =>
    obtain ⟨s₁, hfinish, he⟩ := Option.map_eq_some_iff.mp h
    obtain ⟨rfl, -⟩ := Prod.mk.inj he
    exact quiet_finishAll hback hquiet hfinish hun
  | addFill f =>
    obtain ⟨rfl, -⟩ := Prod.mk.inj (Option.some.inj h)
    obtain ⟨hmax, b, phase, hinv, hsettled⟩ := hquiet
    exact ⟨⟨hmax, b, phase, { hinv with }, hsettled⟩, [],
      .of_slots (by simp) rfl rfl rfl fun _ _ hs _ => hs⟩

/-- By induction on the fuel: a callback runs with less of it. -/
theorem exec_sound (env : Env σ) (fuel : Nat) : Sound (exec env fuel) := by
  induction fuel with
  | zero =>
    refine ⟨exec_grows env 0, ?_⟩
    intro p s s' value _ h
    simp [exec] at h
  | succ fuel ih =>
    refine ⟨exec_grows env (fuel + 1), ?_⟩
    intro p s s' value hquiet h hun
    cases p with
    | ret v =>
      obtain ⟨rfl, -⟩ := Prod.mk.inj (Option.some.inj h)
      exact ⟨hquiet, [], .refl s⟩
    | look next => exact ih.quiet (next s) s s' value hquiet h hun
    | set client next =>
      obtain ⟨hmax, b, phase, hinv, hsettled⟩ := hquiet
      have hl : Later s { s with client := client } [] :=
        .of_slots (by simp) rfl rfl rfl fun _ _ hs _ => hs
      have hquiet₁ : Quiet { s with client := client } :=
        ⟨hmax, b, phase, { hinv with }, hsettled⟩
      obtain ⟨hquiet', new, hl'⟩ := ih.quiet next _ s' value hquiet₁ h hun
      exact ⟨hquiet', _, hl.trans hl'⟩
    | call c next =>
      obtain ⟨⟨s₁, r⟩, hcall, h⟩ := Option.bind_eq_some_iff.mp h
      obtain ⟨hquiet₁, new₁, hl₁⟩ := quiet_call ih hquiet hcall
        (hun.earlier (ih.grows (next r) s₁ s' value h))
      obtain ⟨hquiet', new₂, hl₂⟩ := ih.quiet (next r) s₁ s' value hquiet₁ h hun
      exact ⟨hquiet', _, hl₁.trans hl₂⟩

theorem httpInit_quiet (easy : Nat → Handle) (maxRequests minCurlSessions : Int)
    (results : Nat → SlotResults) (client : σ) :
    Quiet (httpInit easy maxRequests minCurlSessions results client) := by
  have hpos : 1 ≤ (httpInit easy maxRequests minCurlSessions results client).maxRequests := by
    simp only [httpInit]
    split <;> omega
  refine ⟨by simp only [httpInit] at hpos ⊢; omega, ⟨[], List.nodup_nil, fun _ => false, []⟩,
    fun _ => .idle, ?_, by simp [Settled]⟩
  exact
    { rep := multiInit_rep easy
      lawful := fun _ => rfl
      active := rfl
      sessions := rfl
      distinct := by simp [httpInit]
      allocated := by simp [httpInit]
      owner := by simp [Phase.slot]
      busy := by simp [httpInit]
      added := by simp [Phase.slot]
      waiting := by simp
      done := by simp
      queue := by simp
      once := by simp
      positive := hpos }

/-- The transfers of the handles fail at once, and the callback makes another request. -/
def nestedEnv : Env Unit where
  network _ _ := twoChunks
  callback _ := .call (.request ⟨id, none, none⟩) fun _ => .ret false
  fill _ := .ret false
  curlDefault := easyInit

/-- One request, with a callback, and the wait for it and one more request. -/
def nestedClient (wait : Bool) : Prog Unit :=
  .call (.request ⟨id, some 0, some 0⟩) fun i =>
    if wait then .call (.run i) fun _ => .call (.request ⟨id, none, none⟩) fun _ => .ret true
    else .ret true

def nestedStart : Http Unit := httpInit (fun _ => easyInit) 5 1 (fun _ => ⟨.ok, 0, 0, 0⟩) ()

def isReleased : HttpEvent → Bool
  | .released _ => true
  | _ => false

theorem unreleased_of_any (h : s.log.any isReleased = false) : s.Unreleased := by
  intro i hi
  have := List.any_eq_false.mp h _ hi
  simp [isReleased] at this

/-- A request that is aborted, and another one: the message of the first is left in the queue and
read for the second, which is finished twice. -/
example : (exec nestedEnv 9 (.call (.request ⟨id, none, none⟩) fun i => .call (.release i) fun _ =>
      .call (.request ⟨id, none, none⟩) fun _ => .call .step fun _ => .ret true)
    nestedStart).map (fun r => r.1.activeRequests) = some (-1) := by decide

/-- A handle that is done becomes idle only by its finish, with the result of its transfer. -/
theorem finished_of_idle {new : List HttpEvent} {i : Nat} {c : Code}
    (hdone : phaseOf log h = some (.done i c)) (hidle : phaseOf (log ++ new) h = some .idle) :
    .finished i h c ∈ new := by
  rw [phaseOf_append, hdone, Option.bind_some] at hidle
  cases hf : new.filter fun e => e.handle == some h with
  | nil => simp [hf] at hidle
  | cons e events =>
    have hmem : e ∈ new.filter fun e => e.handle == some h := by simp [hf]
    obtain ⟨hnew, he⟩ := List.mem_filter.mp hmem
    rw [hf, List.foldlM_cons] at hidle
    obtain ⟨q, hnext, -⟩ := Option.bind_eq_some_iff.mp hidle
    cases e with
    | started => simp [Phase.next] at hnext
    | transferred => simp [Phase.next] at hnext
    | awaited => simp [Phase.next] at hnext
    | released => simp [Phase.next] at hnext
    | finished j a d =>
      have ha : a = h := by simpa [HttpEvent.handle] using he
      have hsame : i = j ∧ c = d := by
        by_contra hne
        simp [Phase.next, hne] at hnext
      obtain ⟨rfl, rfl⟩ := hsame
      exact ha ▸ hnew

end Git
