import Ewokos.Git.HttpSlots

/-!
# The log of a session

Whatever happens in a session, what the log holds stays there.

* `Http.Unreleased` — no slot was released so far; so it was not at any earlier moment.
* `Grows` — a client that only adds to the log; each function of http.c is one when it calls such
  clients back.

Main result: `exec_grows`.
-/

set_option autoImplicit false

namespace Git

open Curl

variable {σ : Type} {env : Env σ} {back : Runner σ} {s s' : Http σ}

/-- No slot was released. -/
def Http.Unreleased (s : Http σ) : Prop := ∀ i, HttpEvent.released i ∉ s.log

theorem Http.Unreleased.earlier (h : s'.Unreleased) (hlog : s.log <+: s'.log) : s.Unreleased :=
  fun i hi => h i (hlog.subset hi)

/-- A client adds to the log. -/
def Grows (back : Runner σ) : Prop := ∀ p s s' value, back p s = some (s', value) → s.log <+: s'.log

namespace Http

theorem curl_log {op : Op} {out : Out} (h : s.curl op = some (s', out)) : s'.log = s.log := by
  obtain ⟨⟨m, out'⟩, -, he⟩ := Option.map_eq_some_iff.mp h
  obtain ⟨rfl, -⟩ := Prod.mk.inj he
  rfl

theorem perform_log {running : Option Nat} (h : s.perform env = some (s', running)) :
    s.log <+: s'.log := by
  obtain ⟨⟨s₁, out⟩, hcurl, h⟩ := Option.bind_eq_some_iff.mp h
  dsimp only at h
  split at h
  · obtain ⟨rfl, -⟩ := Prod.mk.inj (Option.some.inj h)
    exact List.prefix_append ..
  · simp at h

theorem storeResults_log (i a : Nat) (slot : Slot) : s.log <+: (s.storeResults i a slot).log := by
  unfold storeResults
  cases slot.finished with
  | none =>
    cases slot.results with
    | none => exact List.prefix_append ..
    | some r => exact List.prefix_append ..
  | some f =>
    cases slot.results with
    | none => exact List.prefix_append ..
    | some r => exact List.prefix_append ..

theorem finish_log (hback : Grows back) {i : Nat} (h : s.finishActiveSlot env back i = some s') :
    s.log <+: s'.log := by
  obtain ⟨slot, -, h⟩ := Option.bind_eq_some_iff.mp h
  obtain ⟨a, -, h⟩ := Option.bind_eq_some_iff.mp h
  have hstore := storeResults_log (s := s) i a slot
  dsimp only at h
  split at h
  · obtain ⟨⟨s₁, value⟩, hrun, rfl⟩ := Option.map_eq_some_iff.mp h
    exact hstore.trans (hback _ _ _ _ hrun)
  · obtain rfl := Option.some.inj h
    exact hstore

theorem messages_log (hback : Grows back) {fuel : Nat}
    (h : s.processCurlMessages env back fuel = some s') : s.log <+: s'.log := by
  induction fuel generalizing s with
  | zero => simp [processCurlMessages] at h
  | succ fuel ih =>
    obtain ⟨⟨s₁, out⟩, hread, h⟩ := Option.bind_eq_some_iff.mp h
    rw [← curl_log hread]
    dsimp only at h
    split at h
    · split at h
      · obtain ⟨⟨s₂, out₂⟩, hremove, h⟩ := Option.bind_eq_some_iff.mp h
        obtain ⟨s₃, hfinish, h⟩ := Option.bind_eq_some_iff.mp h
        rw [← curl_log hremove]
        exact (finish_log hback hfinish).trans (ih h)
      · exact ih h
    · obtain rfl := Option.some.inj h
      exact List.prefix_rfl

theorem wait_log (hback : Grows back) {fuel : Nat} (h : s.waitForSlot env back fuel = some s') :
    s.log <+: s'.log := by
  induction fuel generalizing s with
  | zero => simp [waitForSlot] at h
  | succ fuel ih =>
    rw [waitForSlot] at h
    split at h
    · obtain ⟨⟨s₁, running⟩, hperf, h⟩ := Option.bind_eq_some_iff.mp h
      obtain ⟨num_transfers, -, h⟩ := Option.bind_eq_some_iff.mp h
      obtain ⟨s₂, hproc, h⟩ := Option.bind_eq_some_iff.mp h
      refine (perform_log hperf).trans (List.IsPrefix.trans ?_ (ih h))
      split at hproc
      · exact messages_log hback hproc
      · obtain rfl := Option.some.inj hproc
        exact List.prefix_rfl
    · obtain rfl := Option.some.inj h
      exact List.prefix_rfl

theorem freeSlot_log (s : Http σ) : s.freeSlot.2.log = s.log := by
  unfold freeSlot
  split <;> rfl

theorem withHandle_log {i a : Nat} {slot : Slot} (h : s.withHandle env i slot = some (s', a)) :
    s'.log = s.log := by
  unfold withHandle at h
  split at h
  · obtain ⟨rfl, -⟩ := Prod.mk.inj (Option.some.inj h)
    rfl
  · obtain ⟨⟨s₁, out⟩, hset, h⟩ := Option.bind_eq_some_iff.mp h
    have hlog : s₁.log = s.log := curl_log hset
    obtain ⟨rfl, -⟩ := Prod.mk.inj (Option.some.inj h)
    exact hlog

/-- Once there is room nothing is logged before the start. -/
theorem get_log {fuel i a : Nat} (h : s.getActiveSlot env back fuel = some (s', i, a)) :
    ∃ s₁, s.waitForSlot env back fuel = some s₁ ∧ s'.log = s₁.log := by
  obtain ⟨s₁, hwait, h⟩ := Option.bind_eq_some_iff.mp h
  dsimp only at h
  obtain ⟨slot, -, h⟩ := Option.bind_eq_some_iff.mp h
  obtain ⟨⟨s₂, g⟩, hhandle, h⟩ := Option.bind_eq_some_iff.mp h
  have hlog : s₂.log = s₁.log := (withHandle_log hhandle).trans (freeSlot_log s₁)
  obtain ⟨rfl, -⟩ := Prod.mk.inj (Option.some.inj h)
  exact ⟨s₁, hwait, hlog⟩

theorem start_log {i : Nat} (h : s.startActiveSlot env i = some s') : s.log <+: s'.log := by
  obtain ⟨slot, -, h⟩ := Option.bind_eq_some_iff.mp h
  obtain ⟨⟨s₁, out⟩, hadd, h⟩ := Option.bind_eq_some_iff.mp h
  rw [← curl_log hadd]
  dsimp only at h
  split at h
  · obtain ⟨⟨s₂, running⟩, hperf, rfl⟩ := Option.map_eq_some_iff.mp h
    exact (List.prefix_append ..).trans (perform_log hperf)
  · obtain rfl := Option.some.inj h
    exact List.prefix_rfl

theorem request_log {fuel i : Nat} {r : Request}
    (h : s.request env back fuel r = some (s', i)) :
    ∃ s₁, s.waitForSlot env back fuel = some s₁ ∧ s₁.log <+: s'.log := by
  obtain ⟨⟨s₁, j, a⟩, hget, h⟩ := Option.bind_eq_some_iff.mp h
  obtain ⟨⟨s₂, out⟩, hset, h⟩ := Option.bind_eq_some_iff.mp h
  obtain ⟨s₃, hstart, h⟩ := Option.bind_eq_some_iff.mp h
  obtain ⟨rfl, -⟩ := Prod.mk.inj (Option.some.inj h)
  obtain ⟨s₀, hwait, hsame⟩ := get_log hget
  have hset' : s₂.log = s₁.log := curl_log hset
  have hlog := start_log hstart
  exact ⟨s₀, hwait, hsame ▸ hset' ▸ hlog⟩

theorem tryFills_log (hback : Grows back) {fuel k : Nat} {filled : Bool}
    (h : s.tryFills env back fuel k = some (s', filled)) : s.log <+: s'.log := by
  induction fuel generalizing s k with
  | zero => simp [tryFills] at h
  | succ fuel ih =>
    rw [tryFills] at h
    split at h
    · obtain ⟨rfl, -⟩ := Prod.mk.inj (Option.some.inj h)
      exact List.prefix_rfl
    · obtain ⟨⟨s₁, value⟩, hrun, h⟩ := Option.bind_eq_some_iff.mp h
      have hlog := hback _ _ _ _ hrun
      dsimp only at h
      split at h
      · obtain ⟨rfl, -⟩ := Prod.mk.inj (Option.some.inj h)
        exact hlog
      · exact hlog.trans (ih h)

theorem fillLoop_log (hback : Grows back) {fuel : Nat} (h : s.fillLoop env back fuel = some s') :
    s.log <+: s'.log := by
  induction fuel generalizing s with
  | zero => simp [fillLoop] at h
  | succ fuel ih =>
    rw [fillLoop] at h
    split at h
    · obtain ⟨⟨s₁, filled⟩, htry, h⟩ := Option.bind_eq_some_iff.mp h
      have hlog := tryFills_log hback htry
      dsimp only at h
      split at h
      · exact hlog.trans (ih h)
      · obtain rfl := Option.some.inj h
        exact hlog
    · obtain rfl := Option.some.inj h
      exact List.prefix_rfl

theorem fill_log (hback : Grows back) {fuel : Nat}
    (h : s.fillActiveSlots env back fuel = some s') : s.log <+: s'.log := by
  obtain ⟨s₁, hfill, h⟩ := Option.bind_eq_some_iff.mp h
  have hlog := fillLoop_log hback hfill
  dsimp only at h
  split at h
  · obtain rfl := Option.some.inj h
    exact hlog
  · obtain rfl := Option.some.inj h
    exact hlog

theorem step_log (hback : Grows back) {fuel : Nat}
    (h : s.stepActiveSlots env back fuel = some s') : s.log <+: s'.log := by
  obtain ⟨⟨s₁, running⟩, hperf, h⟩ := Option.bind_eq_some_iff.mp h
  obtain ⟨num_transfers, -, h⟩ := Option.bind_eq_some_iff.mp h
  have hlog := perform_log hperf
  split at h
  · obtain ⟨s₂, hproc, h⟩ := Option.bind_eq_some_iff.mp h
    exact (hlog.trans (messages_log hback hproc)).trans (fill_log hback h)
  · obtain rfl := Option.some.inj h
    exact hlog

theorem runLoop_log (hback : Grows back) {flag fuel : Nat}
    (h : s.runLoop env back flag fuel = some s') : s.log <+: s'.log := by
  induction fuel generalizing s with
  | zero => simp [runLoop] at h
  | succ fuel ih =>
    rw [runLoop] at h
    split at h
    · obtain rfl := Option.some.inj h
      exact List.prefix_rfl
    · obtain ⟨s₁, hstep, h⟩ := Option.bind_eq_some_iff.mp h
      exact (step_log hback hstep).trans (ih h)

theorem run_log (hback : Grows back) {fuel i : Nat}
    (h : s.runActiveSlot env back fuel i = some s') : s.log <+: s'.log := by
  obtain ⟨s₁, hloop, h⟩ := Option.bind_eq_some_iff.mp h
  obtain rfl := Option.some.inj h
  exact (List.prefix_append ..).trans (runLoop_log hback hloop)

/-- A release is logged. -/
theorem release_log (hback : Grows back) {fuel i : Nat}
    (h : s.releaseActiveSlot env back fuel i = some s') :
    s.log ++ [.released i] <+: s'.log := by
  obtain ⟨slot, -, h⟩ := Option.bind_eq_some_iff.mp h
  dsimp only at h
  split at h
  · obtain ⟨⟨s₁, out⟩, hremove, h⟩ := Option.bind_eq_some_iff.mp h
    have hsame : s₁.log = s.log ++ [HttpEvent.released i] := curl_log hremove
    rw [← hsame]
    dsimp only at h
    split at h
    · have hlog := fill_log hback h
      exact hlog
    · exact fill_log hback h
  · exact fill_log hback h

theorem release_request_log (hback : Grows back) {fuel i : Nat}
    (h : s.releaseHttpObjectRequest env back fuel i = some s') :
    s.log ++ [.released i] <+: s'.log := by
  have hlog := release_log hback h
  exact hlog

theorem finishAll_log (hback : Grows back) {fuel : Nat}
    (h : s.finishAllActiveSlots env back fuel = some s') : s.log <+: s'.log := by
  induction fuel generalizing s with
  | zero => simp [finishAllActiveSlots] at h
  | succ fuel ih =>
    rw [finishAllActiveSlots] at h
    split at h
    · obtain ⟨s₁, hrun, h⟩ := Option.bind_eq_some_iff.mp h
      exact (run_log hback hrun).trans (ih h)
    · obtain rfl := Option.some.inj h
      exact List.prefix_rfl

theorem doCall_log (hback : Grows back) {fuel r : Nat} {c : HttpCall}
    (h : s.doCall env back fuel c = some (s', r)) : s.log <+: s'.log := by
  cases c with
  | request req =>
    obtain ⟨s₁, hwait, hlog⟩ := request_log h
    exact (wait_log hback hwait).trans hlog
  | release i =>
    obtain ⟨s₁, hrelease, he⟩ := Option.map_eq_some_iff.mp h
    obtain ⟨rfl, -⟩ := Prod.mk.inj he
    exact (List.prefix_append ..).trans (release_request_log hback hrelease)
  | run i =>
    obtain ⟨s₁, hrun, he⟩ := Option.map_eq_some_iff.mp h
    obtain ⟨rfl, -⟩ := Prod.mk.inj he
    exact run_log hback hrun
  | step =>
    obtain ⟨s₁, hstep, he⟩ := Option.map_eq_some_iff.mp h
    obtain ⟨rfl, -⟩ := Prod.mk.inj he
    exact step_log hback hstep
  | fill =>
    obtain ⟨s₁, hfill, he⟩ := Option.map_eq_some_iff.mp h
    obtain ⟨rfl, -⟩ := Prod.mk.inj he
    exact fill_log hback hfill
  | finishAll =>
    obtain ⟨s₁, hfinish, he⟩ := Option.map_eq_some_iff.mp h
    obtain ⟨rfl, -⟩ := Prod.mk.inj he
    exact finishAll_log hback hfinish
  | addFill f =>
    obtain ⟨rfl, -⟩ := Prod.mk.inj (Option.some.inj h)
    exact List.prefix_rfl

end Http

/-- By induction on the fuel: a callback runs with less of it. -/
theorem exec_grows (env : Env σ) (fuel : Nat) : Grows (exec env fuel) := by
  induction fuel with
  | zero =>
    intro p s s' value h
    simp [exec] at h
  | succ fuel ih =>
    intro p s s' value h
    cases p with
    | ret v =>
      obtain ⟨rfl, -⟩ := Prod.mk.inj (Option.some.inj h)
      exact List.prefix_rfl
    | look next => exact ih (next s) s s' value h
    | set client next => exact ih next { s with client := client } s' value h
    | call c next =>
      obtain ⟨⟨s₁, r⟩, hcall, h⟩ := Option.bind_eq_some_iff.mp h
      exact (Http.doCall_log ih hcall).trans (ih (next r) s₁ s' value h)

end Git
