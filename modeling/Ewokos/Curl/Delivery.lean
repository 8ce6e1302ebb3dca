import Ewokos.Curl.Calls

/-!
# curl: one body, delivered once

* `passesLeft` — how many more passes the loop can make; every `continue` lowers it.
* `Ending` — how the last pass left the body; `performLoop_spec` — the loop ends within its bound,
  hands nothing over before its last pass, and ends there as `Ending` says.

Main result: `perform_delivers_once`.
-/

set_option autoImplicit false

namespace Curl

/-- A bound on the passes to come, this one included. -/
def passesLeft (t : Transfer) : Nat :=
  (max 0 (t.handle.maxredirs - t.redirects)).toNat + (1 - t.retries) + 1

theorem passesLeft_pos (t : Transfer) : 0 < passesLeft t := by
  unfold passesLeft
  omega

/-- A `continue` uses up the retry or one redirect. -/
theorem passesLeft_again {x : Hop} {t t' : Transfer} {events : List Event}
    (h : Fetched x t (.again t') events) :
    passesLeft t' < passesLeft t ∧ t'.handle.config = t.handle.config := by
  cases h with
  | retry first once redirects url mild =>
    obtain ⟨-, -, -, hmax, -⟩ := options_of_config mild.2
    refine ⟨?_, mild.2⟩
    unfold passesLeft
    rw [hmax, redirects, first, once]
    omega
  | redirect room redirects retries url mild =>
    obtain ⟨-, -, -, hmax, -⟩ := options_of_config mild.2
    refine ⟨?_, mild.2⟩
    unfold passesLeft
    rw [hmax, redirects, retries]
    omega

/-- How the last pass left the body: nothing handed over, and success only without a body; or the
whole body of the response, as the last call. -/
def Ending (h : Handle) (x : Hop) (code : Code) (events : List Event) : Prop :=
  writes events = [] ∧ (code = .ok → h.nobody = true) ∨
    ∃ r l before, x.response = some r ∧ r.failed = false ∧ ¬r.Followed h ∧
      ¬(h.failonerror = true ∧ r.status ≥ 400) ∧ h.nobody = false ∧ bodyOf r.chunks = some l ∧
      events = before ++ [.write l] ∧ writes before = [] ∧
      (code = .ok → x.writeCallback l = l.length)

theorem Ending.congr {h h' : Handle} (hc : h'.config = h.config) {x : Hop} {code : Code}
    {events : List Event} (he : Ending h' x code events) : Ending h x code events := by
  obtain ⟨hn, hf, hl, -⟩ := options_of_config hc
  unfold Ending Response.Followed at *
  rw [hn, hf, hl] at he
  exact he

/-- What a pass has handed over when it ends, and that a `continue` brings the end closer. -/
def PassEnd (x : Hop) (t : Transfer) : Pass → List Event → Prop
  | .again t', events => writes events = [] ∧ passesLeft t' < passesLeft t ∧
      t'.handle.config = t.handle.config
  | .stop code _, events => Ending t.handle x code events

theorem fetched_end {x : Hop} {t : Transfer} (hw : t.handle.writeCallback = true) {next : Pass}
    {events : List Event} (h : Fetched x t next events) : PassEnd x t next events := by
  cases h with
  | failed error mild =>
    exact Or.inl ⟨writes_quiet mild.1, fun h => absurd h error⟩
  | retry first once redirects url mild =>
    exact ⟨writes_quiet mild.1,
      passesLeft_again (Fetched.retry (x := x) first once redirects url mild)⟩
  | redirect room redirects retries url mild =>
    exact ⟨writes_quiet mild.1,
      passesLeft_again (Fetched.redirect (x := x) room redirects retries url mild)⟩
  | nobody flag mild =>
    exact Or.inl ⟨writes_quiet mild.1, fun _ => flag⟩
  | @delivered r l code t' events response received final status flag body accepted mild =>
    have hcall : t.handle.deliverCall l = .write l := by simp [Handle.deliverCall, hw]
    rw [hcall]
    refine Or.inr ⟨r, l, events, response, received, final, status, flag, body, rfl,
      writes_quiet mild.1, ?_⟩
    intro hok
    obtain ⟨-, ha⟩ | ha := accepted
    · exact ha
    · exact absurd (hok ▸ ha) (by simp)

/-- One pass: at most one request, nothing handed over before a `continue`. -/
theorem pass_spec {x : Hop} {t : Transfer} {originalUrl : CString.CStr}
    (hw : t.handle.writeCallback = true) {next : Pass} {events : List Event}
    (h : PassCase x t originalUrl next events) :
    (requests events).length ≤ 1 ∧ PassEnd x t next events := by
  cases h with
  | unsent error mild =>
    exact ⟨by simp [requests_quiet mild.1],
      Or.inl ⟨writes_quiet mild.1, fun h => absurd h error⟩⟩
  | @sent r next events events' quiet url headers fetched =>
    have hr := fetched_requests fetched
    have hend := fetched_end hw fetched
    refine ⟨by simp [requests_quiet quiet, hr], ?_⟩
    cases next with
    | again t' =>
      obtain ⟨hno, hless⟩ := hend
      exact ⟨by simp [writes_quiet quiet, hno], hless⟩
    | stop code t' =>
      obtain ⟨h₁, h₂⟩ | ⟨r', l, before, h₁, h₂, h₃, h₄, h₅, h₆, rfl, h₈, h₉⟩ := hend
      · exact Or.inl ⟨by simp [writes_quiet quiet, h₁], h₂⟩
      · exact Or.inr ⟨r', l, events ++ .request r :: before, h₁, h₂, h₃, h₄, h₅, h₆, by simp,
          by simp [writes_quiet quiet, h₈], h₉⟩

/-! ## The loop -/

/-- The loop ends within its bound; every pass sends at most one request, and only the last one
hands a body over. -/
theorem performLoop_spec (hops : Nat → Hop) (originalUrl : CString.CStr) {fuel i : Nat}
    {t : Transfer} (hw : t.handle.writeCallback = true) (hfuel : passesLeft t ≤ fuel) :
    ∃ code h early last, performLoop hops originalUrl fuel i t =
        some (code, h, early ++ [last]) ∧
      early.length < passesLeft t ∧
      (requests (early ++ [last]).flatten).length ≤ early.length + 1 ∧
      writes early.flatten = [] ∧
      Ending t.handle (hops (i + early.length)) code last := by
  induction fuel generalizing i t with
  | zero =>
    have := passesLeft_pos t
    omega
  | succ fuel ih =>
    obtain ⟨hreq, hnext⟩ := pass_spec hw (pass_cases (hops i) t originalUrl)
    unfold performLoop
    generalize pass (hops i) t originalUrl = out at *
    obtain ⟨next, events⟩ := out
    replace hreq : (requests events).length ≤ 1 := hreq
    cases next with
    | stop code t' =>
      exact ⟨code, t'.handle, [], events, rfl, passesLeft_pos t, by simpa using hreq, rfl,
        hnext⟩
    | again t' =>
      obtain ⟨hno, hless, hc⟩ := hnext
      obtain ⟨-, -, -, -, hwc, -⟩ := options_of_config hc
      obtain ⟨code, h, early, last, hl, hlen, hr, hq, he⟩ :=
        ih (i := i + 1) (t := t') (hwc.trans hw) (by omega)
      refine ⟨code, h, events :: early, last, by simp [hl], ?_, ?_, ?_, ?_⟩
      · simp only [List.length_cons]
        omega
      · simp only [List.cons_append, List.flatten_cons, requests_append, List.length_append,
          List.length_cons]
        omega
      · simp [hno, hq]
      · rw [List.length_cons, show i + (early.length + 1) = i + 1 + early.length by omega]
        exact he.congr hc

/-- The loop never runs out of passes. -/
theorem performLoop_total (hops : Nat → Hop) (originalUrl : CString.CStr) {fuel i : Nat}
    {t : Transfer} (hfuel : passesLeft t ≤ fuel) :
    (performLoop hops originalUrl fuel i t).isSome := by
  induction fuel generalizing i t with
  | zero =>
    have := passesLeft_pos t
    omega
  | succ fuel ih =>
    have hcase := pass_cases (hops i) t originalUrl
    unfold performLoop
    generalize pass (hops i) t originalUrl = out at *
    obtain ⟨next, events⟩ := out
    cases next with
    | stop code t' => rfl
    | again t' =>
      cases hcase with
      | sent quiet url headers fetched =>
        obtain ⟨hless, -⟩ := passesLeft_again fetched
        simpa using ih (i := i + 1) (t := t') (by omega)

/-! ## The transfer -/

/-- A first pass has the bound of `curl_perform`. -/
theorem passesLeft_first {t : Transfer} (hd : t.redirects = 0) (hr : t.retries = 0) :
    passesLeft t = passBound t.handle := by
  unfold passesLeft passBound
  rw [hd, hr]
  omega

/-- `curl_perform` returns. -/
theorem perform_total (w : World) (h : Handle) : ∃ o, perform w h = some o := by
  obtain ⟨o, ho, -⟩ | ⟨url, t, before, -, -, -, -, hd, hr, hp⟩ := perform_cases w h
  · exact ⟨o, ho⟩
  · obtain ⟨out, hout⟩ := Option.isSome_iff_exists.mp
      (performLoop_total w.hops url (i := 0) (Nat.le_of_eq (passesLeft_first hd hr)))
    rw [hout] at hp
    exact ⟨_, hp⟩

/-- **One body, delivered once.**  A transfer with a write callback ends after at most
`max(0, maxredirs) + 2` requests.  The callback is called at most once, as the last call of the
transfer, with the whole body of the last response, which is no followed redirect and no status
that fails; success without `nobody` means that it was called and took everything. -/
theorem perform_delivers_once (w : World) (h : Handle) (hw : h.writeCallback = true) :
    ∃ o, perform w h = some o ∧
      (requests o.events).length ≤ (max 0 h.maxredirs).toNat + 2 ∧
      (writes o.events).length ≤ 1 ∧
      (∀ l ∈ writes o.events, h.nobody = false ∧ o.events.getLast? = some (.write l) ∧
        ∃ r, (w.hops (o.passes.length - 1)).response = some r ∧ r.failed = false ∧
          ¬r.Followed h ∧ ¬(h.failonerror = true ∧ r.status ≥ 400) ∧ bodyOf r.chunks = some l) ∧
      (o.code = .ok → h.nobody = false →
        ∃ r l, (w.hops (o.passes.length - 1)).response = some r ∧ bodyOf r.chunks = some l ∧
          writes o.events = [l] ∧
          (w.hops (o.passes.length - 1)).writeCallback l = l.length) := by
  obtain ⟨o, ho, hcode, hq, -⟩ | ⟨url, t, before, -, -, ⟨hq, hc⟩, -, hd, hr, hp⟩ := perform_cases w h
  · exact ⟨o, ho, by simp [requests_quiet hq], by simp [writes_quiet hq], by simp [writes_quiet hq],
      fun h => absurd h hcode⟩
  · obtain ⟨hn, -, -, hmax, hwc, -⟩ := options_of_config hc
    have hbound : passesLeft t = passBound t.handle := passesLeft_first hd hr
    obtain ⟨code, h', early, last, hl, hlen, hreq, hno, hend⟩ :=
      performLoop_spec w.hops url (i := 0) (hwc.trans hw) (Nat.le_of_eq hbound)
    rw [hl] at hp
    refine ⟨_, hp, ?_⟩
    have hreqs : requests (before ++ (early ++ [last]).flatten) =
        requests (early ++ [last]).flatten := by simp [requests_quiet hq]
    have hwrites : writes (before ++ (early ++ [last]).flatten) = writes last := by
      simp [writes_quiet hq, hno]
    have hlast : (early ++ [last]).length - 1 = 0 + early.length := by simp
    simp only [Outcome.events, hreqs, hwrites, hlast]
    have hcount : (requests (early ++ [last]).flatten).length ≤ (max 0 h.maxredirs).toNat + 2 := by
      unfold passBound at hbound
      rw [hmax] at hbound
      omega
    refine ⟨hcount, ?_⟩
    obtain ⟨h₁, h₂⟩ | ⟨r, l, first, h₁, h₂, h₃, h₄, h₅, h₆, rfl, h₈, h₉⟩ := hend.congr hc
    · rw [h₁]
      exact ⟨by simp, by simp, fun hcode hnb => absurd (h₂ hcode) (by simp [hnb])⟩
    · have hl' : writes (first ++ [Event.write l]) = [l] := by simp [h₈]
      rw [hl']
      refine ⟨by simp, ?_, fun hcode _ => ⟨r, l, h₁, h₆, rfl, h₉ hcode⟩⟩
      intro l' hm
      obtain rfl := List.mem_singleton.mp hm
      refine ⟨h₅, ?_, r, h₁, h₂, h₃, h₄, h₆⟩
      rw [List.flatten_append, List.flatten_singleton, ← List.append_assoc, ← List.append_assoc]
      exact List.getLast?_concat

/-- A plain `GET`, answered at once. -/
def getHandle : Handle :=
  { easyInit with url := some (CString.str "http://a/"), writeCallback := true }

/-- A server that sends a body of two chunks, and an application that takes it. -/
def twoChunks : World where
  reads := []
  allocBody _ := true
  allocUrl := true
  hops _ := {
    allocRequest := true
    allocAuth := true
    allocEffectiveUrl := true
    allocHeader _ := true
    allocContentType _ := true
    allocNextUrl := true
    allocBody _ := true
    headerCallback _ l := l.length
    writeCallback l := l.length
    response := some {
      failed := false
      errorCode := 0
      errorMsg := none
      status := 200
      headers := []
      location := none
      chunks := [.data [1, 2], .data [3]]
      readErrorMsg := none } }

/-- The two chunks arrive as one body. -/
theorem perform_delivers_once_get : getHandle.writeCallback = true ∧
    ∃ o, perform twoChunks getHandle = some o ∧ (requests o.events).length ≤ 22 ∧
      (writes o.events).length ≤ 1 := by
  obtain ⟨o, ho, hreq, hwrites, -⟩ := perform_delivers_once twoChunks getHandle rfl
  exact ⟨rfl, o, ho, hreq, hwrites⟩

end Curl
