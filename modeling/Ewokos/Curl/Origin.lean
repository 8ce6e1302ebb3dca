import Ewokos.Curl.Delivery

/-!
# curl: credentials stay with the original origin

* `Foreign` — a URL of another origin than the handle's.
* `addRequestHeaders_foreign` — a request to such a URL gets neither an `Authorization` nor a
  `Cookie` header, and does not depend on the credentials of the handle.
* `withCreds` lemmas — every other part of a transfer commutes with a change of the credentials.

Main result: `credentials_stay`.
-/

set_option autoImplicit false

namespace Curl

open CString

/-- The members basic authentication is made of. -/
structure Creds where
  username : Option CStr
  password : Option CStr
  userpwd : Option CStr

/-- The handle with other credentials. -/
def Handle.withCreds (h : Handle) (c : Creds) : Handle :=
  { h with username := c.username, password := c.password, userpwd := c.userpwd }

/-- The URL has another scheme or authority than the handle's. -/
def Foreign (h : Handle) (url : CStr) : Prop := ¬SameOrigin url (h.url.getD [])

instance (h : Handle) (url : CStr) : Decidable (Foreign h url) :=
  inferInstanceAs (Decidable (¬_))

/-- The header field carries credentials. -/
def Credential (field : CStr × CStr) : Prop :=
  strcasecmp field.1 (str "Authorization") = true ∨ strcasecmp field.1 (str "Cookie") = true

/-! ## Headers of one request -/

/-- A field the loop over the custom headers keeps is none that it filters. -/
theorem headerNameIs_of_key {item name : CStr} {n : Nat} (hn : strchr item (chr ':') = some n)
    (h : strcasecmp (item.take n) name = true) : headerNameIs item (n + 1) name = true := by
  obtain ⟨hlt, hc⟩ := strchr_some hn
  rw [strcasecmp_iff] at h
  have hlen : name.length = n := by
    have := congrArg List.length h
    rw [length_lower, length_lower, List.length_take] at this
    omega
  subst hlen
  simp only [headerNameIs, Bool.and_eq_true, decide_eq_true_eq, beq_iff_eq, strncasecmp_iff]
  exact ⟨⟨by omega, hc⟩, by rw [h, List.take_length]⟩

theorem customHeaders_foreign (h : Handle) (items : List CStr) :
    ∀ headers, (customHeaders h false items).1 = some headers → ∀ f ∈ headers, ¬Credential f := by
  induction items with
  | nil => simp [customHeaders]
  | cons item rest ih =>
    unfold customHeaders
    split
    · exact ih
    · rename_i n hn
      dsimp only
      split
      · exact ih
      · split
        · exact ih
        · rename_i hfilter
          split
          · simp
          · intro headers hh
            simp only [Option.map_eq_some_iff] at hh
            obtain ⟨headers', hh', rfl⟩ := hh
            intro f hf
            obtain rfl | hf := List.mem_cons.mp hf
            · intro hc
              apply hfilter
              simp only [Bool.not_false, Bool.true_and, Bool.or_eq_true]
              exact hc.imp (headerNameIs_of_key hn) (headerNameIs_of_key hn)
            · exact ih headers' hh' f hf

/-- What the library adds for another origin is no credential, and does not look at one. -/
theorem ownHeaders_foreign (h : Handle) (alloc : Bool) :
    (∀ f ∈ ownHeaders h false alloc, ¬Credential f) ∧
      ∀ c, ownHeaders (h.withCreds c) false alloc = ownHeaders h false alloc := by
  refine ⟨?_, fun c => rfl⟩
  intro f hf
  have hname : f.1 = str "User-Agent" ∨ f.1 = str "Range" := by
    simp only [ownHeaders, Bool.false_and, Bool.false_eq_true, if_false, List.append_nil,
      List.mem_append] at hf
    obtain hf | hf := hf
    · cases hu : h.userAgent with
      | none => simp [hu] at hf
      | some v =>
        simp only [hu] at hf
        split at hf
        · simp at hf
        · exact Or.inl (by rw [List.mem_singleton.mp hf])
    · cases hr : h.range with
      | none => simp [hr] at hf
      | some v =>
        simp only [hr] at hf
        split at hf
        · simp at hf
        · exact Or.inr (by rw [List.mem_singleton.mp hf])
  unfold Credential
  obtain hname | hname := hname <;> rw [hname] <;> decide

theorem customHeaders_withCreds (h : Handle) (c : Creds) (same : Bool) (items : List CStr) :
    customHeaders (h.withCreds c) same items = customHeaders h same items := by
  induction items with
  | nil => rfl
  | cons item rest ih =>
    simp only [customHeaders, ih]
    rfl

/-! ## The other parts of a transfer -/

section WithCreds

variable (c : Creds)

theorem setError_withCreds (h : Handle) (code : Code) (message : Option CStr) :
    (h.withCreds c).setError code message = (h.setError code message).withCreds c := by
  cases message <;> rfl

theorem readLoop_withCreds (h : Handle) (alloc : Nat → Bool) (reads : List (List UInt8)) (i : Nat)
    (body : Buffer) :
    readLoop (h.withCreds c) alloc reads i body =
      let (code, h', body, events) := readLoop h alloc reads i body
      (code, h'.withCreds c, body, events) := by
  induction reads generalizing i body with
  | nil => rfl
  | cons got rest ih =>
    cases got with
    | nil => rfl
    | cons b bs =>
      simp only [readLoop, ih]
      have hw : wanted (h.withCreds c) body.size = wanted h body.size := rfl
      rw [hw]
      split
      · rfl
      · split
        · rfl
        · rfl

theorem collectRequestBody_withCreds (h : Handle) (w : World) :
    collectRequestBody (h.withCreds c) w =
      let (code, h', body, events) := collectRequestBody h w
      (code, h'.withCreds c, body, events) := by
  have hp : (h.withCreds c).postFields = h.postFields := rfl
  have hs : (h.withCreds c).postSize = h.postSize := rfl
  have hr : (h.withCreds c).readCallback = h.readCallback := rfl
  simp only [collectRequestBody, hp, hs, hr]
  cases h.postFields with
  | some fields =>
    dsimp only
    split <;> rfl
  | none =>
    dsimp only
    split
    · exact readLoop_withCreds c h _ _ _ _
    · rfl

theorem processHeader_withCreds (x : Hop) (i : Nat) (key value : CStr) (h : Handle) :
    processHeader x i key value (h.withCreds c) =
      let (accepted, h', events) := processHeader x i key value h
      (accepted, h'.withCreds c, events) := by
  have hd : deliverHeader (h.withCreds c) x i (key ++ str ": " ++ value ++ [13, 10]) =
      deliverHeader h x i (key ++ str ": " ++ value ++ [13, 10]) := rfl
  simp only [processHeader, hd]
  split
  · split
    · split
      · split <;> rfl
      · split <;> rfl
    · rfl
  · rfl

theorem headerLoop_withCreds (x : Hop) (items : List (Option CStr × Option CStr)) (i : Nat)
    (h : Handle) :
    headerLoop x items i (h.withCreds c) =
      let (accepted, h', events) := headerLoop x items i h
      (accepted, h'.withCreds c, events) := by
  induction items generalizing i h with
  | nil => rfl
  | cons item rest ih =>
    obtain ⟨key, value⟩ := item
    match key, value with
    | none, _ => exact ih (i + 1) h
    | some _, none => exact ih (i + 1) h
    | some key, some value =>
      simp only [headerLoop, processHeader_withCreds]
      split
      · rw [ih]
      · rfl

theorem processResponseHeaders_withCreds (h : Handle) (x : Hop) (r : Response) :
    processResponseHeaders (h.withCreds c) x r =
      let (accepted, h', events) := processResponseHeaders h x r
      (accepted, h'.withCreds c, events) := by
  have hd (h : Handle) (i : Nat) (data : CStr) :
      deliverHeader (h.withCreds c) x i data = deliverHeader h x i data := rfl
  simp only [processResponseHeaders, hd, headerLoop_withCreds]
  split
  · split <;> rfl
  · rfl

theorem bodyLoop_withCreds (h : Handle) (x : Hop) (r : Response) (chunks : List Chunk) (i : Nat)
    (body : Buffer) :
    bodyLoop (h.withCreds c) x r chunks i body =
      let (code, h', body, events) := bodyLoop h x r chunks i body
      (code, h'.withCreds c, body, events) := by
  induction chunks generalizing i body with
  | nil => rfl
  | cons chunk rest ih =>
    match chunk with
    | .failed => simp only [bodyLoop, setError_withCreds]
    | .data [] => rfl
    | .data (b :: bs) =>
      simp only [bodyLoop, ih]
      split <;> rfl

theorem deliverBody_withCreds (h : Handle) (x : Hop) (r : Response) (body : Buffer) :
    deliverBody (h.withCreds c) x r body =
      let (code, h', body, events) := deliverBody h x r body
      (code, h'.withCreds c, body, events) := by
  have hn : (h.withCreds c).nobody = h.nobody := rfl
  simp only [deliverBody, hn, bodyLoop_withCreds]
  split
  · rfl
  · generalize bodyLoop h x r r.chunks 0 { body with size := 0 } = out
    obtain ⟨code, h', body', events⟩ := out
    cases code with
    | some code => rfl
    | none =>
      dsimp only
      split <;> rfl

/-- The locals of a transfer of the handle with other credentials. -/
def Transfer.withCreds (t : Transfer) (c : Creds) : Transfer :=
  { t with handle := t.handle.withCreds c }

def Pass.withCreds (c : Creds) : Pass → Pass
  | .again t => .again (t.withCreds c)
  | .stop code t => .stop code (t.withCreds c)

theorem retryOrStop_withCreds (t : Transfer) (code : Code) :
    retryOrStop (t.withCreds c) code = (retryOrStop t code).withCreds c := by
  have hc : canRetry (t.withCreds c).method (t.withCreds c).retries code =
      canRetry t.method t.retries code := rfl
  simp only [retryOrStop, hc]
  split <;> rfl

theorem followRedirect_withCreds (x : Hop) (t : Transfer) (status : Int) (location : CStr) :
    followRedirect x (t.withCreds c) status location =
      (followRedirect x t status location).withCreds c := by
  have hd : (t.withCreds c).redirects = t.redirects := rfl
  have hm : (t.withCreds c).handle.maxredirs = t.handle.maxredirs := rfl
  have hu : (t.withCreds c).currentUrl = t.currentUrl := rfl
  have hp : (t.withCreds c).handle.redirProtocols = t.handle.redirProtocols := rfl
  have hr : redirectMethod (t.withCreds c) status = (redirectMethod t status).withCreds c := by
    have hpost : (t.withCreds c).handle.postredir = t.handle.postredir := rfl
    simp only [redirectMethod, hpost]
    split <;> rfl
  simp only [followRedirect, hd, hm, hu, hp, hr]
  split
  · rfl
  · split
    · rfl
    · split <;> rfl

theorem receive_withCreds (x : Hop) (t : Transfer) (r : Response) :
    receive x (t.withCreds c) r = ((receive x t r).1.withCreds c, (receive x t r).2) := by
  unfold receive
  split
  · exact congrArg (·, []) (retryOrStop_withCreds c
      { t with handle := (mapResponseError t.handle r).2 } (mapResponseError t.handle r).1)
  · have hp := processResponseHeaders_withCreds c
      { t.handle with responseCode := r.status, effectiveUrl := some t.currentUrl } x r
    dsimp only
    split
    · rfl
    · have he : ({ (t.withCreds c).handle with
          responseCode := r.status, effectiveUrl := some (t.withCreds c).currentUrl } : Handle) =
          Handle.withCreds { t.handle with
            responseCode := r.status, effectiveUrl := some t.currentUrl } c := rfl
      rw [he, hp]
      generalize processResponseHeaders
        { t.handle with responseCode := r.status, effectiveUrl := some t.currentUrl } x r = out
      obtain ⟨accepted, h, events⟩ := out
      have hf : (h.withCreds c).followlocation = h.followlocation := rfl
      have hs : (h.withCreds c).failonerror = h.failonerror := rfl
      have hb : (t.withCreds c).responseBody = t.responseBody := rfl
      simp only [hf, hs, hb, deliverBody_withCreds]
      split
      · rfl
      · split
        · exact congrArg (·, events) (followRedirect_withCreds c x { t with handle := h } _ _)
        · split
          · exact congrArg (·, events) (retryOrStop_withCreds c
              { t with
                handle := h.setError .httpReturnedError
                  (some (str "HTTP server returned an error")) } _)
          · exact congrArg (·, events ++ _) (retryOrStop_withCreds c
              { t with
                handle := (deliverBody h x r t.responseBody).2.1
                responseBody := (deliverBody h x r t.responseBody).2.2.1 } _)

theorem fetched_withCreds (x : Hop) (t : Transfer) :
    fetched x (t.withCreds c) = ((fetched x t).1.withCreds c, (fetched x t).2) := by
  unfold fetched
  split
  · rfl
  · exact receive_withCreds c x t _

end WithCreds

/-! ## Passes -/

/-- A call as seen from other origins: the headers of a request to `origin` are not. -/
def Event.seenAbroad (origin : CStr) : Event → Event
  | .request r => if SameOrigin r.url origin then .request { r with headers := [] } else .request r
  | e => e

theorem addRequestHeaders_foreign (h : Handle) {url origin : CStr} (alloc : Bool)
    (hu : Schemed url) (ho : Schemed origin) (hf : ¬SameOrigin url origin) :
    (∀ headers, (addRequestHeaders h url origin alloc).1 = some headers →
        ∀ f ∈ headers, ¬Credential f) ∧
      ∀ c : Creds, addRequestHeaders (h.withCreds c) url origin alloc =
        addRequestHeaders h url origin alloc := by
  have hs : curlSameOrigin url origin = false := by
    rw [Bool.eq_false_iff]
    exact fun hs => hf (curlSameOrigin_sound hu ho hs)
  obtain ⟨hown, hownc⟩ := ownHeaders_foreign h alloc
  constructor
  · intro headers hh f hm
    simp only [addRequestHeaders, hs, Option.map_eq_some_iff] at hh
    obtain ⟨custom, hc, rfl⟩ := hh
    obtain hm | hm := List.mem_append.mp hm
    · exact customHeaders_foreign h h.headers custom hc f hm
    · exact hown f hm
  · intro c
    simp only [addRequestHeaders, hs, customHeaders_withCreds, hownc]
    rfl

/-- Whether a request can be built, and the debug calls, do not depend on the credentials. -/
theorem addRequestHeaders_withCreds (h : Handle) (c : Creds) (url origin : CStr) (alloc : Bool) :
    ((addRequestHeaders (h.withCreds c) url origin alloc).1.isSome =
        (addRequestHeaders h url origin alloc).1.isSome) ∧
      (addRequestHeaders (h.withCreds c) url origin alloc).2 =
        (addRequestHeaders h url origin alloc).2 := by
  have hh : (h.withCreds c).headers = h.headers := rfl
  simp only [addRequestHeaders, customHeaders_withCreds, hh, Option.isSome_map, and_self]

/-- A pass of the handle with other credentials goes the same way, and looks the same from other
origins. -/
theorem pass_withCreds (x : Hop) {t : Transfer} {origin : CStr} (hu : Schemed t.currentUrl)
    (ho : Schemed origin) (c : Creds) :
    (pass x (t.withCreds c) origin).1 = (pass x t origin).1.withCreds c ∧
      (pass x (t.withCreds c) origin).2.map (Event.seenAbroad origin) =
        (pass x t origin).2.map (Event.seenAbroad origin) := by
  unfold pass
  split
  · exact ⟨rfl, rfl⟩
  · obtain ⟨hsome, hev⟩ := addRequestHeaders_withCreds t.handle c t.currentUrl origin x.allocAuth
    have hforeign (hf : ¬SameOrigin t.currentUrl origin) :=
      (addRequestHeaders_foreign t.handle x.allocAuth hu ho hf).2 c
    have hcall : addRequestHeaders (t.withCreds c).handle (t.withCreds c).currentUrl origin
        x.allocAuth = addRequestHeaders (t.handle.withCreds c) t.currentUrl origin x.allocAuth := rfl
    rw [hcall, fetched_withCreds]
    generalize addRequestHeaders (t.handle.withCreds c) t.currentUrl origin x.allocAuth = a at *
    generalize addRequestHeaders t.handle t.currentUrl origin x.allocAuth = b at *
    obtain ⟨headers, events⟩ := a
    obtain ⟨headers', events'⟩ := b
    obtain rfl : events = events' := hev
    cases headers with
    | none =>
      cases headers' with
      | none => exact ⟨rfl, rfl⟩
      | some headers' => simp at hsome
    | some headers =>
      cases headers' with
      | none => simp at hsome
      | some headers' =>
        refine ⟨rfl, ?_⟩
        simp only [List.map_append, List.map_cons, Event.seenAbroad]
        by_cases hso : SameOrigin t.currentUrl origin
        · have hso' : SameOrigin (t.withCreds c).currentUrl origin := hso
          rw [if_pos hso, if_pos hso']
          rfl
        · have hh : headers = headers' := by simpa using hforeign hso
          rw [hh]
          rfl

/-- A pass sends no credentials abroad, and goes on to a URL with a scheme. -/
theorem pass_foreign (x : Hop) {t : Transfer} {origin : CStr} (hu : Schemed t.currentUrl)
    (ho : Schemed origin) :
    (∀ r ∈ requests (pass x t origin).2, ¬SameOrigin r.url origin →
        ∀ f ∈ r.headers, ¬Credential f) ∧
      ∀ t', (pass x t origin).1 = .again t' → Schemed t'.currentUrl := by
  have hcase := pass_cases x t origin
  generalize pass x t origin = out at *
  obtain ⟨next, events⟩ := out
  cases hcase with
  | unsent _ mild => exact ⟨by simp [requests_quiet mild.1], by simp⟩
  | @sent r next events events' quiet url headers fetched =>
    have hr : requests (events ++ .request r :: events') = [r] := by
      simp [requests_quiet quiet, fetched_requests fetched]
    refine ⟨?_, ?_⟩
    · intro r' hm hf
      replace hm : r' ∈ requests (events ++ .request r :: events') := hm
      rw [hr] at hm
      obtain rfl := List.mem_singleton.mp hm
      rw [url] at hf
      exact (addRequestHeaders_foreign _ _ hu ho hf).1 _ headers
    · rintro t' rfl
      cases fetched with
      | retry _ _ _ hurl _ => rwa [hurl]
      | redirect _ _ _ hurl _ => exact hurl

/-! ## The whole transfer -/

theorem performLoop_foreign (hops : Nat → Hop) {origin : CStr} (ho : Schemed origin) (fuel i : Nat)
    {t : Transfer} (hu : Schemed t.currentUrl) :
    ∀ out, performLoop hops origin fuel i t = some out →
      ∀ r ∈ requests out.2.2.flatten, ¬SameOrigin r.url origin → ∀ f ∈ r.headers, ¬Credential f := by
  induction fuel generalizing i t with
  | zero => simp [performLoop]
  | succ fuel ih =>
    obtain ⟨hclean, hnext⟩ := pass_foreign (hops i) hu ho
    unfold performLoop
    generalize pass (hops i) t origin = p at *
    obtain ⟨next, events⟩ := p
    cases next with
    | stop code t' =>
      rintro out hout
      obtain rfl := Option.some.inj hout
      simpa using hclean
    | again t' =>
      intro out hout
      simp only [Option.map_eq_some_iff] at hout
      obtain ⟨out', hout', rfl⟩ := hout
      intro r hr
      simp only [List.flatten_cons, requests_append, List.mem_append] at hr
      obtain hr | hr := hr
      · exact hclean r hr
      · exact ih (i + 1) (hnext t' rfl) out' hout' r hr

theorem performLoop_withCreds (hops : Nat → Hop) {origin : CStr} (ho : Schemed origin)
    (fuel i : Nat) {t : Transfer} (hu : Schemed t.currentUrl) (c : Creds) :
    (performLoop hops origin fuel i (t.withCreds c)).map
        (fun out => out.2.2.flatten.map (Event.seenAbroad origin)) =
      (performLoop hops origin fuel i t).map
        (fun out => out.2.2.flatten.map (Event.seenAbroad origin)) := by
  induction fuel generalizing i t with
  | zero => rfl
  | succ fuel ih =>
    obtain ⟨hp, hev⟩ := pass_withCreds (hops i) hu ho c
    obtain ⟨-, hnext⟩ := pass_foreign (hops i) hu ho
    unfold performLoop
    generalize pass (hops i) (t.withCreds c) origin = p at *
    generalize pass (hops i) t origin = q at *
    obtain ⟨next, events⟩ := p
    obtain ⟨next', events'⟩ := q
    obtain rfl : next = next'.withCreds c := hp
    replace hev : events.map (Event.seenAbroad origin) = events'.map (Event.seenAbroad origin) := hev
    cases next' with
    | stop code t' => simpa [Pass.withCreds] using hev
    | again t' =>
      have hrest := ih (i + 1) (hnext t' rfl)
      simp only [Pass.withCreds]
      generalize performLoop hops origin fuel (i + 1) (t'.withCreds c) = a at *
      generalize performLoop hops origin fuel (i + 1) t' = b at *
      cases a <;> cases b <;> simp_all

/-- The same for the whole transfer. -/
theorem perform_withCreds (w : World) (h : Handle) (c : Creds) :
    (perform w (h.withCreds c)).map (fun o => o.events.map (Event.seenAbroad (h.url.getD []))) =
      (perform w h).map (fun o => o.events.map (Event.seenAbroad (h.url.getD []))) := by
  have hurl : (h.withCreds c).url = h.url := rfl
  unfold perform
  rw [hurl]
  cases hu : h.url with
  | none => rfl
  | some url =>
    have hr : refused (h.withCreds c) url = refused h url := rfl
    simp only [hr, collectRequestBody_withCreds]
    cases href : refused h url with
    | some e => rfl
    | none =>
      have hs := refused_none href
      generalize collectRequestBody h w = b
      obtain ⟨code, h', body, events⟩ := b
      cases code with
      | ok =>
        dsimp only
        split
        · let t : Transfer := ⟨h', url, 0, 0, firstMethod h', body,
            h'.postFields.isSome || h'.readCallback, .empty⟩
          have hloop := performLoop_withCreds w.hops hs (passBound h') 0 (t := t) hs c
          have ht : (⟨h'.withCreds c, url, 0, 0, firstMethod (h'.withCreds c), body,
              (h'.withCreds c).postFields.isSome || (h'.withCreds c).readCallback, .empty⟩ :
                Transfer) = t.withCreds c := rfl
          have hb : passBound (h'.withCreds c) = passBound h' := rfl
          rw [ht, hb]
          generalize performLoop w.hops url (passBound h') 0 (t.withCreds c) = a at *
          generalize performLoop w.hops url (passBound h') 0 t = b at *
          cases a <;> cases b <;> simp_all [Outcome.events]
        · rfl
      | _ => rfl

/-- Requests abroad are seen in full. -/
theorem requests_seenAbroad (h : Handle) (events : List Event) :
    (requests (events.map (Event.seenAbroad (h.url.getD [])))).filter
        (fun r => Foreign h r.url) = (requests events).filter (fun r => Foreign h r.url) := by
  induction events with
  | nil => rfl
  | cons e events ih =>
    cases e with
    | request r =>
      simp only [List.map_cons, Event.seenAbroad]
      split
      · rename_i hs
        have hf : ¬Foreign h r.url := not_not_intro hs
        simp only [requests_cons_request, List.filter_cons, hf, decide_false]
        exact ih
      · simp only [requests_cons_request, List.filter_cons, ih]
    | _ => exact ih

/-- **Credentials stay with the original origin.**  On any chain of redirects and retries, a request
to a URL of another scheme or authority than the handle's carries neither `Authorization` nor
`Cookie`, and the requests to such URLs are the same whatever the credentials of the handle. -/
theorem credentials_stay (w : World) (h : Handle) (c : Creds) :
    ∃ o o', perform w h = some o ∧ perform w (h.withCreds c) = some o' ∧
      (∀ r ∈ requests o.events, Foreign h r.url → ∀ f ∈ r.headers, ¬Credential f) ∧
      (requests o'.events).filter (fun r => Foreign h r.url) =
        (requests o.events).filter (fun r => Foreign h r.url) := by
  obtain ⟨o, ho⟩ := perform_total w h
  obtain ⟨o', ho'⟩ := perform_total w (h.withCreds c)
  refine ⟨o, o', ho, ho', ?_, ?_⟩
  · obtain ⟨o₁, ho₁, -, hq, -⟩ | ⟨url, t, before, hurl, hs, ⟨hq, -⟩, hcur, -, -, hp⟩ :=
      perform_cases w h
    · obtain rfl := Option.some.inj (ho.symm.trans ho₁)
      simp [requests_quiet hq]
    · rw [ho] at hp
      obtain ⟨out, hout, rfl⟩ := Option.map_eq_some_iff.mp hp.symm
      intro r hr hf
      simp only [Outcome.events, requests_append, requests_quiet hq, List.nil_append] at hr
      unfold Foreign at hf
      rw [hurl] at hf
      exact performLoop_foreign w.hops hs _ 0 (hcur ▸ hs) out hout r hr hf
  · have hsame := perform_withCreds w h c
    rw [ho, ho', Option.map_some, Option.map_some, Option.some.injEq] at hsame
    rw [← requests_seenAbroad, hsame, requests_seenAbroad]

end Curl
