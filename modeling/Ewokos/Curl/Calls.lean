import Ewokos.Curl.Perform

/-!
# curl: what one pass of the loop can do

* `Quiet` — only debug and header callbacks: every part but the fetch and the body delivery is.
* `Handle.config` — the options of a handle; a transfer changes its results only.
* `pass_cases`, `fetched_cases` — all ways a pass of `curl_perform` goes, with the calls it makes;
  later proofs use these and not the definitions.
* `performLoop_total` — the loop ends before its bound.
-/

set_option autoImplicit false

namespace Curl

open Cells CString

/-! ## Quiet calls -/

/-- A debug or header callback. -/
def Event.quiet : Event → Bool
  | .debug _ _ | .header _ => true
  | _ => false

def Quiet (events : List Event) : Prop := ∀ e ∈ events, e.quiet = true

@[simp] theorem quiet_nil : Quiet [] := by simp [Quiet]

theorem Quiet.append {a b : List Event} (ha : Quiet a) (hb : Quiet b) : Quiet (a ++ b) := by
  intro e he
  obtain h | h := List.mem_append.mp he
  · exact ha e h
  · exact hb e h

theorem debug_quiet (h : Handle) (type : Info) (data : List UInt8) : Quiet (h.debug type data) := by
  unfold Handle.debug
  split <;> simp [Quiet, Event.quiet]

theorem customHeaders_quiet (h : Handle) (same : Bool) (items : List CStr) :
    Quiet (customHeaders h same items).2 := by
  induction items with
  | nil => exact quiet_nil
  | cons item rest ih =>
    unfold customHeaders
    split
    · exact ih
    · dsimp only
      split
      · exact ih
      · split
        · exact ih
        · split
          · exact quiet_nil
          · exact (debug_quiet _ _ _).append ih

theorem deliverHeader_quiet (h : Handle) (x : Hop) (i : Nat) (data : CStr) :
    Quiet (deliverHeader h x i data).2 := by
  unfold deliverHeader
  split
  · exact (debug_quiet _ _ _).append (by simp [Quiet, Event.quiet])
  · exact debug_quiet _ _ _

/-! ## Options and results -/

/-- The options of a handle: everything but what a transfer reports. -/
def Handle.config (h : Handle) : Handle :=
  { h with
    contentType := none
    effectiveUrl := none
    errorBuffer := none
    responseCode := 0
    authAvail := 0
    result := .ok }

theorem setError_config (h : Handle) (code : Code) (message : Option CStr) :
    (h.setError code message).config = h.config := by
  cases message <;> rfl

/-- The options the loop looks at. -/
theorem options_of_config {h h' : Handle} (hc : h'.config = h.config) :
    h'.nobody = h.nobody ∧ h'.failonerror = h.failonerror ∧
      h'.followlocation = h.followlocation ∧ h'.maxredirs = h.maxredirs ∧
        h'.writeCallback = h.writeCallback ∧ h'.headers = h.headers := by
  have hn := congrArg Handle.nobody hc
  have hf := congrArg Handle.failonerror hc
  have hl := congrArg Handle.followlocation hc
  have hm := congrArg Handle.maxredirs hc
  have hw := congrArg Handle.writeCallback hc
  have hh := congrArg Handle.headers hc
  exact ⟨hn, hf, hl, hm, hw, hh⟩

/-- What every part of a response's processing does: quiet calls, and no change of an option. -/
def Mild (h : Handle) (h' : Handle) (events : List Event) : Prop :=
  Quiet events ∧ h'.config = h.config

theorem Mild.trans {h h' h'' : Handle} {a b : List Event} (h₁ : Mild h h' a) (h₂ : Mild h' h'' b) :
    Mild h h'' (a ++ b) :=
  ⟨h₁.1.append h₂.1, h₂.2.trans h₁.2⟩

theorem processHeader_mild (x : Hop) (i : Nat) (key value : CStr) (h : Handle) :
    Mild h (processHeader x i key value h).2.1 (processHeader x i key value h).2.2 := by
  have hq := deliverHeader_quiet h x i (key ++ str ": " ++ value ++ [13, 10])
  unfold processHeader
  split
  · dsimp only
    split
    · split
      · split <;> exact ⟨hq, rfl⟩
      · split <;> exact ⟨hq, rfl⟩
    · exact ⟨hq, rfl⟩
  · exact ⟨quiet_nil, rfl⟩

theorem headerLoop_mild (x : Hop) (items : List (Option CStr × Option CStr)) (i : Nat)
    (h : Handle) : Mild h (headerLoop x items i h).2.1 (headerLoop x items i h).2.2 := by
  induction items generalizing i h with
  | nil => exact ⟨quiet_nil, rfl⟩
  | cons item rest ih =>
    obtain ⟨key, value⟩ := item
    match key, value with
    | none, _ => exact ih (i + 1) h
    | some _, none => exact ih (i + 1) h
    | some key, some value =>
      have hm := processHeader_mild x i key value h
      simp only [headerLoop]
      split
      · exact hm.trans (ih (i + 1) _)
      · exact hm

theorem processResponseHeaders_mild (h : Handle) (x : Hop) (r : Response) :
    Mild h (processResponseHeaders h x r).2.1 (processResponseHeaders h x r).2.2 := by
  have h₀ := deliverHeader_quiet h x 0 (str "HTTP/1.1 " ++ dec r.status ++ [13, 10])
  have h₁ := headerLoop_mild x r.headers 1 h
  unfold processResponseHeaders
  dsimp only
  split
  · split
    · have h₂ := deliverHeader_quiet (headerLoop x r.headers 1 h).2.1 x (r.headers.length + 1)
        [13, 10]
      exact ⟨(h₀.append h₁.1).append h₂, h₁.2⟩
    · exact ⟨h₀.append h₁.1, h₁.2⟩
  · exact ⟨h₀, rfl⟩

theorem mapResponseError_config (h : Handle) (r : Response) :
    (mapResponseError h r).2.config = h.config :=
  setError_config _ _ _

/-! ## The body -/

/-- The bytes of a body, when every read up to the end succeeds. -/
def bodyOf : List Chunk → Option (List UInt8)
  | [] | .data [] :: _ => some []
  | .failed :: _ => none
  | .data got :: rest => (bodyOf rest).map (got ++ ·)

/-- A loop that ends without an error has read the whole body. -/
theorem bodyLoop_spec (h : Handle) (x : Hop) (r : Response) (chunks : List Chunk) (i : Nat)
    (body : Buffer) :
    Mild h (bodyLoop h x r chunks i body).2.1 (bodyLoop h x r chunks i body).2.2.2 ∧
      ((bodyLoop h x r chunks i body).1 = none →
        (bodyLoop h x r chunks i body).2.1 = h ∧
          ∃ l, bodyOf chunks = some l ∧
            (bodyLoop h x r chunks i body).2.2.1.bytes = body.bytes ++ l) ∧
      (bodyLoop h x r chunks i body).1 ≠ some .ok := by
  induction chunks generalizing i body with
  | nil => exact ⟨⟨quiet_nil, rfl⟩, fun _ => ⟨rfl, [], rfl, by simp [bodyLoop]⟩, by simp [bodyLoop]⟩
  | cons c rest ih =>
    match c with
    | .failed => exact ⟨⟨quiet_nil, setError_config _ _ _⟩, by simp [bodyLoop], by simp [bodyLoop]⟩
    | .data [] =>
      exact ⟨⟨quiet_nil, rfl⟩, fun _ => ⟨rfl, [], rfl, by simp [bodyLoop]⟩, by simp [bodyLoop]⟩
    | .data (b :: bs) =>
      have hd := debug_quiet h .dataIn (b :: bs)
      cases ha : body.append (b :: bs) (x.allocBody i) with
      | none =>
        simp only [bodyLoop, ha]
        exact ⟨⟨hd, setError_config _ _ _⟩, by simp, by simp⟩
      | some body' =>
        obtain ⟨h₁, h₂, h₃⟩ := ih (i + 1) body'
        simp only [bodyLoop, ha]
        refine ⟨⟨hd.append h₁.1, h₁.2⟩, ?_, h₃⟩
        intro hn
        obtain ⟨hh, l, hl, hb⟩ := h₂ hn
        refine ⟨hh, (b :: bs) ++ l, by simp [bodyOf, hl], ?_⟩
        rw [hb, Buffer.append_bytes ha, List.append_assoc]

/-- The call that hands a body over. -/
def Handle.deliverCall (h : Handle) (l : List UInt8) : Event :=
  if h.writeCallback then .write l else .stdout l

/-- `curl_deliver_body` reads the whole body and then hands it over, or fails before. -/
theorem deliverBody_cases (h : Handle) (x : Hop) (r : Response) (body : Buffer) :
    ∃ code h' body' events, deliverBody h x r body = (code, h', body', events) ∧
      h'.config = h.config ∧
      (h.nobody = true ∧ code = .ok ∧ events = [] ∨
        h.nobody = false ∧ code ≠ .ok ∧ Quiet events ∨
        h.nobody = false ∧ ∃ l quiet, bodyOf r.chunks = some l ∧ Quiet quiet ∧
          events = quiet ++ [h.deliverCall l] ∧
          (code = .ok ∧ x.writeCallback l = l.length ∨ code = .writeError)) := by
  by_cases hn : h.nobody = true
  · exact ⟨.ok, h, body, [], by simp [deliverBody, hn], rfl, Or.inl ⟨hn, rfl, rfl⟩⟩
  · obtain ⟨⟨hq, hc⟩, hnone, hok⟩ := bodyLoop_spec h x r r.chunks 0 { body with size := 0 }
    have hn' : h.nobody = false := by simpa using hn
    unfold deliverBody
    rw [if_neg hn]
    generalize bodyLoop h x r r.chunks 0 { body with size := 0 } = out at *
    obtain ⟨code, h', body', events⟩ := out
    cases code with
    | some code =>
      exact ⟨code, h', body', events, rfl, hc, Or.inr (Or.inl ⟨hn', by simpa using hok, hq⟩)⟩
    | none =>
      obtain ⟨rfl, l, hl, hb⟩ := hnone rfl
      have hbytes : body'.bytes = l := by simpa [Buffer.bytes] using hb
      have hsize : body'.size = l.length := by rw [← hbytes]; simp [Buffer.bytes]
      dsimp only
      rw [hbytes, hsize]
      split
      · rename_i ha
        exact ⟨_, _, _, _, rfl, rfl, Or.inr (Or.inr ⟨hn', l, events, hl, hq, rfl,
          Or.inl ⟨rfl, ha⟩⟩)⟩
      · exact ⟨_, _, _, _, rfl, setError_config _ _ _, Or.inr (Or.inr ⟨hn', l, events, hl, hq, rfl,
          Or.inr rfl⟩)⟩

/-! ## Passes -/

/-- The response is a redirect that will be followed. -/
def Response.Followed (r : Response) (h : Handle) : Prop :=
  h.followlocation = true ∧ isRedirect r.status = true ∧ r.location.isSome = true

/-- How a pass goes once its request is out: it fails, is tried again or redirected, has no body to
deliver, or hands over the body of its response. -/
inductive Fetched (x : Hop) (t : Transfer) : Pass → List Event → Prop where
  | failed {code : Code} {t' : Transfer} {events : List Event} (error : code ≠ .ok)
      (mild : Mild t.handle t'.handle events) : Fetched x t (.stop code t') events
  | retry {t' : Transfer} {events : List Event} (first : t.retries = 0) (once : t'.retries = 1)
      (redirects : t'.redirects = t.redirects) (url : t'.currentUrl = t.currentUrl)
      (mild : Mild t.handle t'.handle events) : Fetched x t (.again t') events
  | redirect {t' : Transfer} {events : List Event} (room : t.redirects < t.handle.maxredirs)
      (redirects : t'.redirects = t.redirects + 1) (retries : t'.retries = t.retries)
      (url : Schemed t'.currentUrl) (mild : Mild t.handle t'.handle events) :
      Fetched x t (.again t') events
  | nobody {t' : Transfer} {events : List Event} (flag : t.handle.nobody = true)
      (mild : Mild t.handle t'.handle events) : Fetched x t (.stop .ok t') events
  | delivered {r : Response} {l : List UInt8} {code : Code} {t' : Transfer} {events : List Event}
      (response : x.response = some r) (received : r.failed = false)
      (final : ¬r.Followed t.handle)
      (status : ¬(t.handle.failonerror = true ∧ r.status ≥ 400)) (flag : t.handle.nobody = false)
      (body : bodyOf r.chunks = some l)
      (accepted : code = .ok ∧ x.writeCallback l = l.length ∨ code = .writeError)
      (mild : Mild t.handle t'.handle events) :
      Fetched x t (.stop code t') (events ++ [t.handle.deliverCall l])

theorem retryOrStop_cases {x : Hop} {t t' : Transfer} {code : Code} {events : List Event}
    (hcode : code ≠ .ok) (hm : Mild t.handle t'.handle events) (hr : t'.retries = t.retries)
    (hd : t'.redirects = t.redirects) (hu : t'.currentUrl = t.currentUrl) :
    Fetched x t (retryOrStop t' code) events := by
  unfold retryOrStop
  split
  · rename_i hc
    have hlt : t'.retries < 1 := by
      simp only [canRetry, Bool.and_eq_true, decide_eq_true_eq] at hc
      exact hc.1.2
    exact .retry (by omega) (by simp only; omega) hd hu hm
  · exact .failed hcode hm

/-- A delivery is never tried again. -/
theorem retryOrStop_final (t : Transfer) {code : Code} (h : code = .ok ∨ code = .writeError) :
    retryOrStop t code = .stop code t := by
  unfold retryOrStop
  obtain rfl | rfl := h <;> simp [canRetry]

theorem redirectMethod_eq (t : Transfer) (status : Int) :
    redirectMethod t status = { t with
      method := (redirectMethod t status).method
      body := (redirectMethod t status).body
      hasBody := (redirectMethod t status).hasBody } := by
  unfold redirectMethod
  split <;> rfl

theorem followRedirect_cases {x : Hop} {t t' : Transfer} {status : Int} {location : CStr}
    {events : List Event} (hm : Mild t.handle t'.handle events) (hr : t'.retries = t.retries)
    (hd : t'.redirects = t.redirects) : Fetched x t (followRedirect x t' status location) events := by
  obtain ⟨-, -, -, hmax, -⟩ := options_of_config hm.2
  unfold followRedirect
  dsimp only
  split
  · exact .failed (by simp) ⟨hm.1, (setError_config _ _ _).trans hm.2⟩
  · split
    · exact .failed (by simp) ⟨hm.1, (setError_config _ _ _).trans hm.2⟩
    · split
      · exact .failed (by simp) ⟨hm.1, (setError_config _ _ _).trans hm.2⟩
      · rename_i hs
        rw [redirectMethod_eq]
        exact .redirect (by omega) (by simp only; omega) hr
          (schemeAllowed_schemed (by simpa using hs)) hm

theorem receive_cases {x : Hop} {t : Transfer} {r : Response} (hx : x.response = some r) :
    Fetched x t (receive x t r).1 (receive x t r).2 := by
  unfold receive
  split
  · have hne : (mapResponseError t.handle r).1 ≠ .ok := by
      simp only [mapResponseError]
      repeat' split
      all_goals simp
    exact retryOrStop_cases hne ⟨quiet_nil, mapResponseError_config _ _⟩ rfl rfl rfl
  · rename_i hf
    dsimp only
    split
    · exact .failed (by simp) ⟨quiet_nil, setError_config _ _ _⟩
    · obtain ⟨hq, hc⟩ := processResponseHeaders_mild
        { t.handle with responseCode := r.status, effectiveUrl := some t.currentUrl } x r
      generalize processResponseHeaders
        { t.handle with responseCode := r.status, effectiveUrl := some t.currentUrl } x r = out at *
      obtain ⟨accepted, h, events⟩ := out
      replace hc : h.config = t.handle.config := hc
      split
      · exact .failed (by simp) ⟨hq, (setError_config _ _ _).trans hc⟩
      · split
        · exact followRedirect_cases ⟨hq, hc⟩ rfl rfl
        · rename_i hfollow
          split
          · exact retryOrStop_cases (by simp) ⟨hq, (setError_config _ _ _).trans hc⟩ rfl rfl rfl
          · rename_i hstatus
            obtain ⟨hn, hfe, hfl, -, hw, -⟩ := options_of_config hc
            obtain ⟨code, h', body', events', hd, hc', hcases⟩ :=
              deliverBody_cases h x r t.responseBody
            rw [hd]
            have hm : Mild t.handle h' (events ++ []) := ⟨hq.append quiet_nil, hc'.trans hc⟩
            rcases hcases with ⟨hnb, rfl, rfl⟩ | ⟨hnb, hcode, hq'⟩ | ⟨hnb, l, quiet, hl, hq', rfl, ha⟩
            · rw [retryOrStop_final _ (Or.inl rfl)]
              exact .nobody (hn ▸ hnb) hm
            · exact retryOrStop_cases hcode ⟨hq.append hq', hc'.trans hc⟩ rfl rfl rfl
            · have hfinal : ¬r.Followed t.handle := by
                rintro ⟨h₁, h₂, h₃⟩
                obtain ⟨location, hloc⟩ := Option.isSome_iff_exists.mp h₃
                exact hfollow location (by rw [hfl, h₁, h₂]; rfl) hloc
              rw [retryOrStop_final _ (ha.imp And.left id), ← List.append_assoc,
                show h.deliverCall l = t.handle.deliverCall l by simp [Handle.deliverCall, hw]]
              exact .delivered hx (by simpa using hf) hfinal (by rw [← hfe]; exact hstatus)
                (hn ▸ hnb) hl ha ⟨hq.append hq', hc'.trans hc⟩

theorem fetched_cases (x : Hop) (t : Transfer) : Fetched x t (fetched x t).1 (fetched x t).2 := by
  unfold fetched
  split
  · exact .failed (by simp) ⟨quiet_nil, setError_config _ _ _⟩
  · rename_i r hx
    exact receive_cases hx

/-- How a pass of the loop goes: it ends before the request is out, or with one request. -/
inductive PassCase (x : Hop) (t : Transfer) (originalUrl : CStr) : Pass → List Event → Prop where
  | unsent {code : Code} {t' : Transfer} {events : List Event} (error : code ≠ .ok)
      (mild : Mild t.handle t'.handle events) : PassCase x t originalUrl (.stop code t') events
  | sent {r : Request} {next : Pass} {events events' : List Event} (quiet : Quiet events)
      (url : r.url = t.currentUrl)
      (headers : (addRequestHeaders t.handle t.currentUrl originalUrl x.allocAuth).1 =
        some r.headers)
      (fetched : Fetched x t next events') :
      PassCase x t originalUrl next (events ++ .request r :: events')

theorem pass_cases (x : Hop) (t : Transfer) (originalUrl : CStr) :
    PassCase x t originalUrl (pass x t originalUrl).1 (pass x t originalUrl).2 := by
  unfold pass
  split
  · exact .unsent (by simp) ⟨quiet_nil, setError_config _ _ _⟩
  · have hq : Quiet (addRequestHeaders t.handle t.currentUrl originalUrl x.allocAuth).2 :=
      customHeaders_quiet _ _ _
    split
    · rename_i events he
      rw [he] at hq
      exact .unsent (by simp) ⟨hq, setError_config _ _ _⟩
    · rename_i headers events he
      rw [he] at hq
      exact .sent hq rfl (by rw [he]) (fetched_cases x t)

/-! ## The requests and hand-overs of a list of calls -/

/-- The requests sent. -/
def requests (events : List Event) : List Request :=
  events.filterMap fun
    | .request r => some r
    | _ => none

/-- The bodies handed to the write callback. -/
def writes (events : List Event) : List (List UInt8) :=
  events.filterMap fun
    | .write l => some l
    | _ => none

@[simp] theorem requests_append (a b : List Event) :
    requests (a ++ b) = requests a ++ requests b := by
  simp [requests]

@[simp] theorem writes_append (a b : List Event) : writes (a ++ b) = writes a ++ writes b := by
  simp [writes]

@[simp] theorem requests_cons_request (r : Request) (events : List Event) :
    requests (.request r :: events) = r :: requests events := rfl

@[simp] theorem writes_cons_request (r : Request) (events : List Event) :
    writes (.request r :: events) = writes events := rfl

@[simp] theorem writes_write (l : List UInt8) : writes [.write l] = [l] := rfl

theorem requests_quiet {events : List Event} (h : Quiet events) : requests events = [] := by
  unfold requests
  rw [List.filterMap_eq_nil_iff]
  intro e he
  have := h e he
  cases e <;> simp_all [Event.quiet]

theorem writes_quiet {events : List Event} (h : Quiet events) : writes events = [] := by
  unfold writes
  rw [List.filterMap_eq_nil_iff]
  intro e he
  have := h e he
  cases e <;> simp_all [Event.quiet]

/-- Once its request is out, a pass sends no other one. -/
theorem fetched_requests {x : Hop} {t : Transfer} {next : Pass} {events : List Event}
    (h : Fetched x t next events) : requests events = [] := by
  cases h with
  | failed _ mild => exact requests_quiet mild.1
  | retry _ _ _ _ mild => exact requests_quiet mild.1
  | redirect _ _ _ _ mild => exact requests_quiet mild.1
  | nobody _ mild => exact requests_quiet mild.1
  | delivered _ _ _ _ _ _ _ mild =>
    rw [requests_append, requests_quiet mild.1]
    unfold Handle.deliverCall
    split <;> rfl

theorem readLoop_mild (h : Handle) (alloc : Nat → Bool) (reads : List (List UInt8)) (i : Nat)
    (body : Buffer) :
    Mild h (readLoop h alloc reads i body).2.1 (readLoop h alloc reads i body).2.2.2 := by
  induction reads generalizing i body with
  | nil => exact ⟨quiet_nil, rfl⟩
  | cons got rest ih =>
    cases got with
    | nil => exact ⟨quiet_nil, rfl⟩
    | cons b bs =>
      unfold readLoop
      split
      · exact ⟨quiet_nil, rfl⟩
      · split
        · exact ⟨quiet_nil, setError_config _ _ _⟩
        · obtain ⟨hq, hc⟩ := ih (i + 1) ‹Buffer›
          exact ⟨(debug_quiet _ _ _).append hq, hc⟩

theorem collectRequestBody_mild (h : Handle) (w : World) :
    Mild h (collectRequestBody h w).2.1 (collectRequestBody h w).2.2.2 := by
  unfold collectRequestBody
  split
  · dsimp only
    split
    · exact ⟨quiet_nil, setError_config _ _ _⟩
    · exact ⟨quiet_nil, rfl⟩
  · split
    · exact readLoop_mild _ _ _ _ _
    · exact ⟨quiet_nil, rfl⟩

/-! ## Options across the loop -/

/-- The handle a pass leaves. -/
def Pass.handle : Pass → Handle
  | .again t => t.handle
  | .stop _ t => t.handle

theorem Fetched.config {x : Hop} {t : Transfer} {next : Pass} {events : List Event}
    (h : Fetched x t next events) : next.handle.config = t.handle.config := by
  cases h with
  | failed _ mild => exact mild.2
  | retry _ _ _ _ mild => exact mild.2
  | redirect _ _ _ _ mild => exact mild.2
  | nobody _ mild => exact mild.2
  | delivered _ _ _ _ _ _ _ mild => exact mild.2

theorem pass_config (x : Hop) (t : Transfer) (originalUrl : CStr) :
    (pass x t originalUrl).1.handle.config = t.handle.config := by
  have hcase := pass_cases x t originalUrl
  generalize pass x t originalUrl = out at *
  obtain ⟨next, events⟩ := out
  cases hcase with
  | unsent _ mild => exact mild.2
  | sent _ _ _ fetched => exact fetched.config

theorem performLoop_config (hops : Nat → Hop) (originalUrl : CStr) (fuel i : Nat) (t : Transfer) :
    ∀ out, performLoop hops originalUrl fuel i t = some out →
      out.2.1.config = t.handle.config := by
  induction fuel generalizing i t with
  | zero => simp [performLoop]
  | succ fuel ih =>
    have hc := pass_config (hops i) t originalUrl
    unfold performLoop
    generalize pass (hops i) t originalUrl = p at *
    obtain ⟨next, events⟩ := p
    cases next with
    | stop code t' =>
      rintro out hout
      obtain rfl := Option.some.inj hout
      exact hc
    | again t' =>
      intro out hout
      obtain ⟨out', hout', rfl⟩ := Option.map_eq_some_iff.mp hout
      exact (ih (i + 1) t' out' hout').trans hc

/-! ## The transfer around the loop -/

theorem refused_error {h : Handle} {url : CStr} {code : Code} {message : String}
    (hr : refused h url = some (code, message)) : code ≠ .ok := by
  unfold refused at hr
  rintro rfl
  repeat' split at hr
  all_goals simp at hr

theorem refused_none {h : Handle} {url : CStr} (hr : refused h url = none) : Schemed url := by
  unfold refused at hr
  by_cases hs : schemeAllowed url h.protocols = true
  · exact schemeAllowed_schemed hs
  · split_ifs at hr
    simp_all

/-- A transfer fails before its first request, or is its loop. -/
theorem perform_cases (w : World) (h : Handle) :
    (∃ o, perform w h = some o ∧ o.code ≠ .ok ∧ Mild h o.handle o.events) ∨
      ∃ url t events, h.url = some url ∧ Schemed url ∧ Mild h t.handle events ∧
        t.currentUrl = url ∧ t.redirects = 0 ∧ t.retries = 0 ∧
        perform w h = (performLoop w.hops url (passBound t.handle) 0 t).map fun (code, h, passes) =>
          ⟨code, h, events, passes⟩ := by
  unfold perform
  split
  · exact Or.inl ⟨_, rfl, by simp, quiet_nil, rfl⟩
  · rename_i url hurl
    split
    · rename_i code message hr
      exact Or.inl ⟨_, rfl, refused_error hr, quiet_nil, setError_config _ _ _⟩
    · rename_i hr
      obtain ⟨hq, hc⟩ := collectRequestBody_mild h w
      split
      · rename_i h' body events he
        rw [he] at hq hc
        split
        · exact Or.inr ⟨url, _, events, hurl, refused_none hr, ⟨hq, hc⟩, rfl, rfl, rfl, rfl⟩
        · exact Or.inl ⟨_, rfl, by simp, by simpa [Outcome.events] using hq,
            (setError_config _ _ _).trans hc⟩
      · rename_i code h' body events hne he
        rw [he] at hq hc
        refine Or.inl ⟨_, rfl, ?_, by simpa [Outcome.events] using hq, hc⟩
        rintro rfl
        exact hne rfl

/-- A transfer changes no option. -/
theorem perform_config {w : World} {h : Handle} {o : Outcome} (ho : perform w h = some o) :
    o.handle.config = h.config := by
  obtain ⟨o', ho', -, -, hc⟩ | ⟨url, t, events, -, -, ⟨-, hc⟩, -, -, -, hp⟩ := perform_cases w h
  · obtain rfl := Option.some.inj (ho.symm.trans ho')
    exact hc
  · rw [ho] at hp
    obtain ⟨out, hout, rfl⟩ := Option.map_eq_some_iff.mp hp.symm
    exact (performLoop_config _ _ _ _ _ out hout).trans hc

end Curl
