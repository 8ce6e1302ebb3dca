import Ewokos.Curl.FailClosed

/-!
# curl: from one request to the next

What `curl_perform` keeps, and what it takes over from a response, when its loop goes on.

* `Again` — the two ways a pass goes on: the same request once more, or the target of a redirect.
* `Handle.answered` — the results of a handle behind a response that was processed.
* `perform_run` — a transfer as a run of passes.
-/

set_option autoImplicit false

namespace Curl

open CString

/-! ## Results -/

/-- What `curl_easy_getinfo` can tell: the status, the URL, the content type, and the offered ways
to authenticate. -/
structure Results where
  responseCode : Int
  effectiveUrl : Option CStr
  contentType : Option CStr
  authAvail : UInt64
  deriving DecidableEq

def Handle.results (h : Handle) : Results :=
  ⟨h.responseCode, h.effectiveUrl, h.contentType, h.authAvail⟩

/-- The last `Content-Type` of a response. -/
def contentTypeOf : List (Option CStr × Option CStr) → Option CStr
  | [] => none
  | (some key, some value) :: rest =>
    (contentTypeOf rest).or (if strcasecmp key (str "Content-Type") then some value else none)
  | _ :: rest => contentTypeOf rest

/-- What its `WWW-Authenticate` headers offer. -/
def authOf : List (Option CStr × Option CStr) → UInt64
  | [] => 0
  | (some key, some value) :: rest =>
    (if strcasecmp key (str "WWW-Authenticate") then authFlags value else 0) ||| authOf rest
  | _ :: rest => authOf rest

/-- The results behind a response to a request to `url`. -/
def Results.answered (i : Results) (url : CStr) (r : Response) : Results :=
  ⟨r.status, some url, (contentTypeOf r.headers).or i.contentType, i.authAvail ||| authOf r.headers⟩

theorem setError_results (h : Handle) (code : Code) (message : Option CStr) :
    (h.setError code message).results = h.results := by
  cases message <;> rfl

theorem processHeader_results {x : Hop} {i : Nat} {key value : CStr} {h : Handle}
    (hok : (processHeader x i key value h).1 = true) :
    (processHeader x i key value h).2.1.results = ⟨h.responseCode, h.effectiveUrl,
      (if strcasecmp key (str "Content-Type") then some value else none).or h.contentType,
      h.authAvail ||| if strcasecmp key (str "WWW-Authenticate") then authFlags value else 0⟩ := by
  unfold processHeader at hok ⊢
  by_cases halloc : x.allocHeader i = true
  · rw [if_pos halloc] at hok ⊢
    generalize deliverHeader h x i (key ++ str ": " ++ value ++ [13, 10]) = d at hok ⊢
    obtain ⟨accepted, events⟩ := d
    cases accepted with
    | false => cases hok
    | true =>
      dsimp only at hok ⊢
      rw [if_pos rfl] at hok ⊢
      by_cases htype : strcasecmp key (str "Content-Type") = true
      · have hauth : strcasecmp key (str "WWW-Authenticate") = false := by
          rw [Bool.eq_false_iff]
          intro h'
          rw [strcasecmp_iff] at htype h'
          have := htype.symm.trans h'
          revert this
          decide
        rw [if_pos htype] at hok ⊢
        rw [if_pos htype, if_neg (Bool.eq_false_iff.mp hauth), Option.some_or, UInt64.or_zero]
        by_cases hcopy : x.allocContentType i = true
        · rw [if_pos hcopy]
          rfl
        · rw [if_neg hcopy] at hok
          cases hok
      · rw [if_neg htype, if_neg htype, Option.none_or]
        by_cases hauth : strcasecmp key (str "WWW-Authenticate") = true
        · rw [if_pos hauth, if_pos hauth]
          rfl
        · rw [if_neg hauth, if_neg hauth, UInt64.or_zero]
          rfl
  · rw [if_neg halloc] at hok
    cases hok

theorem headerLoop_results (x : Hop) : ∀ (items : List (Option CStr × Option CStr)) (i : Nat)
    {h : Handle}, (headerLoop x items i h).1 = true →
    (headerLoop x items i h).2.1.results = ⟨h.responseCode, h.effectiveUrl,
      (contentTypeOf items).or h.contentType, h.authAvail ||| authOf items⟩
  | [], i, h, _ => by
    rw [contentTypeOf, authOf, Option.none_or, UInt64.or_zero]
    rfl
  | (none, _) :: rest, i, h, hok => headerLoop_results x rest (i + 1) hok
  | (some _, none) :: rest, i, h, hok => headerLoop_results x rest (i + 1) hok
  | (some key, some value) :: rest, i, h, hok => by
    have hp := @processHeader_results x i key value h
    unfold headerLoop at hok ⊢
    generalize processHeader x i key value h = p at hok hp ⊢
    obtain ⟨accepted, h', events⟩ := p
    cases accepted with
    | false => cases hok
    | true =>
      have hrest := headerLoop_results x rest (i + 1) hok
      have hhere := hp rfl
      simp only [Handle.results, Results.mk.injEq] at hhere
      obtain ⟨hcode, hurl, htype, hauth⟩ := hhere
      rw [hcode, hurl, htype, hauth] at hrest
      dsimp only
      rw [if_pos rfl, contentTypeOf, authOf, Option.or_assoc, ← UInt64.or_assoc]
      exact hrest

theorem processResponseHeaders_results {h : Handle} {x : Hop} {r : Response}
    (hok : (processResponseHeaders h x r).1 = true) :
    (processResponseHeaders h x r).2.1.results = ⟨h.responseCode, h.effectiveUrl,
      (contentTypeOf r.headers).or h.contentType, h.authAvail ||| authOf r.headers⟩ := by
  have hl := @headerLoop_results x r.headers 1 h
  unfold processResponseHeaders at hok ⊢
  generalize deliverHeader h x 0 (str "HTTP/1.1 " ++ dec r.status ++ [13, 10]) = d at hok ⊢
  generalize headerLoop x r.headers 1 h = l at hok hl ⊢
  obtain ⟨accepted, events⟩ := d
  obtain ⟨ok, h', events'⟩ := l
  cases accepted with
  | false => cases hok
  | true =>
    cases ok with
    | false => cases hok
    | true => exact hl rfl

theorem bodyLoop_results (h : Handle) (x : Hop) (r : Response) (chunks : List Chunk) (i : Nat)
    (body : Buffer) : (bodyLoop h x r chunks i body).2.1.results = h.results := by
  induction chunks generalizing i body with
  | nil => rfl
  | cons c rest ih =>
    match c with
    | .failed => exact setError_results _ _ _
    | .data [] => rfl
    | .data (b :: l) =>
      unfold bodyLoop
      split
      · exact setError_results _ _ _
      · exact ih _ _

theorem deliverBody_results (h : Handle) (x : Hop) (r : Response) (body : Buffer) :
    (deliverBody h x r body).2.1.results = h.results := by
  unfold deliverBody
  split
  · rfl
  · have hb := bodyLoop_results h x r r.chunks 0 { body with size := 0 }
    generalize bodyLoop h x r r.chunks 0 { body with size := 0 } = out at hb ⊢
    obtain ⟨code, h', body', events⟩ := out
    cases code with
    | some code => exact hb
    | none =>
      dsimp only
      split
      · exact hb
      · exact (setError_results _ _ _).trans hb

/-! ## One pass -/

/-- The locals behind a pass. -/
def Pass.transfer : Pass → Transfer
  | .again t | .stop _ t => t

/-- The handle while a response is processed. -/
def Transfer.receiving (t : Transfer) (r : Response) : Handle :=
  { t.handle with responseCode := r.status, effectiveUrl := some t.currentUrl }

/-- The headers of a response were processed to their end. -/
structure Processed (x : Hop) (t : Transfer) (r : Response) : Prop where
  received : r.failed = false
  url : x.allocEffectiveUrl = true
  accepted : (processResponseHeaders (t.receiving r) x r).1 = true

theorem retryOrStop_handle (t : Transfer) (code : Code) :
    (retryOrStop t code).transfer.handle = t.handle := by
  unfold retryOrStop
  split <;> rfl

theorem followRedirect_results (x : Hop) (t : Transfer) (status : Int) (location : CStr) :
    (followRedirect x t status location).transfer.handle.results = t.handle.results := by
  unfold followRedirect
  dsimp only
  split
  · exact setError_results _ _ _
  · split
    · exact setError_results _ _ _
    · split
      · exact setError_results _ _ _
      · unfold redirectMethod
        dsimp only [Pass.transfer]
        split <;> rfl

/-- A response that was processed leaves its results, however the pass ends. -/
theorem receive_results {x : Hop} {t : Transfer} {r : Response} (h : Processed x t r) :
    (receive x t r).1.transfer.handle.results = t.handle.results.answered t.currentUrl r := by
  have hp := processResponseHeaders_results h.accepted
  have hacc := h.accepted
  unfold receive
  rw [if_neg (by rw [h.received]; decide)]
  dsimp only
  rw [if_neg (by rw [h.url]; decide)]
  unfold Transfer.receiving at hp hacc
  generalize processResponseHeaders
    { t.handle with responseCode := r.status, effectiveUrl := some t.currentUrl } x r = out
    at hp hacc ⊢
  obtain ⟨accepted, h', events⟩ := out
  obtain rfl : accepted = true := hacc
  replace hp : h'.results = t.handle.results.answered t.currentUrl r := hp
  dsimp only
  rw [if_neg (by decide)]
  split
  · exact (followRedirect_results _ _ _ _).trans hp
  · split
    · rw [retryOrStop_handle]
      exact (setError_results _ _ _).trans hp
    · rw [retryOrStop_handle]
      exact (deliverBody_results _ _ _ _).trans hp

/-- A response that is not processed ends the transfer. -/
theorem receive_again_processed {x : Hop} {t t' : Transfer} {r : Response}
    (hr : r.failed = false) (h : (receive x t r).1 = .again t') : Processed x t r := by
  unfold receive at h
  rw [if_neg (by rw [hr]; decide)] at h
  dsimp only at h
  by_cases hurl : x.allocEffectiveUrl = true
  · rw [if_neg (by rw [hurl]; decide)] at h
    by_cases hacc : (processResponseHeaders (t.receiving r) x r).1 = true
    · exact ⟨hr, hurl, hacc⟩
    · unfold Transfer.receiving at hacc
      generalize processResponseHeaders
        { t.handle with responseCode := r.status, effectiveUrl := some t.currentUrl } x r = out
        at hacc h
      obtain ⟨accepted, h', events⟩ := out
      replace hacc : ¬accepted = true := hacc
      rw [if_pos (by simpa using hacc)] at h
      cases h
  · rw [if_pos (by simpa using hurl)] at h
    cases h

/-- A pass goes on with the request it made. -/
structure Same (t t' : Transfer) : Prop where
  url : t'.currentUrl = t.currentUrl
  method : t'.method = t.method
  body : t'.body = t.body
  hasBody : t'.hasBody = t.hasBody

/-- It goes on to the target of a redirect. -/
structure Moved (t t' : Transfer) (r : Response) : Prop where
  followed : r.Followed t.handle
  target : ∃ location, r.location = some location ∧
    redirectUrl t.currentUrl location = some t'.currentUrl
  allowed : schemeAllowed t'.currentUrl t.handle.redirProtocols = true
  drops : dropsBody r.status t.handle.postredir = true →
    t'.method = str "GET" ∧ t'.hasBody = false
  keeps : dropsBody r.status t.handle.postredir = false →
    t'.method = t.method ∧ t'.body = t.body ∧ t'.hasBody = t.hasBody

/-- The two ways in which a pass goes on. -/
inductive Again (x : Hop) (t t' : Transfer) : Prop where
  | retry (same : Same t t')
      (final : ∀ r, x.response = some r → r.failed = false → ¬r.Followed t.handle)
  | redirect (r : Response) (response : x.response = some r) (received : r.failed = false)
      (moved : Moved t t' r)

theorem retryOrStop_same {t t' : Transfer} {code : Code} (h : retryOrStop t code = .again t') :
    Same t t' := by
  rcases ite_eq_iff.mp h with ⟨-, h⟩ | ⟨-, h⟩
  · cases h
    exact ⟨rfl, rfl, rfl, rfl⟩
  · cases h

theorem followRedirect_moved {x : Hop} {t t' : Transfer} {r : Response} {location : CStr}
    (hf : r.Followed t.handle) (hl : r.location = some location)
    (h : followRedirect x t r.status location = .again t') : Moved t t' r := by
  unfold followRedirect at h
  dsimp only at h
  split at h
  · cases h
  · split at h
    · cases h
    · rename_i nextUrl hnext
      have htarget : redirectUrl t.currentUrl location = some nextUrl := by
        rcases ite_eq_iff.mp hnext with ⟨-, hnext⟩ | ⟨-, hnext⟩
        · exact hnext
        · cases hnext
      split at h
      · cases h
      · rename_i hs
        cases h
        refine ⟨hf, ⟨location, hl, htarget⟩, by simpa using hs, fun hd => ?_, fun hd => ?_⟩
        · unfold redirectMethod
          dsimp only
          rw [if_pos hd]
          exact ⟨rfl, rfl⟩
        · unfold redirectMethod
          dsimp only
          rw [if_neg (by rw [hd]; decide)]
          exact ⟨rfl, rfl, rfl⟩

/-- The options a redirect looks at. -/
theorem redirect_options {h h' : Handle} (hc : h'.config = h.config) :
    h'.postredir = h.postredir ∧ h'.redirProtocols = h.redirProtocols ∧
      h'.followlocation = h.followlocation := by
  have hp := congrArg Handle.postredir hc
  have hr := congrArg Handle.redirProtocols hc
  have hf := congrArg Handle.followlocation hc
  exact ⟨hp, hr, hf⟩

theorem Response.Followed.congr {r : Response} {h h' : Handle} (hc : h'.config = h.config) :
    r.Followed h' ↔ r.Followed h := by
  unfold Response.Followed
  rw [(redirect_options hc).2.2]

theorem receive_again {x : Hop} {t t' : Transfer} {r : Response} (hx : x.response = some r)
    (h : (receive x t r).1 = .again t') : Again x t t' := by
  by_cases hf : r.failed = true
  · unfold receive at h
    rw [if_pos hf] at h
    obtain ⟨hu, hm, hb, hh⟩ := retryOrStop_same h
    refine .retry ⟨hu, hm, hb, hh⟩ fun r' hr' hf' => ?_
    obtain rfl := Option.some.inj (hx.symm.trans hr')
    rw [hf] at hf'
    cases hf'
  · have hf := Bool.eq_false_iff.mpr hf
    have hp := receive_again_processed hf h
    have hacc := hp.accepted
    have hc := (processResponseHeaders_mild (t.receiving r) x r).2
    unfold receive at h
    rw [if_neg (by rw [hf]; decide)] at h
    dsimp only at h
    rw [if_neg (by rw [hp.url]; decide)] at h
    unfold Transfer.receiving at hacc hc
    generalize processResponseHeaders
      { t.handle with responseCode := r.status, effectiveUrl := some t.currentUrl } x r = out
      at hacc hc h
    obtain ⟨accepted, h', events⟩ := out
    obtain rfl : accepted = true := hacc
    replace hc : h'.config = t.handle.config := hc
    have hfollow : r.Followed h' ↔ r.Followed t.handle := Response.Followed.congr hc
    obtain ⟨hpost, hproto, hloc⟩ := redirect_options hc
    dsimp only at h
    rw [if_neg (by decide)] at h
    split at h
    · rename_i location hflag hlocation
      have hflags := Bool.and_eq_true_iff.mp hflag
      have hfollowed : r.Followed h' := ⟨hflags.1, hflags.2, by rw [hlocation]; rfl⟩
      obtain ⟨-, htarget, hallowed, hdrops, hkeeps⟩ := followRedirect_moved
        (t := { t with handle := h' }) hfollowed hlocation h
      refine .redirect r hx hf ⟨hfollow.mp hfollowed, htarget, hproto ▸ hallowed, fun hd => ?_,
        fun hd => ?_⟩
      · exact hdrops (hpost.symm ▸ hd)
      · exact hkeeps (hpost.symm ▸ hd)
    · rename_i hnone
      have hfinal : ∀ r', x.response = some r' → r'.failed = false → ¬r'.Followed t.handle := by
        intro r' hr' _ hfollowed
        obtain rfl := Option.some.inj (hx.symm.trans hr')
        obtain ⟨h₁, h₂, h₃⟩ := hfollow.mpr hfollowed
        obtain ⟨location, hlocation⟩ := Option.isSome_iff_exists.mp h₃
        exact hnone location (by rw [h₁, h₂]; rfl) hlocation
      split at h
      · obtain ⟨hu, hm, hb, hh⟩ := retryOrStop_same h
        exact .retry ⟨hu, hm, hb, hh⟩ hfinal
      · obtain ⟨hu, hm, hb, hh⟩ := retryOrStop_same h
        exact .retry ⟨hu, hm, hb, hh⟩ hfinal

/-- A pass that goes on has sent its request and got a response. -/
theorem pass_again {x : Hop} {t t' : Transfer} {url : CStr}
    (h : (pass x t url).1 = .again t') : Again x t t' ∧
      ∃ r, x.response = some r ∧ (receive x t r).1 = .again t' := by
  unfold pass at h
  split at h
  · cases h
  · split at h
    · cases h
    · dsimp only at h
      unfold fetched at h
      split at h
      · cases h
      · rename_i r hx
        exact ⟨receive_again hx h, r, hx, h⟩

/-- What a request takes from the locals. -/
structure Transfer.Sends (t : Transfer) (q : Request) : Prop where
  url : q.url = t.currentUrl
  method : q.method = t.method
  body : q.body = if t.hasBody then some t.body.bytes else none

/-- A pass sends one request, or none and ends. -/
theorem pass_sends (x : Hop) (t : Transfer) (url : CStr) :
    (∃ q, requests (pass x t url).2 = [q] ∧ t.Sends q ∧ (pass x t url).1 = (fetched x t).1) ∨
      requests (pass x t url).2 = [] ∧ ∃ t', (pass x t url).1 = .stop .outOfMemory t' := by
  unfold pass
  split
  · exact .inr ⟨rfl, _, rfl⟩
  · have hq : Quiet (addRequestHeaders t.handle t.currentUrl url x.allocAuth).2 :=
      customHeaders_quiet _ _ _
    split
    · rename_i events he
      rw [he] at hq
      exact .inr ⟨requests_quiet hq, _, rfl⟩
    · rename_i headers events he
      rw [he] at hq
      have hr := fetched_requests (fetched_cases x t)
      refine .inl ⟨⟨t.currentUrl, t.method, headers,
        if t.hasBody then some t.body.bytes else none⟩, ?_, ⟨rfl, rfl, rfl⟩, rfl⟩
      rw [requests_append, requests_quiet hq, requests_cons_request, hr]
      rfl

/-! ## The passes of a transfer -/

/-- The locals before the first pass of a transfer of `h` to `url`. -/
structure Begins (h : Handle) (url : CStr) (t : Transfer) : Prop where
  handle : t.handle = h
  url : t.currentUrl = url
  method : t.method = firstMethod h
  hasBody : t.hasBody = (h.postFields.isSome || h.readCallback)
  redirects : t.redirects = 0

theorem readLoop_handle {h : Handle} {alloc : Nat → Bool} : ∀ {reads : List (List UInt8)} {i : Nat}
    {body : Buffer}, (readLoop h alloc reads i body).1 = .ok →
    (readLoop h alloc reads i body).2.1 = h
  | [], _, _, _ => rfl
  | [] :: _, _, _, _ => rfl
  | (b :: l) :: rest, i, body, hok => by
    unfold readLoop at hok ⊢
    split
    · rfl
    · rename_i want hwant
      rw [hwant] at hok
      dsimp only at hok
      split
      · rename_i hnone
        rw [hnone] at hok
        cases hok
      · rename_i body' hsome
        rw [hsome] at hok
        exact readLoop_handle hok

theorem collectRequestBody_handle {h : Handle} {w : World}
    (hok : (collectRequestBody h w).1 = .ok) : (collectRequestBody h w).2.1 = h := by
  unfold collectRequestBody at hok ⊢
  split
  · rename_i fields hfields
    rw [hfields] at hok
    dsimp only at hok ⊢
    split
    · rename_i hnone
      rw [hnone] at hok
      cases hok
    · rfl
  · rename_i hfields
    rw [hfields] at hok
    dsimp only at hok ⊢
    by_cases hread : h.readCallback = true
    · rw [if_pos hread] at hok ⊢
      exact readLoop_handle hok
    · rw [if_neg hread]

/-- A transfer makes no pass, or is a run of passes. -/
theorem perform_run {w : World} {h : Handle} {o : Outcome} (ho : perform w h = some o) :
    o.passes = [] ∧ requests o.events = [] ∨
      ∃ url t ts, h.url = some url ∧ refused h url = none ∧ Begins h url t ∧
        Run w.hops url 0 (t :: ts) o.passes o.code o.handle ∧
        requests o.events = requests o.passes.flatten := by
  unfold perform at ho
  split at ho
  · cases ho
    exact .inl ⟨rfl, rfl⟩
  · rename_i url hurl
    split at ho
    · cases ho
      exact .inl ⟨rfl, rfl⟩
    · rename_i hrefused
      obtain ⟨hq, hc⟩ := collectRequestBody_mild h w
      have hhandle := collectRequestBody_handle (h := h) (w := w)
      split at ho
      · rename_i h' body events he
        rw [he] at hq hhandle
        obtain rfl : h' = h := hhandle rfl
        split at ho
        · obtain ⟨⟨code, h₁, passes⟩, hl, e⟩ := Option.map_eq_some_iff.mp ho
          cases e
          obtain ⟨ts, hrun⟩ := performLoop_run hl
          refine .inr ⟨url, _, ts, hurl, hrefused, ⟨rfl, rfl, rfl, rfl, rfl⟩, hrun, ?_⟩
          show requests (events ++ passes.flatten) = _
          rw [requests_append, requests_quiet hq, List.nil_append]
        · cases ho
          refine .inl ⟨rfl, ?_⟩
          show requests (events ++ [].flatten) = []
          rw [requests_append, requests_quiet hq]
          rfl
      · rename_i code h' body events hne he
        rw [he] at hq
        cases ho
        refine .inl ⟨rfl, ?_⟩
        show requests (events ++ [].flatten) = []
        rw [requests_append, requests_quiet hq]
        rfl

end Curl
