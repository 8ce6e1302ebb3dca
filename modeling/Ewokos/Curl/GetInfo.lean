import Ewokos.Curl.RedirectMethod

/-!
# curl: the results of a transfer

`curl_easy_getinfo` behind a chain of redirects and retries.

* `Reports` — the four results are those of one response to one URL.
* `Run.results` — what the responses before a pass have left: a content type while the later ones
  have none, and all ways to authenticate that any of them offered.

Main result: `reports_iff`.
-/

set_option autoImplicit false

namespace Curl

open CString

/-- `CURLINFO`. -/
inductive CURLINFO where
  | text | headerIn | headerOut | dataIn | dataOut | sslDataIn | sslDataOut
  | responseCode | httpauthAvail | httpConnectcode | contentType | effectiveUrl
  deriving DecidableEq, Repr

/-- What `curl_easy_getinfo` stores: a number, a mask, or a string. -/
inductive InfoValue where
  | long (n : Int)
  | mask (flags : UInt64)
  | string (s : Option CStr)
  deriving DecidableEq, Repr

/-- `curl_easy_getinfo`. -/
def getinfo (h : Handle) : CURLINFO → Except Code InfoValue
  | .responseCode => .ok (.long h.responseCode)
  | .httpauthAvail => .ok (.mask h.authAvail)
  | .httpConnectcode => .ok (.long h.connectCode)
  | .contentType => .ok (.string h.contentType)
  | .effectiveUrl => .ok (.string (h.effectiveUrl.or h.url))
  | _ => .error .notBuiltIn

/-! ## The specification -/

/-- The results are those of the response `r` to a request to `url`. -/
structure Reports (h : Handle) (url : CStr) (r : Response) : Prop where
  responseCode : getinfo h .responseCode = .ok (.long r.status)
  effectiveUrl : getinfo h .effectiveUrl = .ok (.string (some url))
  contentType : getinfo h .contentType = .ok (.string (contentTypeOf r.headers))
  httpauthAvail : getinfo h .httpauthAvail = .ok (.mask (authOf r.headers))

/-- The last pass sends `q`, gets `r`, and processes its headers. -/
structure EndsWith (w : World) (h : Handle) (o : Outcome) (q : Request) (r : Response) : Prop where
  sent : requests (o.passes.getD (o.passes.length - 1) []) = [q]
  response : (w.hops (o.passes.length - 1)).response = some r
  received : r.failed = false
  url : (w.hops (o.passes.length - 1)).allocEffectiveUrl = true
  accepted : (processResponseHeaders h (w.hops (o.passes.length - 1)) r).1 = true

/-- Pass `i` gets the response `r`. -/
def Received (hops : Nat → Hop) (i : Nat) (r : Response) : Prop :=
  (hops i).response = some r ∧ r.failed = false

/-- The responses before pass `n` leave nothing that `r` does not overwrite. -/
structure Overwritten (hops : Nat → Hop) (n : Nat) (r : Response) : Prop where
  contentType : contentTypeOf r.headers = none →
    ∀ i < n, ∀ r', Received hops i r' → contentTypeOf r'.headers = none
  httpauthAvail : ∀ i < n, ∀ r', Received hops i r' →
    authOf r'.headers ||| authOf r.headers = authOf r.headers

/-! ## Processing -/

section Accepts

variable {h h' : Handle}

theorem deliverHeader_accepts (hc : h.headerCallback = h'.headerCallback) (x : Hop) (i : Nat)
    (data : CStr) : (deliverHeader h x i data).1 = (deliverHeader h' x i data).1 := by
  unfold deliverHeader
  rw [hc]
  split <;> rfl

theorem processHeader_accepts (hc : h.headerCallback = h'.headerCallback) (x : Hop) (i : Nat)
    (key value : CStr) : (processHeader x i key value h).1 = (processHeader x i key value h').1 := by
  have hd := deliverHeader_accepts hc x i (key ++ str ": " ++ value ++ [13, 10])
  unfold processHeader
  generalize deliverHeader h x i (key ++ str ": " ++ value ++ [13, 10]) = d at hd ⊢
  generalize deliverHeader h' x i (key ++ str ": " ++ value ++ [13, 10]) = d' at hd ⊢
  obtain ⟨accepted, events⟩ := d
  obtain ⟨accepted', events'⟩ := d'
  obtain rfl : accepted = accepted' := hd
  dsimp only
  repeat' split
  all_goals rfl

/-- The callback of a handle whose options are the same. -/
theorem headerCallback_of_config (hc : h'.config = h.config) :
    h'.headerCallback = h.headerCallback := by
  have hb := congrArg Handle.headerCallback hc
  exact hb

theorem headerLoop_accepts (x : Hop) : ∀ (items : List (Option CStr × Option CStr)) (i : Nat)
    {h h' : Handle}, h.headerCallback = h'.headerCallback →
    (headerLoop x items i h).1 = (headerLoop x items i h').1
  | [], _, _, _, _ => rfl
  | (none, _) :: rest, i, _, _, hc => headerLoop_accepts x rest (i + 1) hc
  | (some _, none) :: rest, i, _, _, hc => headerLoop_accepts x rest (i + 1) hc
  | (some key, some value) :: rest, i, h, h', hc => by
    have hp := processHeader_accepts hc x i key value
    have hm := headerCallback_of_config (processHeader_mild x i key value h).2
    have hm' := headerCallback_of_config (processHeader_mild x i key value h').2
    unfold headerLoop
    generalize processHeader x i key value h = p at hp hm ⊢
    generalize processHeader x i key value h' = p' at hp hm' ⊢
    obtain ⟨accepted, h₁, events⟩ := p
    obtain ⟨accepted', h₁', events'⟩ := p'
    obtain rfl : accepted = accepted' := hp
    dsimp only
    split
    · exact headerLoop_accepts x rest (i + 1) (hm.trans (hc.trans hm'.symm))
    · rfl

/-- Whether the headers are processed to their end depends on no result. -/
theorem processResponseHeaders_accepts (hc : h.headerCallback = h'.headerCallback) (x : Hop)
    (r : Response) : (processResponseHeaders h x r).1 = (processResponseHeaders h' x r).1 := by
  have hs := deliverHeader_accepts hc x 0 (str "HTTP/1.1 " ++ dec r.status ++ [13, 10])
  have hl := headerLoop_accepts x r.headers 1 hc
  have hm := headerCallback_of_config (headerLoop_mild x r.headers 1 h).2
  have hm' := headerCallback_of_config (headerLoop_mild x r.headers 1 h').2
  unfold processResponseHeaders
  generalize deliverHeader h x 0 (str "HTTP/1.1 " ++ dec r.status ++ [13, 10]) = d at hs ⊢
  generalize deliverHeader h' x 0 (str "HTTP/1.1 " ++ dec r.status ++ [13, 10]) = d' at hs ⊢
  generalize headerLoop x r.headers 1 h = l at hl hm ⊢
  generalize headerLoop x r.headers 1 h' = l' at hl hm' ⊢
  obtain ⟨accepted, events⟩ := d
  obtain ⟨accepted', events'⟩ := d'
  obtain ⟨ok, h₁, events₁⟩ := l
  obtain ⟨ok', h₁', events₁'⟩ := l'
  obtain rfl : accepted = accepted' := hs
  obtain rfl : ok = ok' := hl
  dsimp only
  split
  · split
    · exact deliverHeader_accepts (hm.trans (hc.trans hm'.symm)) x _ _
    · rfl
  · rfl

end Accepts

/-- What a pass that goes on has taken from its response. -/
theorem receive_again_results {x : Hop} {t t' : Transfer} {r : Response}
    (h : (receive x t r).1 = .again t') : t'.handle.results =
      if r.failed then t.handle.results else t.handle.results.answered t.currentUrl r := by
  by_cases hf : r.failed = true
  · rw [if_pos hf]
    unfold receive at h
    rw [if_pos hf] at h
    have hh := retryOrStop_handle { t with handle := (mapResponseError t.handle r).2 }
      (mapResponseError t.handle r).1
    replace h : retryOrStop { t with handle := (mapResponseError t.handle r).2 }
      (mapResponseError t.handle r).1 = .again t' := h
    rw [h] at hh
    rw [show t'.handle = _ from hh]
    exact setError_results _ _ _
  · rw [if_neg hf]
    have hp := receive_results (receive_again_processed (Bool.eq_false_iff.mpr hf) h)
    rw [h] at hp
    exact hp

/-! ## Runs -/

theorem or_or_eq_iff (a b c : UInt64) : a ||| b ||| c = c ↔ a ||| c = c ∧ b ||| c = c := by
  constructor
  · intro h
    have hb : b ||| c = c := by
      rw [← h, ← UInt64.or_assoc, UInt64.or_comm b, UInt64.or_assoc, UInt64.or_assoc a,
        ← UInt64.or_assoc b b, UInt64.or_self, ← UInt64.or_assoc]
    rw [UInt64.or_assoc, hb] at h
    exact ⟨h, hb⟩
  · rintro ⟨ha, hb⟩
    rw [UInt64.or_assoc, hb, ha]

variable {w : World} {h h' : Handle} {o : Outcome} {url : CStr} {hops : Nat → Hop}
  {ts : List Transfer} {passes : List (List Event)} {code : Code}

/-- What the responses before a pass have left. -/
theorem Run.results (hr : Run hops url 0 ts passes code h')
    (hfirst : ∀ t ∈ ts.head?, t.handle.contentType = none ∧ t.handle.authAvail = 0) :
    ∀ (i : Nat) t, ts[i]? = some t →
      (t.handle.contentType = none ↔
        ∀ j < i, ∀ r, Received hops j r → contentTypeOf r.headers = none) ∧
      ∀ flags, t.handle.authAvail ||| flags = flags ↔
        ∀ j < i, ∀ r, Received hops j r → authOf r.headers ||| flags = flags
  | 0, t, ht => by
    rw [← List.head?_eq_getElem?] at ht
    obtain ⟨htype, hauth⟩ := hfirst t ht
    refine ⟨iff_of_true htype fun j hj => absurd hj (Nat.not_lt_zero j), fun flags => ?_⟩
    rw [hauth, UInt64.zero_or]
    exact iff_of_true rfl fun j hj => absurd hj (Nat.not_lt_zero j)
  | i + 1, t', ht' => by
    have hlt : i < ts.length := by
      have := (List.getElem?_eq_some_iff.mp ht').1
      omega
    have ht := List.getElem?_eq_getElem hlt
    obtain ⟨htype, hauth⟩ := hr.results hfirst i _ ht
    have hnext := hr.next i _ t' ht ht'
    rw [Nat.zero_add] at hnext
    obtain ⟨-, r, hx, hrec⟩ := pass_again hnext
    have hresults := receive_again_results hrec
    -- the responses before pass `i + 1`: those before pass `i`, and its own
    have split (p : Response → Prop) : (∀ j < i + 1, ∀ r, Received hops j r → p r) ↔
        (∀ j < i, ∀ r, Received hops j r → p r) ∧ (r.failed = false → p r) := by
      constructor
      · intro hall
        exact ⟨fun j hj => hall j (Nat.lt_succ_of_lt hj),
          fun hf => hall i (Nat.lt_succ_self i) r ⟨hx, hf⟩⟩
      · rintro ⟨hall, hhere⟩ j hj r' hr'
        rcases Nat.lt_succ_iff_lt_or_eq.mp hj with hj | rfl
        · exact hall j hj r' hr'
        · obtain rfl := Option.some.inj (hx.symm.trans hr'.1)
          exact hhere hr'.2
    by_cases hf : r.failed = true
    · rw [if_pos hf] at hresults
      have htype' := congrArg Results.contentType hresults
      have hauth' := congrArg Results.authAvail hresults
      dsimp only [Handle.results] at htype' hauth'
      have hskip : ∀ p : Prop, (r.failed = false → p) ↔ True :=
        fun p => iff_true_intro fun h => absurd (h.symm.trans hf) Bool.false_ne_true
      refine ⟨?_, fun flags => ?_⟩
      · rw [split, hskip, and_true, htype', htype]
      · rw [split, hskip, and_true, hauth', hauth]
    · rw [if_neg hf] at hresults
      have htype' := congrArg Results.contentType hresults
      have hauth' := congrArg Results.authAvail hresults
      dsimp only [Handle.results, Results.answered] at htype' hauth'
      have hhere : ∀ p : Prop, (r.failed = false → p) ↔ p :=
        fun p => ⟨fun h => h (Bool.eq_false_iff.mpr hf), fun h _ => h⟩
      refine ⟨?_, fun flags => ?_⟩
      · rw [split, hhere, htype', Option.or_eq_none_iff, htype, and_comm]
      · rw [split, hhere, hauth', or_or_eq_iff, hauth]

/-! ## The result -/

/-- The last pass of a run leaves its response. -/
theorem Run.answered {q : Request} {r : Response}
    (hr : Run w.hops url 0 ts o.passes code h') (hfirst : ∀ t ∈ ts.head?, t.handle = h)
    (he : EndsWith w h o q r) : ∃ t, ts[o.passes.length - 1]? = some t ∧ t.Sends q ∧
      h'.results = t.handle.results.answered q.url r := by
  obtain ⟨t, ht, hs⟩ := hr.sends he.sent
  obtain ⟨u, u', hu, hstop, rfl⟩ := hr.last
  rw [List.getLast?_eq_getElem?, hr.length, ht] at hu
  obtain rfl := Option.some.inj hu
  rw [Nat.zero_add, hr.length] at hstop
  have hcalls := hr.calls _ t ht
  have hsent := he.sent
  rw [List.getD_eq_getElem?_getD, hcalls, Nat.zero_add] at hsent
  have hc := hr.config hfirst _ t ht
  have hcallback : h.headerCallback = (t.receiving r).headerCallback :=
    headerCallback_of_config hc.symm
  have hacc := he.accepted
  rw [processResponseHeaders_accepts hcallback] at hacc
  rcases pass_sends (w.hops (o.passes.length - 1)) t url with ⟨-, -, -, hpass⟩ | ⟨hno, -⟩
  · unfold fetched at hpass
    rw [he.response] at hpass
    have hresults := receive_results ⟨he.received, he.url, hacc⟩
    rw [← hpass, hstop] at hresults
    refine ⟨t, ht, hs, ?_⟩
    rw [hs.url]
    exact hresults
  · cases hno.symm.trans hsent

/-- **The last response is reported.**  When the last response of a transfer was processed, status
and URL are its own; all results are if and only if it overwrites what the earlier responses left. -/
theorem reports_iff (w : World) (h : Handle) {o : Outcome} {q : Request} {r : Response}
    (ho : easyPerform w h = some o) (he : EndsWith w h o q r) :
    Reports o.handle q.url r ↔ Overwritten w.hops (o.passes.length - 1) r := by
  obtain ⟨o', ho', rfl⟩ := Option.map_eq_some_iff.mp ho
  rcases perform_run ho' with ⟨hpasses, -⟩ | ⟨url, t₀, ts, -, -, hbegin, hr, -⟩
  · have hsent := he.sent
    dsimp only at hsent
    rw [hpasses] at hsent
    cases hsent
  · have hcallback : h.headerCallback = (clearTransferResults h).headerCallback := rfl
    have hsame := processResponseHeaders_accepts hcallback (w.hops (o'.passes.length - 1)) r
    have he' : EndsWith w (clearTransferResults h) o' q r :=
      ⟨he.sent, he.response, he.received, he.url, hsame.symm.trans he.accepted⟩
    obtain ⟨t, ht, -, hresults⟩ := hr.answered (fun t' ht' => by
      cases ht'
      exact hbegin.handle) he'
    obtain ⟨htype, hauth⟩ := hr.results (fun t' ht' => by
      cases ht'
      rw [hbegin.handle]
      exact ⟨rfl, rfl⟩) _ t ht
    have hcode := congrArg Results.responseCode hresults
    have hurl := congrArg Results.effectiveUrl hresults
    have htype' := congrArg Results.contentType hresults
    have hauth' := congrArg Results.authAvail hresults
    dsimp only [Handle.results, Results.answered] at hcode hurl htype' hauth'
    have hreported : Reports { o'.handle with result := o'.code, completed := true } q.url r ↔
        (contentTypeOf r.headers).or t.handle.contentType = contentTypeOf r.headers ∧
          t.handle.authAvail ||| authOf r.headers = authOf r.headers := by
      rw [← htype', ← hauth']
      constructor
      · intro hrep
        have hct := hrep.contentType
        have hau := hrep.httpauthAvail
        simp only [getinfo, Except.ok.injEq, InfoValue.string.injEq, InfoValue.mask.injEq] at hct hau
        exact ⟨hct, hau⟩
      · rintro ⟨hct, hau⟩
        refine ⟨?_, ?_, ?_, ?_⟩
        · simp only [getinfo, hcode]
        · simp only [getinfo, hurl, Option.some_or]
        · simp only [getinfo, hct]
        · simp only [getinfo, hau]
    have hstale : (contentTypeOf r.headers).or t.handle.contentType = contentTypeOf r.headers ↔
        (contentTypeOf r.headers = none → t.handle.contentType = none) := by
      cases contentTypeOf r.headers with
      | none => simp
      | some value => simp
    show Reports { o'.handle with result := o'.code, completed := true } q.url r ↔
      Overwritten w.hops (o'.passes.length - 1) r
    rw [hreported, hstale, htype, hauth]
    exact ⟨fun ⟨hct, hau⟩ => ⟨hct, hau⟩, fun ⟨hct, hau⟩ => ⟨hct, hau⟩⟩

/-- A server that redirects once, and sends a content type with the redirect only. -/
def typeOnRedirect (type : List (Option CStr × Option CStr)) : World :=
  { twoChunks with
    hops := fun i => { twoChunks.hops i with
      response := (twoChunks.hops i).response.map fun r =>
        if i = 0 then { r with status := 301, location := some (str "/b"), headers := type } else r } }

/-- A handle that follows redirects. -/
def following : Handle := { getHandle with followlocation := true }

theorem typeOnRedirect_ends (type : List (Option CStr × Option CStr))
    (hpasses : (easyPerform (typeOnRedirect type) following).map (fun o => (o.passes.length,
      requests (o.passes.getD 1 []))) = some (2, [⟨str "http://a/b", str "GET", [], none⟩])) :
    ∃ (o : Outcome) (q : Request) (r : Response),
      easyPerform (typeOnRedirect type) following = some o ∧
      EndsWith (typeOnRedirect type) following o q r ∧ r.headers = [] ∧ o.passes.length = 2 := by
  obtain ⟨o, ho, heq⟩ := Option.map_eq_some_iff.mp hpasses
  obtain ⟨hlen, hsent⟩ := Prod.mk.inj heq
  refine ⟨o, _, _, ho, ⟨by rw [hlen]; exact hsent, by rw [hlen]; rfl, rfl, rfl, rfl⟩, rfl, hlen⟩

/-- A redirect without a content type is overwritten. -/
theorem reports_iff_plain : ∃ (o : Outcome) (q : Request) (r : Response),
    easyPerform (typeOnRedirect []) following = some o ∧
    (Reports o.handle q.url r ↔ Overwritten (typeOnRedirect []).hops (o.passes.length - 1) r) := by
  obtain ⟨o, q, r, ho, he, -⟩ := typeOnRedirect_ends [] (by decide +kernel)
  exact ⟨o, q, r, ho, reports_iff _ _ ho he⟩

/-- The content type of a redirect is reported for a page that has none. -/
theorem reports_stale_type : ¬∀ (w : World) (h : Handle) (o : Outcome) (q : Request) (r : Response),
    easyPerform w h = some o → EndsWith w h o q r → Reports o.handle q.url r := by
  intro hall
  obtain ⟨o, q, r, ho, he, hheaders, -⟩ := typeOnRedirect_ends
    [(some (str "Content-Type"), some (str "text/html"))] (by decide +kernel)
  have htype := (hall _ _ o q r ho he).contentType
  have hstale : (easyPerform (typeOnRedirect
      [(some (str "Content-Type"), some (str "text/html"))]) following).map (·.handle.contentType) =
      some (some (str "text/html")) := by decide +kernel
  rw [ho, Option.map_some, Option.some.injEq] at hstale
  simp [getinfo, hstale, hheaders, contentTypeOf] at htype

end Curl
