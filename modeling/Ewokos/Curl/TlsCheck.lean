import Ewokos.Curl.RedirectMethod

/-!
# curl: the TLS check

`curl_perform` refuses an `https` URL while verification is switched off, and looks at the
configured URL only.

* `TlsVerified` — no request to an `https` URL without verification, but an error.
* `LedTo` — where a redirect leads the transfer.
* `Run.verified` — the URLs of all passes, when no redirect leads to `https`.

Main result: `tls_verified_iff`.
-/

set_option autoImplicit false

namespace Curl

open CString

/-! ## The specification -/

/-- An `https` URL, as the source tells one. -/
def Https (url : CStr) : Prop := strncasecmp url (str "https://") 8 = true

/-- Verification is switched off. -/
def Unverified (h : Handle) : Prop := h.sslVerifypeer = false ∨ h.sslVerifyhost = 0

/-- The transfer passes the checks before the one of TLS. -/
structure Accepted (h : Handle) (url : CStr) : Prop where
  supported : h.unsupportedOption = false
  proxy : h.proxy.getD [] = []
  cookieFile : h.cookieFile.getD [] = []
  resolve : h.resolve = []
  scheme : schemeAllowed url h.protocols = true

/-- Pass `i` is redirected to `target`, and the loop goes on. -/
structure LedTo (w : World) (h : Handle) (o : Outcome) (i : Nat) (target : CStr) : Prop where
  goesOn : i + 1 < o.passes.length
  followed : ∃ q r location, requests (o.passes.getD i []) = [q] ∧
    (w.hops i).response = some r ∧ r.failed = false ∧ r.Followed h ∧ r.location = some location ∧
    redirectUrl q.url location = some target

/-- Without verification there is no request to an `https` URL, and a transfer that comes to one
ends with `CURLE_SSL_CERTPROBLEM`. -/
structure TlsVerified (w : World) (h : Handle) (o : Outcome) : Prop where
  requests : ∀ q ∈ requests o.events, Https q.url → ¬Unverified h
  configured : ∀ url, h.url = some url → Accepted h url → Https url → Unverified h →
    o.code = .sslCertproblem
  redirected : ∀ i target, LedTo w h o i target → Https target → Unverified h →
    o.code = .sslCertproblem

/-! ## The code of a run -/

theorem mapResponseError_code (h : Handle) (r : Response) :
    (mapResponseError h r).1 ≠ .sslCertproblem := by
  unfold mapResponseError
  dsimp only
  repeat' split
  all_goals decide

theorem bodyLoop_code (h : Handle) (x : Hop) (r : Response) (chunks : List Chunk) (i : Nat)
    (body : Buffer) : (bodyLoop h x r chunks i body).1 ≠ some .sslCertproblem := by
  induction chunks generalizing i body with
  | nil =>
    intro h
    cases h
  | cons c rest ih =>
    match c with
    | .failed =>
      intro h
      cases h
    | .data [] =>
      intro h
      cases h
    | .data (b :: l) =>
      unfold bodyLoop
      split
      · intro h
        cases h
      · exact ih _ _

theorem deliverBody_code (h : Handle) (x : Hop) (r : Response) (body : Buffer) :
    (deliverBody h x r body).1 ≠ .sslCertproblem := by
  have hb := bodyLoop_code h x r r.chunks 0 { body with size := 0 }
  unfold deliverBody
  split
  · exact Code.noConfusion
  · generalize bodyLoop h x r r.chunks 0 { body with size := 0 } = out at hb ⊢
    obtain ⟨code, h', body', events⟩ := out
    cases code with
    | some code => exact fun he => hb (congrArg some he)
    | none =>
      dsimp only
      split <;> exact Code.noConfusion

/-- The code a pass ends with, if it ends. -/
def Pass.EndsWith (p : Pass) (code : Code) : Prop := ∃ t, p = .stop code t

theorem retryOrStop_code {t : Transfer} {code code' : Code}
    (h : (retryOrStop t code).EndsWith code') : code' = code := by
  obtain ⟨t', ht'⟩ := h
  rcases ite_eq_iff.mp ht' with ⟨-, h⟩ | ⟨-, h⟩
  · cases h
  · cases h
    rfl

theorem followRedirect_code {x : Hop} {t : Transfer} {status : Int} {location : CStr} :
    ¬(followRedirect x t status location).EndsWith .sslCertproblem := by
  rintro ⟨t', h⟩
  unfold followRedirect at h
  dsimp only at h
  split at h
  · cases h
  · split at h
    · cases h
    · split at h <;> cases h

/-- The loop never reports a problem with a certificate. -/
theorem pass_code {x : Hop} {t : Transfer} {url : CStr} :
    ¬(pass x t url).1.EndsWith .sslCertproblem := by
  rintro ⟨t', h⟩
  unfold pass at h
  split at h
  · cases h
  · split at h
    · cases h
    · dsimp only at h
      unfold fetched at h
      split at h
      · cases h
      · rename_i r hx
        unfold receive at h
        split at h
        · exact mapResponseError_code _ _ (retryOrStop_code ⟨_, h⟩).symm
        · dsimp only at h
          split at h
          · cases h
          · split at h
            · cases h
            · split at h
              · exact followRedirect_code ⟨_, h⟩
              · split at h
                · cases retryOrStop_code ⟨_, h⟩
                · exact deliverBody_code _ _ _ _ (retryOrStop_code ⟨_, h⟩).symm

/-! ## The result -/

variable {w : World} {h h' : Handle} {o : Outcome} {url : CStr} {ts : List Transfer} {code : Code}

theorem refused_accepted {url : CStr} (ha : Accepted h url) (hs : Https url) (hu : Unverified h) :
    ∃ message, refused h url = some (.sslCertproblem, message) := by
  have hoff : strncasecmp url (str "https://") 8 = true ∧
      ((!h.sslVerifypeer) = true ∨ h.sslVerifyhost = 0) :=
    ⟨hs, hu.imp_left fun hp => by rw [hp]; rfl⟩
  unfold refused
  rw [if_neg (by rw [ha.supported]; decide), if_neg (not_not.mpr ha.proxy),
    if_neg (by rw [ha.cookieFile, ha.resolve]; simp), if_neg (by rw [ha.scheme]; decide),
    if_pos hoff]
  exact ⟨_, rfl⟩

theorem refused_none_verified {url : CStr} (hr : refused h url = none) (hs : Https url) :
    ¬Unverified h := by
  intro hu
  have hoff : strncasecmp url (str "https://") 8 = true ∧
      ((!h.sslVerifypeer) = true ∨ h.sslVerifyhost = 0) :=
    ⟨hs, hu.imp_left fun hp => by rw [hp]; rfl⟩
  unfold refused at hr
  repeat' split at hr
  all_goals cases hr

/-- When no redirect leads to `https`, no pass has such a URL without verification. -/
theorem Run.verified (hr : Run w.hops url 0 ts o.passes code h')
    (hfirst : ∀ t ∈ ts.head?, t.handle = h ∧ t.currentUrl = url)
    (hurl : Https url → ¬Unverified h)
    (hnone : Unverified h → ∀ i target, LedTo w h o i target → ¬Https target) :
    ∀ (i : Nat) t, ts[i]? = some t → Https t.currentUrl → ¬Unverified h
  | 0, t, ht => by
    rw [← List.head?_eq_getElem?] at ht
    rw [(hfirst t ht).2]
    exact hurl
  | i + 1, t', ht' => by
    have hlen := (List.getElem?_eq_some_iff.mp ht').1
    have hlt : i < ts.length := by omega
    have ht := List.getElem?_eq_getElem hlt
    have hc := hr.config (fun t ht => (hfirst t ht).1) i _ ht
    intro hs hu
    cases (hr.goesOn ht ht').1 with
    | retry same _ =>
      rw [same.url] at hs
      exact hr.verified hfirst hurl hnone i _ ht hs hu
    | redirect r hx hf hm =>
      obtain ⟨location, hloc, htarget⟩ := hm.target
      obtain ⟨q, hq, hsends⟩ := hr.sent ht ht'
      refine hnone hu i _ ⟨by rw [← hr.length]; exact hlen, q, r, location, hq, hx, hf,
        (Response.Followed.congr hc).mp hm.followed, hloc, ?_⟩ hs
      rw [hsends.url]
      exact htarget

/-- A request of a transfer belongs to one of its passes. -/
theorem Run.mem_requests (hr : Run w.hops url 0 ts o.passes code h') {q : Request}
    (hq : q ∈ requests o.passes.flatten) : ∃ (i : Nat) (t : Transfer), ts[i]? = some t ∧ t.Sends q := by
  have hmem : ∃ (i : Nat) (events : List Event), o.passes[i]? = some events ∧
      q ∈ requests events := by
    unfold requests at hq
    obtain ⟨e, he, heq⟩ := List.mem_filterMap.mp hq
    obtain ⟨events, hevents, he'⟩ := List.mem_flatten.mp he
    obtain ⟨i, hi⟩ := List.getElem?_of_mem hevents
    exact ⟨i, events, hi, List.mem_filterMap.mpr ⟨e, he', heq⟩⟩
  obtain ⟨i, events, hi, hqi⟩ := hmem
  have hlt : i < ts.length := by
    rw [hr.length]
    exact (List.getElem?_eq_some_iff.mp hi).1
  have ht := List.getElem?_eq_getElem hlt
  have hcalls := hr.calls i _ ht
  rw [hi, Option.some.injEq, Nat.zero_add] at hcalls
  refine ⟨i, _, ht, ?_⟩
  rw [hcalls] at hqi
  rcases pass_sends (w.hops i) ts[i] url with ⟨q', hq', hs, -⟩ | ⟨hno, -⟩
  · rw [hq'] at hqi
    rw [List.mem_singleton.mp hqi]
    exact hs
  · rw [hno] at hqi
    cases hqi

/-- **No unverified TLS.**  Without verification a transfer sends no request to an `https` URL and
ends with an error where it comes to one, if and only if no redirect leads it there. -/
theorem tls_verified_iff (w : World) (h : Handle) : ∃ o, perform w h = some o ∧
    (TlsVerified w h o ↔
      (Unverified h → ∀ i target, LedTo w h o i target → ¬Https target)) := by
  obtain ⟨o, ho⟩ := perform_total w h
  refine ⟨o, ho, fun hv hu i target hled hs => ?_, fun hnone => ⟨?_, ?_, ?_⟩⟩
  · have hcode := hv.redirected i target hled hs hu
    rcases perform_run ho with ⟨hpasses, -⟩ | ⟨url, t₀, ts, -, -, -, hr, -⟩
    · have hlt := hled.goesOn
      rw [hpasses] at hlt
      cases hlt
    · obtain ⟨t, t', -, hstop, -⟩ := hr.last
      rw [hcode] at hstop
      exact pass_code ⟨t', hstop⟩
  · intro q hq hs
    rcases perform_run ho with ⟨-, hno⟩ | ⟨url, t₀, ts, -, href, hbegin, hr, hreq⟩
    · rw [hno] at hq
      cases hq
    · rw [hreq] at hq
      obtain ⟨i, t, ht, hsends⟩ := hr.mem_requests hq
      rw [hsends.url] at hs
      refine hr.verified (fun t' ht' => ?_) (refused_none_verified href) hnone i t ht hs
      cases ht'
      exact ⟨hbegin.handle, hbegin.url⟩
  · intro url hurl ha hs hu
    obtain ⟨message, href⟩ := refused_accepted ha hs hu
    unfold perform at ho
    rw [hurl] at ho
    dsimp only at ho
    rw [href] at ho
    cases ho
    rfl
  · intro i target hled hs hu
    exact absurd hs (hnone hu i target hled)

/-- A plain `http` transfer without verification. -/
def unverifiedHttp : Handle :=
  { easyInit with url := some (str "http://a/"), followlocation := true, sslVerifypeer := false }

/-- A redirect to `https` gets its request. -/
theorem tls_request_unverified : ¬∀ (w : World) (h : Handle) (o : Outcome),
    perform w h = some o → TlsVerified w h o := by
  intro hall
  have hurls : (perform (redirectOnce 301 (str "https://a/")) unverifiedHttp).map (fun o =>
      (requests o.events).map (·.url)) = some [str "http://a/", str "https://a/"] := by
    decide +kernel
  obtain ⟨o, ho, hreqs⟩ := Option.map_eq_some_iff.mp hurls
  have hmem : str "https://a/" ∈ (requests o.events).map (·.url) := by
    rw [hreqs]
    exact List.mem_cons_of_mem _ List.mem_cons_self
  obtain ⟨q, hq, hqurl⟩ := List.mem_map.mp hmem
  refine (hall _ _ o ho).requests q hq ?_ (.inl rfl)
  rw [hqurl]
  unfold Https
  decide +kernel

end Curl
