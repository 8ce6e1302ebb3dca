import Ewokos.Curl.Delivery
import Ewokos.Curl.Options

/-!
# curl: refused options and disallowed schemes

* `history` — the handles after a sequence of calls, each with whether a `curl_easy_setopt` on it,
  or on the handle it is a copy of, was refused.
* `SchemeIn` — the scheme of a URL and a mask of protocols.
* `Traced` — the locals of `curl_perform` at the start of each pass of a transfer.

Main result: `fails_closed`.
-/

set_option autoImplicit false

namespace Curl

open CString

/-! ## Schemes -/

/-- The scheme of the URL, up to case, is one of the mask. -/
def SchemeIn (url : CStr) (protocols : UInt64) : Prop :=
  lower (url.take 8) = str "https://" ∧ protocols &&& CURLPROTO_HTTPS ≠ 0 ∨
    lower (url.take 7) = str "http://" ∧ protocols &&& CURLPROTO_HTTP ≠ 0

theorem schemeAllowed_in {url : CStr} {protocols : UInt64}
    (h : schemeAllowed url protocols = true) : SchemeIn url protocols := by
  unfold schemeAllowed at h
  split at h
  · rename_i hs
    exact .inl ⟨strncasecmp_iff.mp hs, by simpa using h⟩
  · split at h
    · rename_i hs
      exact .inr ⟨strncasecmp_iff.mp hs, by simpa using h⟩
    · cases h

/-! ## One pass -/

/-- A pass goes on with the same URL, or with the target of a redirect that is allowed. -/
def Hopped (t t' : Transfer) : Prop :=
  t'.currentUrl = t.currentUrl ∧ t'.redirects = t.redirects ∨
    t'.redirects = t.redirects + 1 ∧
      schemeAllowed t'.currentUrl t.handle.redirProtocols = true

theorem retryOrStop_hopped {t t' : Transfer} {code : Code}
    (h : retryOrStop t code = .again t') : t'.currentUrl = t.currentUrl ∧
      t'.redirects = t.redirects := by
  rcases ite_eq_iff.mp h with ⟨-, h⟩ | ⟨-, h⟩
  · cases h
    exact ⟨rfl, rfl⟩
  · cases h

theorem followRedirect_hopped {x : Hop} {t t' : Transfer} {status : Int} {location : CStr}
    (h : followRedirect x t status location = .again t') : t'.redirects = t.redirects + 1 ∧
      schemeAllowed t'.currentUrl t.handle.redirProtocols = true := by
  unfold followRedirect at h
  dsimp only at h
  split at h
  · cases h
  · split at h
    · cases h
    · split at h
      · cases h
      · rename_i hs
        cases h
        exact ⟨rfl, by simpa using hs⟩

theorem redirProtocols_of_config {h h' : Handle} (hc : h'.config = h.config) :
    h'.redirProtocols = h.redirProtocols := by
  have hr := congrArg Handle.redirProtocols hc
  exact hr

theorem receive_hopped {x : Hop} {t t' : Transfer} {r : Response}
    (h : (receive x t r).1 = .again t') : Hopped t t' := by
  unfold receive at h
  split at h
  · generalize mapResponseError t.handle r = out at h
    obtain ⟨code, h'⟩ := out
    obtain ⟨hu, hd⟩ := retryOrStop_hopped h
    exact .inl ⟨hu, hd⟩
  · dsimp only at h
    split at h
    · cases h
    · have hc := (processResponseHeaders_mild
        { t.handle with responseCode := r.status, effectiveUrl := some t.currentUrl } x r).2
      generalize processResponseHeaders
        { t.handle with responseCode := r.status, effectiveUrl := some t.currentUrl } x r = out
        at h hc
      obtain ⟨accepted, h', events⟩ := out
      replace hc : h'.config = t.handle.config := hc
      split at h
      · cases h
      · split at h
        · rw [Hopped, ← redirProtocols_of_config hc]
          exact .inr (followRedirect_hopped h)
        · split at h
          · obtain ⟨hu, hd⟩ := retryOrStop_hopped h
            exact .inl ⟨hu, hd⟩
          · obtain ⟨hu, hd⟩ := retryOrStop_hopped h
            exact .inl ⟨hu, hd⟩

theorem pass_hopped {x : Hop} {t t' : Transfer} {originalUrl : CStr}
    (h : (pass x t originalUrl).1 = .again t') : Hopped t t' := by
  unfold pass at h
  split at h
  · cases h
  · split at h
    · cases h
    · dsimp only at h
      unfold fetched at h
      split at h
      · cases h
      · exact receive_hopped h

/-- What holds of the locals at the start of a pass of a transfer of `h` to `url`. -/
structure Allowed (h : Handle) (url : CStr) (t : Transfer) : Prop where
  options : t.handle.config = h.config
  nonneg : 0 ≤ t.redirects
  first : t.redirects = 0 → t.currentUrl = url
  later : 0 < t.redirects → schemeAllowed t.currentUrl h.redirProtocols = true

theorem pass_allowed {h : Handle} {url : CStr} {x : Hop} {t t' : Transfer}
    (ha : Allowed h url t) (hp : (pass x t url).1 = .again t') : Allowed h url t' := by
  have hc : t'.handle.config = t.handle.config := by
    have := pass_config x t url
    rwa [hp] at this
  have hn := ha.nonneg
  rcases pass_hopped hp with ⟨hu, hd⟩ | ⟨hd, hs⟩
  · exact ⟨hc.trans ha.options, hd ▸ hn, fun h₀ => hu.trans (ha.first (hd ▸ h₀)),
      fun h₀ => hu ▸ ha.later (hd ▸ h₀)⟩
  · rw [redirProtocols_of_config ha.options] at hs
    exact ⟨hc.trans ha.options, by omega, fun h₀ => by omega, fun _ => hs⟩

/-- The request of a pass goes to its current URL. -/
theorem pass_request {x : Hop} {t : Transfer} {originalUrl : CStr} {r : Request}
    (h : r ∈ requests (pass x t originalUrl).2) : r.url = t.currentUrl := by
  have hcase := pass_cases x t originalUrl
  generalize pass x t originalUrl = out at *
  obtain ⟨next, events⟩ := out
  cases hcase with
  | unsent _ mild =>
    dsimp only at h
    rw [requests_quiet mild.1] at h
    cases h
  | @sent r' next events events' quiet url _ fetched =>
    have hr : requests (events ++ .request r' :: events') = [r'] := by
      simp [requests_quiet quiet, fetched_requests fetched]
    replace h : r ∈ requests (events ++ .request r' :: events') := h
    rw [hr] at h
    rw [List.mem_singleton.mp h, url]

/-! ## The passes of a transfer -/

/-- `ts` are the locals at the start of the passes: the first has followed no redirect, each pass
makes the calls `passes` says, and goes on with the next one. -/
structure Traced (hops : Nat → Hop) (url : CStr) (passes : List (List Event))
    (ts : List Transfer) : Prop where
  length : ts.length = passes.length
  start : ∀ t ∈ ts.head?, t.redirects = 0 ∧ t.currentUrl = url
  calls : ∀ (i : Nat) t, ts[i]? = some t → passes[i]? = some (pass (hops i) t url).2
  next : ∀ (i : Nat) t t', ts[i]? = some t → ts[i + 1]? = some t' →
    (pass (hops i) t url).1 = .again t'

/-- The passes from number `i` on, with the locals at the start of each, up to the end of the
transfer. -/
inductive Run (hops : Nat → Hop) (url : CStr) :
    Nat → List Transfer → List (List Event) → Code → Handle → Prop where
  | stop {i : Nat} {t t' : Transfer} {code : Code} (ends : (pass (hops i) t url).1 = .stop code t') :
      Run hops url i [t] [(pass (hops i) t url).2] code t'.handle
  | again {i : Nat} {t t' : Transfer} {ts : List Transfer} {passes : List (List Event)} {code : Code}
      {h : Handle} (goes : (pass (hops i) t url).1 = .again t')
      (rest : Run hops url (i + 1) (t' :: ts) passes code h) :
      Run hops url i (t :: t' :: ts) ((pass (hops i) t url).2 :: passes) code h

theorem performLoop_run {hops : Nat → Hop} {url : CStr} : ∀ {fuel i : Nat} {t : Transfer}
    {code : Code} {h : Handle} {passes : List (List Event)},
    performLoop hops url fuel i t = some (code, h, passes) →
    ∃ ts : List Transfer, Run hops url i (t :: ts) passes code h
  | 0, _, _, _, _, _, h => by cases h
  | fuel + 1, i, t, code, h, passes, hl => by
    unfold performLoop at hl
    have hstop (code : Code) (t' : Transfer) := @Run.stop hops url i t t' code
    have hagain (t' : Transfer) (ts : List Transfer) (passes : List (List Event)) :=
      @Run.again hops url i t t' ts passes code h
    generalize pass (hops i) t url = p at hl hstop hagain
    obtain ⟨next, events⟩ := p
    cases next with
    | stop code t' =>
      cases hl
      exact ⟨[], hstop _ _ rfl⟩
    | again t' =>
      obtain ⟨⟨code', h', passes'⟩, hl', e⟩ := Option.map_eq_some_iff.mp hl
      cases e
      obtain ⟨ts, hrun⟩ := performLoop_run hl'
      exact ⟨t' :: ts, hagain _ _ _ rfl hrun⟩

namespace Run

variable {hops : Nat → Hop} {url : CStr} {i : Nat} {ts : List Transfer}
  {passes : List (List Event)} {code : Code} {h : Handle}

theorem length (hr : Run hops url i ts passes code h) : ts.length = passes.length := by
  induction hr with
  | stop _ => rfl
  | again _ _ ih => exact congrArg (· + 1) ih

/-- The calls of each pass. -/
theorem calls (hr : Run hops url i ts passes code h) : ∀ (k : Nat) t, ts[k]? = some t →
    passes[k]? = some (pass (hops (i + k)) t url).2 := by
  induction hr with
  | stop _ =>
    intro k t ht
    cases k with
    | zero =>
      cases ht
      rfl
    | succ k => cases ht
  | @again i _ _ _ _ _ _ _ _ ih =>
    intro k t ht
    cases k with
    | zero =>
      cases ht
      rfl
    | succ k =>
      have hk := ih k t ht
      rwa [Nat.add_right_comm, Nat.add_assoc] at hk

/-- Each pass but the last goes on with the next one. -/
theorem next (hr : Run hops url i ts passes code h) : ∀ (k : Nat) t t', ts[k]? = some t →
    ts[k + 1]? = some t' → (pass (hops (i + k)) t url).1 = .again t' := by
  induction hr with
  | stop _ =>
    intro k t t' _ ht'
    cases k <;> cases ht'
  | @again i _ _ _ _ _ _ goes _ ih =>
    intro k t t' ht ht'
    cases k with
    | zero =>
      cases ht
      cases ht'
      exact goes
    | succ k =>
      have hk := ih k t t' ht ht'
      rwa [Nat.add_right_comm, Nat.add_assoc] at hk

/-- The last one ends the transfer. -/
theorem last (hr : Run hops url i ts passes code h) : ∃ t t', ts.getLast? = some t ∧
    (pass (hops (i + (ts.length - 1))) t url).1 = .stop code t' ∧ t'.handle = h := by
  induction hr with
  | @stop i t t' _ ends => exact ⟨t, t', rfl, ends, rfl⟩
  | @again i _ t' ts _ _ _ _ _ ih =>
    obtain ⟨u, u', hu, hp, hh⟩ := ih
    refine ⟨u, u', by rwa [List.getLast?_cons_cons], ?_, hh⟩
    rw [List.length_cons, Nat.add_sub_cancel] at hp
    rw [List.length_cons, Nat.add_sub_cancel, List.length_cons]
    rwa [Nat.add_right_comm, Nat.add_assoc] at hp

end Run

/-- Every pass starts with a URL that is allowed. -/
theorem Traced.allowed {hops : Nat → Hop} {h : Handle} {url : CStr} {passes : List (List Event)}
    {ts : List Transfer} (ht : Traced hops url passes ts)
    (hc : ∀ t ∈ ts.head?, t.handle.config = h.config) :
    ∀ (i : Nat) t, ts[i]? = some t → Allowed h url t
  | 0, t, hi => by
    rw [← List.head?_eq_getElem?] at hi
    obtain ⟨hd, hu⟩ := ht.start t hi
    exact ⟨hc t hi, hd.ge, fun _ => hu, fun h₀ => absurd hd (by omega)⟩
  | i + 1, t', hi => by
    have hlt : i < ts.length := by
      have := (List.getElem?_eq_some_iff.mp hi).1
      omega
    have hi' : ts[i]? = some ts[i] := List.getElem?_eq_getElem hlt
    exact pass_allowed (ht.allowed hc i _ hi') (ht.next i _ t' hi' hi)

/-! ## Transfers -/

/-- A transfer that is refused makes no call. -/
theorem perform_refused {w : World} {h : Handle} {o : Outcome}
    (hr : ∀ url, h.url = some url → (refused h url).isSome) (ho : perform w h = some o) :
    requests o.events = [] := by
  unfold perform at ho
  split at ho
  · cases ho
    rfl
  · rename_i url hurl
    obtain ⟨⟨code, message⟩, he⟩ := Option.isSome_iff_exists.mp (hr url hurl)
    rw [he] at ho
    cases ho
    rfl

theorem refused_of_unsupported {h : Handle} (hu : h.unsupportedOption = true) (url : CStr) :
    (refused h url).isSome := by
  unfold refused
  rw [if_pos hu]
  rfl

theorem refused_of_routing {h : Handle}
    (hu : h.proxy.getD [] ≠ [] ∨ h.cookieFile.getD [] ≠ [] ∨ h.resolve ≠ []) (url : CStr) :
    (refused h url).isSome := by
  unfold refused
  by_cases h₁ : h.unsupportedOption = true
  · rw [if_pos h₁]
    rfl
  · rw [if_neg h₁]
    by_cases h₂ : h.proxy.getD [] ≠ []
    · rw [if_pos h₂]
      rfl
    · rw [if_neg h₂, if_pos (hu.resolve_left h₂)]
      rfl

theorem refused_none_scheme {h : Handle} {url : CStr} (hr : refused h url = none) :
    schemeAllowed url h.protocols = true := by
  by_contra hs
  unfold refused at hr
  split_ifs at hr
  all_goals simp_all

/-- A transfer fails before its first request, or is its loop, to a URL that is allowed. -/
theorem perform_first (w : World) (h : Handle) :
    (∃ o, perform w h = some o ∧ requests o.events = []) ∨
      ∃ url t events, h.url = some url ∧ schemeAllowed url h.protocols = true ∧
        Mild h t.handle events ∧ t.currentUrl = url ∧ t.redirects = 0 ∧
        perform w h = (performLoop w.hops url (passBound t.handle) 0 t).map fun (code, h, passes) =>
          ⟨code, h, events, passes⟩ := by
  rcases perform_cases w h with ⟨o, ho, -, hm⟩ | ⟨url, t, events, hurl, -, hm, hu, hd, -, hp⟩
  · exact .inl ⟨o, ho, requests_quiet hm.1⟩
  · by_cases hs : schemeAllowed url h.protocols = true
    · exact .inr ⟨url, t, events, hurl, hs, hm, hu, hd, hp⟩
    · obtain ⟨o, ho⟩ := perform_total w h
      refine .inl ⟨o, ho, perform_refused (fun url' hurl' => ?_) ho⟩
      cases hurl.symm.trans hurl'
      cases hr : refused h url with
      | some e => rfl
      | none => exact absurd (refused_none_scheme hr) hs

/-! ## Histories -/

/-- A handle, and whether `curl_easy_setopt` on it, or on the handle it was copied from before the
copy, has returned `CURLE_NOT_BUILT_IN`. -/
structure Easy where
  handle : Handle
  rejected : Bool

/-- A call of the application; handles are numbered in the order of their creation. -/
inductive EasyCall where
  | init (alloc : Bool)
  | setopt (a : Nat) (option : CURLoption) (arg : VaArg) (alloc : Bool)
  | dup (a : Nat) (alloc : Nat → Bool)
  | perform (a : Nat) (w : World)

/-- The handles behind one call; a call without its handle changes nothing. -/
def easyStep (s : List Easy) : EasyCall → List Easy
  | .init alloc => if alloc then s ++ [⟨easyInit, false⟩] else s
  | .setopt a option arg alloc =>
    match s[a]? with
    | none => s
    | some e =>
      let (code, h) := setopt e.handle option arg alloc
      s.set a ⟨h, e.rejected || code == .notBuiltIn⟩
  | .dup a alloc =>
    match s[a]? with
    | none => s
    | some e =>
      match dupHandle e.handle alloc with
      | none => s
      | some copy => s ++ [⟨copy, e.rejected⟩]
  | .perform a w =>
    match s[a]? with
    | none => s
    | some e =>
      match easyPerform w e.handle with
      | none => s
      | some o => s.set a ⟨o.handle, e.rejected⟩

/-- The handles after a sequence of calls. -/
def history (calls : List EasyCall) : List Easy := calls.foldl easyStep []

/-- A handle on which an option was refused has the mark of it. -/
def Marked (e : Easy) : Prop := e.rejected = true → e.handle.unsupportedOption = true

theorem easyPerform_unsupported {w : World} {h : Handle} {o : Outcome}
    (ho : easyPerform w h = some o) : o.handle.unsupportedOption = h.unsupportedOption := by
  obtain ⟨o', ho', rfl⟩ := Option.map_eq_some_iff.mp ho
  have hc := congrArg Handle.unsupportedOption (perform_config ho')
  exact hc

theorem easyStep_marked {s : List Easy} (hs : ∀ e ∈ s, Marked e) (c : EasyCall) :
    ∀ e ∈ easyStep s c, Marked e := by
  -- the handle at a place of the list
  have hget : ∀ {a : Nat} {e : Easy}, s[a]? = some e → Marked e := fun h =>
    hs _ (List.mem_of_getElem? h)
  have hset : ∀ {a : Nat} {e' : Easy}, Marked e' → ∀ e ∈ s.set a e', Marked e := by
    intro a e' he' e he
    rcases List.mem_or_eq_of_mem_set he with he | rfl
    · exact hs e he
    · exact he'
  have happ : ∀ {e' : Easy}, Marked e' → ∀ e ∈ s ++ [e'], Marked e := by
    intro e' he' e he
    rcases List.mem_append.mp he with he | he
    · exact hs e he
    · rw [List.mem_singleton.mp he]
      exact he'
  cases c with
  | init alloc =>
    dsimp only [easyStep]
    split
    · exact happ fun h => by cases h
    · exact hs
  | setopt a option arg alloc =>
    dsimp only [easyStep]
    split
    · exact hs
    · rename_i e he
      obtain ⟨hkeep, hrefuse⟩ := setopt_marks e.handle option arg alloc
      refine hset fun h => ?_
      rcases Bool.or_eq_true_iff.mp h with h | h
      · exact hkeep (hget he h)
      · exact hrefuse (by simpa using h)
  | dup a alloc =>
    dsimp only [easyStep]
    split
    · exact hs
    · rename_i e he
      split
      · exact hs
      · rename_i copy hd
        have hm := hget he
        refine happ fun h => ?_
        rw [dupHandle_eq hd]
        exact hm h
  | perform a w =>
    dsimp only [easyStep]
    split
    · exact hs
    · rename_i e he
      split
      · exact hs
      · rename_i o ho
        refine hset fun h => ?_
        exact (easyPerform_unsupported ho).trans (hget he h)

theorem history_marked (calls : List EasyCall) : ∀ e ∈ history calls, Marked e := by
  have hrun : ∀ {s : List Easy}, (∀ e ∈ s, Marked e) → ∀ e ∈ calls.foldl easyStep s, Marked e := by
    induction calls with
    | nil => exact fun hs => hs
    | cons c calls ih => exact fun hs => ih (easyStep_marked hs c)
  exact hrun fun e he => by cases he

/-- **The shim fails closed.**  Whatever calls came before, a transfer of a handle makes no request
when an option was refused on it or on the handle it is a copy of, nor while a proxy, a cookie file
or a resolve list is set; and every request goes to the original URL, whose scheme is one of
`protocols`, or to the target of a redirect, whose scheme is one of `redir_protocols`. -/
theorem fails_closed (calls : List EasyCall) : ∀ e ∈ history calls, ∀ w,
    ∃ o, easyPerform w e.handle = some o ∧
      (e.rejected = true → requests o.events = []) ∧
      (e.handle.proxy.getD [] ≠ [] ∨ e.handle.cookieFile.getD [] ≠ [] ∨ e.handle.resolve ≠ [] →
        requests o.events = []) ∧
      (requests o.events = [] ∨ ∃ url ts, e.handle.url = some url ∧
        Traced w.hops url o.passes ts ∧ requests o.events = requests o.passes.flatten ∧
        ∀ (i : Nat) t, ts[i]? = some t → ∀ r ∈ requests (o.passes.getD i []),
          (t.redirects = 0 → r.url = url ∧ SchemeIn r.url e.handle.protocols) ∧
            (t.redirects ≠ 0 → SchemeIn r.url e.handle.redirProtocols)) := by
  intro e he w
  let h := clearTransferResults e.handle
  obtain ⟨o, ho⟩ := perform_total w h
  refine ⟨{ o with handle := { o.handle with result := o.code, completed := true } },
    Option.map_eq_some_iff.mpr ⟨o, ho, rfl⟩, fun hrej => ?_, fun hroute => ?_, ?_⟩
  · have hq : requests o.events = [] := perform_refused
      (fun url _ => refused_of_unsupported (h := h) (history_marked calls e he hrej) url) ho
    exact hq
  · have hq : requests o.events = [] := perform_refused
      (fun url _ => refused_of_routing (h := h) hroute url) ho
    exact hq
  · rcases perform_first w h with ⟨o', ho', hq⟩ | ⟨url, t, events, hurl, hs, hm, hu, hd, hp⟩
    · cases ho.symm.trans ho'
      exact .inl hq
    · rw [ho] at hp
      obtain ⟨⟨code, h', passes⟩, hl, e'⟩ := Option.map_eq_some_iff.mp hp.symm
      cases e'
      obtain ⟨ts, hrun⟩ := performLoop_run hl
      have ht : Traced w.hops url passes (t :: ts) := by
        refine ⟨hrun.length, fun t' ht' => ?_, fun i t' hi => ?_, fun i t' t'' hi hi' => ?_⟩
        · cases ht'
          exact ⟨hd, hu⟩
        · simpa using hrun.calls i t' hi
        · simpa using hrun.next i t' t'' hi hi'
      have hall := ht.allowed (h := h) fun t' ht' => by
        cases ht'
        exact hm.2
      refine .inr ⟨url, t :: ts, hurl, ht, ?_, fun i t' hi r hr => ?_⟩
      · show requests (events ++ passes.flatten) = requests passes.flatten
        rw [requests_append, requests_quiet hm.1, List.nil_append]
      · have ha := hall i t' hi
        have hpass := hrun.calls i t' hi
        rw [Nat.zero_add] at hpass
        dsimp only at hr
        rw [List.getD_eq_getElem?_getD, hpass] at hr
        have hrurl := pass_request hr
        refine ⟨fun h₀ => ?_, fun h₀ => ?_⟩
        · rw [hrurl, ha.first h₀]
          exact ⟨rfl, schemeAllowed_in hs⟩
        · rw [hrurl]
          have hn := ha.nonneg
          exact schemeAllowed_in (ha.later (by omega))

/-- A string argument. -/
def VaArg.ofStr (t : String) : VaArg := ⟨some (str t), [], none, none, true, 0⟩

/-- A handle with a URL, a refused CA file, and a copy. -/
def copyOfRefused : List EasyCall :=
  [.init true, .setopt 0 .url (.ofStr "http://h/") true, .setopt 0 .caInfo (.ofStr "ca") true,
    .dup 0 fun _ => true]

/-- The copy makes no request. -/
theorem fails_closed_copy : ∃ e ∈ history copyOfRefused, e.handle.url = some (str "http://h/") ∧
    ∀ w, ∃ o, easyPerform w e.handle = some o ∧ requests o.events = [] := by
  let e : Easy := ⟨{ easyInit with url := some (str "http://h/"), unsupportedOption := true }, true⟩
  have he : e ∈ history copyOfRefused := List.Mem.tail _ (List.Mem.head _)
  refine ⟨e, he, rfl, fun w => ?_⟩
  obtain ⟨o, ho, hrej, -⟩ := fails_closed copyOfRefused e he w
  exact ⟨o, ho, hrej rfl⟩

end Curl
