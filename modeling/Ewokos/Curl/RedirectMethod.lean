import Ewokos.Curl.Hops

/-!
# curl: the method behind a redirect

The requests of a chain of redirects against libcurl's rule for their methods.

* `RedirectRule` — which method and body a redirect of one status leaves.
* `Redirected` — a redirect between two requests of a transfer.
* `Run.method` — the method and body of every pass: those of the first, until a redirect drops them.

Main result: `redirect_methods_iff`.
-/

set_option autoImplicit false

namespace Curl

open CString

/-! ## The specification -/

def CURL_REDIR_POST_303 : UInt64 := 4
def CURL_REDIR_POST_ALL : UInt64 := 7

/-- Whether the mask keeps a `POST` on a redirect of this status. -/
def keepsPost (mask : UInt64) (status : Int) : Bool :=
  if status = 301 then mask &&& CURL_REDIR_POST_301 != 0
  else if status = 302 then mask &&& CURL_REDIR_POST_302 != 0
  else if status = 303 then mask &&& CURL_REDIR_POST_303 != 0
  else true

/-- The rule for a redirect of `status` from the request `a` to `b`. -/
structure RedirectRule (mask : UInt64) (status : Int) (a b : Request) : Prop where
  kept : a.method = str "POST" → keepsPost mask status = true →
    b.method = str "POST" ∧ b.body = a.body
  dropped : a.method = str "POST" → keepsPost mask status = false →
    b.method = str "GET" ∧ b.body = none
  head : a.method = str "HEAD" → b.method = str "HEAD"

/-- Pass `i` sends `a` and is redirected with `status`, and the next one sends `b`. -/
structure Redirected (w : World) (h : Handle) (o : Outcome) (i : Nat) (status : Int)
    (a b : Request) : Prop where
  sent : requests (o.passes.getD i []) = [a]
  response : ∃ r, (w.hops i).response = some r ∧ r.failed = false ∧ r.Followed h ∧
    r.status = status
  next : requests (o.passes.getD (i + 1) []) = [b]

/-- No `POST` meets a 303 that the mask would keep it on, unless an earlier redirect dropped it, and
a transfer that begins with `HEAD` meets no redirect that the mask would drop a `POST` on, and no
303. -/
structure Unaffected (w : World) (h : Handle) (o : Outcome) : Prop where
  post : firstMethod h = str "POST" → h.postredir &&& CURL_REDIR_POST_303 ≠ 0 →
    ∀ i a b, Redirected w h o i 303 a b →
      ∃ j status a b, j < i ∧ Redirected w h o j status a b ∧
        keepsPost h.postredir status = false
  head : firstMethod h = str "HEAD" → ∀ i status a b, Redirected w h o i status a b →
    status ≠ 303 ∧ keepsPost h.postredir status = true

/-- What the source drops beyond the rule. -/
theorem dropsBody_iff (mask : UInt64) (status : Int) :
    dropsBody status mask = true ↔ status = 303 ∨ keepsPost mask status = false := by
  unfold dropsBody keepsPost
  by_cases h₁ : status = 301
  · subst h₁
    simp
  · by_cases h₂ : status = 302
    · subst h₂
      simp
    · by_cases h₃ : status = 303
      · subst h₃
        simp
      · simp [h₁, h₂, h₃]

/-! ## Runs -/

/-- Pass `i` is redirected, and the redirect drops the body. -/
def Drops (hops : Nat → Hop) (h : Handle) (i : Nat) : Prop :=
  ∃ r, (hops i).response = some r ∧ r.failed = false ∧ r.Followed h ∧
    dropsBody r.status h.postredir = true

variable {w : World} {h h' : Handle} {o : Outcome} {url : CStr} {hops : Nat → Hop}
  {ts : List Transfer} {passes : List (List Event)} {code : Code} {i : Nat}

namespace Run

/-- A pass that sent a request has its locals. -/
theorem sends (hr : Run hops url 0 ts passes code h') {q : Request}
    (hq : requests (passes.getD i []) = [q]) : ∃ t, ts[i]? = some t ∧ t.Sends q := by
  have hlt : i < passes.length := by
    by_contra hge
    rw [List.getD_eq_getElem?_getD, List.getElem?_eq_none (by omega)] at hq
    cases hq
  have hi : i < ts.length := by
    rw [hr.length]
    exact hlt
  have ht := List.getElem?_eq_getElem hi
  have hcalls := hr.calls i _ ht
  rw [List.getD_eq_getElem?_getD, hcalls, Nat.zero_add] at hq
  refine ⟨_, ht, ?_⟩
  rcases pass_sends (hops i) ts[i] url with ⟨q', hq', hs, -⟩ | ⟨hnone, -⟩
  · obtain rfl := List.singleton_inj.mp (hq'.symm.trans hq)
    exact hs
  · cases hnone.symm.trans hq

/-- A pass that goes on has sent one. -/
theorem sent (hr : Run hops url 0 ts passes code h') {t t' : Transfer} (ht : ts[i]? = some t)
    (ht' : ts[i + 1]? = some t') : ∃ q, requests (passes.getD i []) = [q] ∧ t.Sends q := by
  have hnext := hr.next i t t' ht ht'
  have hcalls := hr.calls i t ht
  rw [Nat.zero_add] at hnext hcalls
  rw [List.getD_eq_getElem?_getD, hcalls]
  rcases pass_sends (hops i) t url with ⟨q, hq, hs, -⟩ | ⟨-, u, hu⟩
  · exact ⟨q, hq, hs⟩
  · cases hu.symm.trans hnext

theorem goesOn (hr : Run hops url 0 ts passes code h') {t t' : Transfer} (ht : ts[i]? = some t)
    (ht' : ts[i + 1]? = some t') : Again (hops i) t t' ∧ t'.handle.config = t.handle.config := by
  have hnext := hr.next i t t' ht ht'
  rw [Nat.zero_add] at hnext
  have hconfig := pass_config (hops i) t url
  rw [hnext] at hconfig
  exact ⟨(pass_again hnext).1, hconfig⟩

/-- No pass changes an option. -/
theorem config (hr : Run hops url 0 ts passes code h')
    (hfirst : ∀ t ∈ ts.head?, t.handle = h) :
    ∀ (i : Nat) t, ts[i]? = some t → t.handle.config = h.config
  | 0, t, ht => by
    rw [← List.head?_eq_getElem?] at ht
    rw [hfirst t ht]
  | i + 1, t', ht' => by
    have hlt : i < ts.length := by
      have := (List.getElem?_eq_some_iff.mp ht').1
      omega
    have ht := List.getElem?_eq_getElem hlt
    exact (hr.goesOn ht ht').2.trans (hr.config hfirst i _ ht)

/-- A redirect with both of its requests. -/
theorem moved (hr : Run hops url 0 ts passes code h') (hfirst : ∀ t ∈ ts.head?, t.handle = h)
    {t t' : Transfer} (ht : ts[i]? = some t) (ht' : ts[i + 1]? = some t') {r : Response}
    (hx : (hops i).response = some r) (hf : r.failed = false) (hfollow : r.Followed h) :
    Moved t t' r := by
  have hc := hr.config hfirst i t ht
  cases (hr.goesOn ht ht').1 with
  | retry _ final => exact absurd ((Response.Followed.congr hc).mpr hfollow) (final r hx hf)
  | redirect r' hx' _ hm =>
    obtain rfl := Option.some.inj (hx.symm.trans hx')
    exact hm

/-- The method and body of every pass: those of the first one, until a redirect drops them. -/
theorem method (hr : Run hops url 0 ts passes code h') (hfirst : ∀ t ∈ ts.head?, t.handle = h ∧
    t.method = firstMethod h) : ∀ (i : Nat) t, ts[i]? = some t →
    (∀ j < i, ¬Drops hops h j) ∧ t.method = firstMethod h ∨
      (∃ j < i, Drops hops h j) ∧ t.method = str "GET" ∧ t.hasBody = false
  | 0, t, ht => by
    rw [← List.head?_eq_getElem?] at ht
    exact .inl ⟨fun j hj => absurd hj (Nat.not_lt_zero j), (hfirst t ht).2⟩
  | i + 1, t', ht' => by
    have hlt : i < ts.length := by
      have := (List.getElem?_eq_some_iff.mp ht').1
      omega
    have ht := List.getElem?_eq_getElem hlt
    have hhandle : ∀ t ∈ ts.head?, t.handle = h := fun t ht => (hfirst t ht).1
    have hc := hr.config hhandle i _ ht
    have ih := hr.method hfirst i _ ht
    obtain ⟨hpost, -⟩ := redirect_options hc
    have hfollow (r : Response) : r.Followed ts[i].handle ↔ r.Followed h :=
      Response.Followed.congr hc
    have before (hd : ¬Drops hops h i) : (∀ j < i, ¬Drops hops h j) → ∀ j < i + 1,
        ¬Drops hops h j := by
      intro hall j hj
      rcases Nat.lt_succ_iff_lt_or_eq.mp hj with hj | rfl
      · exact hall j hj
      · exact hd
    have keep (hd : ¬Drops hops h i) (hm : t'.method = ts[i].method)
        (hb : t'.hasBody = ts[i].hasBody) :
        (∀ j < i + 1, ¬Drops hops h j) ∧ t'.method = firstMethod h ∨
          (∃ j < i + 1, Drops hops h j) ∧ t'.method = str "GET" ∧ t'.hasBody = false := by
      rw [hm, hb]
      rcases ih with ⟨hall, hmethod⟩ | ⟨⟨j, hj, hdrop⟩, hget⟩
      · exact .inl ⟨before hd hall, hmethod⟩
      · exact .inr ⟨⟨j, Nat.lt_succ_of_lt hj, hdrop⟩, hget⟩
    cases (hr.goesOn ht ht').1 with
    | retry same final =>
      refine keep ?_ same.method same.hasBody
      rintro ⟨r, hx, hf, hfol, -⟩
      exact final r hx hf ((hfollow r).mpr hfol)
    | redirect r hx hf hm =>
      by_cases hd : dropsBody r.status ts[i].handle.postredir = true
      · refine .inr ⟨⟨i, Nat.lt_succ_self i, r, hx, hf, (hfollow r).mp hm.followed, ?_⟩, hm.drops hd⟩
        rwa [hpost] at hd
      · obtain ⟨hmethod, -, hbody⟩ := hm.keeps (Bool.eq_false_iff.mpr hd)
        refine keep ?_ hmethod hbody
        rintro ⟨r', hx', -, -, hd'⟩
        obtain rfl := Option.some.inj (hx.symm.trans hx')
        rw [hpost] at hd
        exact hd hd'

end Run

/-! ## The result -/

/-- A redirect of a transfer, inside its run. -/
theorem Redirected.inside {status : Int} {a b : Request} (hd : Redirected w h o i status a b)
    (hr : Run w.hops url 0 ts o.passes code h') (hfirst : ∀ t ∈ ts.head?, t.handle = h) :
    ∃ t t' r, ts[i]? = some t ∧ t.Sends a ∧ t'.Sends b ∧ Moved t t' r ∧ r.status = status ∧
      (Drops w.hops h i ↔ dropsBody status h.postredir = true) ∧
      (dropsBody r.status t.handle.postredir = dropsBody status h.postredir) := by
  obtain ⟨t, ht, hs⟩ := hr.sends hd.sent
  obtain ⟨t', ht', hs'⟩ := hr.sends hd.next
  obtain ⟨r, hx, hf, hfollow, rfl⟩ := hd.response
  obtain ⟨hpost, -⟩ := redirect_options (hr.config hfirst i t ht)
  refine ⟨t, t', r, ht, hs, hs', hr.moved hfirst ht ht' hx hf hfollow, rfl, ?_, by rw [hpost]⟩
  constructor
  · rintro ⟨r', hx', -, -, hdrop⟩
    obtain rfl := Option.some.inj (hx.symm.trans hx')
    exact hdrop
  · exact fun hdrop => ⟨r, hx, hf, hfollow, hdrop⟩

/-- What drops the body before a request is a redirect between two requests. -/
theorem Drops.redirected {j : Nat} (hd : Drops w.hops h j)
    (hr : Run w.hops url 0 ts o.passes code h') {a : Request}
    (hsent : requests (o.passes.getD i []) = [a]) (hj : j < i) :
    ∃ status a b, Redirected w h o j status a b ∧ dropsBody status h.postredir = true := by
  obtain ⟨r, hx, hf, hfollow, hdrop⟩ := hd
  obtain ⟨t, ht, -⟩ := hr.sends hsent
  have hi := (List.getElem?_eq_some_iff.mp ht).1
  have hget (k : Nat) (hk : k < ts.length) := List.getElem?_eq_getElem hk
  obtain ⟨q, hq, -⟩ := hr.sent (hget j (by omega)) (hget (j + 1) (by omega))
  have hnext : ∃ q', requests (o.passes.getD (j + 1) []) = [q'] := by
    by_cases hlast : j + 1 = i
    · exact ⟨a, hlast ▸ hsent⟩
    · obtain ⟨q', hq', -⟩ := hr.sent (hget (j + 1) (by omega)) (hget (j + 1 + 1) (by omega))
      exact ⟨q', hq'⟩
  obtain ⟨q', hq'⟩ := hnext
  exact ⟨r.status, q, q', ⟨hq, ⟨r, hx, hf, hfollow, rfl⟩, hq'⟩, hdrop⟩

/-- **Redirect methods.**  All redirects of a transfer follow libcurl's rule if and only if the
transfer is unaffected: what the source misses is the mask's bit for 303, and `HEAD`. -/
theorem redirect_methods_iff (w : World) (h : Handle) : ∃ o, perform w h = some o ∧
    ((∀ i status a b, Redirected w h o i status a b → RedirectRule h.postredir status a b) ↔
      Unaffected w h o) := by
  obtain ⟨o, ho⟩ := perform_total w h
  refine ⟨o, ho, ?_⟩
  rcases perform_run ho with ⟨hpasses, -⟩ | ⟨url, t₀, ts, -, -, hbegin, hr, -⟩
  · have hnone : ∀ i status a b, ¬Redirected w h o i status a b := by
      intro i status a b hd
      have hsent := hd.sent
      rw [hpasses] at hsent
      cases hsent
    exact iff_of_true (fun i status a b hd => absurd hd (hnone i status a b))
      ⟨fun _ _ i a b hd => absurd hd (hnone i 303 a b),
        fun _ i status a b hd => absurd hd (hnone i status a b)⟩
  · have hfirst : ∀ t ∈ (t₀ :: ts).head?, t.handle = h := by
      rintro t ht
      cases ht
      exact hbegin.handle
    have hmethod : ∀ t ∈ (t₀ :: ts).head?, t.handle = h ∧ t.method = firstMethod h := by
      rintro t ht
      cases ht
      exact ⟨hbegin.handle, hbegin.method⟩
    have hgp : str "GET" ≠ str "POST" := by decide +kernel
    have hgh : str "GET" ≠ str "HEAD" := by decide +kernel
    -- the first redirect that drops the body: its request still has the first method
    have least {i : Nat} {status : Int} {a b : Request} (hd : Redirected w h o i status a b)
        (hdrop : dropsBody status h.postredir = true) : ∃ j status a b, j ≤ i ∧
          Redirected w h o j status a b ∧ dropsBody status h.postredir = true ∧
          a.method = firstMethod h ∧ b.method = str "GET" := by
      classical
      obtain ⟨-, -, -, -, -, -, -, -, hiff, -⟩ := hd.inside hr hfirst
      have hex : ∃ j, Drops w.hops h j := ⟨i, hiff.mpr hdrop⟩
      have hle : Nat.find hex ≤ i := Nat.find_min' hex (hiff.mpr hdrop)
      have hred : ∃ status a b, Redirected w h o (Nat.find hex) status a b ∧
          dropsBody status h.postredir = true := by
        rcases Nat.lt_or_eq_of_le hle with hlt | heq
        · exact (Nat.find_spec hex).redirected hr hd.sent hlt
        · rw [heq]
          exact ⟨status, a, b, hd, hdrop⟩
      obtain ⟨status', a', b', hd', hdrop'⟩ := hred
      obtain ⟨t, t', r, ht, hs, hs', hm, -, -, heq⟩ := hd'.inside hr hfirst
      refine ⟨_, status', a', b', hle, hd', hdrop', ?_, ?_⟩
      · rcases hr.method hmethod _ t ht with ⟨-, hfm⟩ | ⟨⟨j, hj, hdj⟩, -⟩
        · rw [hs.method, hfm]
        · exact absurd hdj (Nat.find_min hex hj)
      · rw [hs'.method, (hm.drops (heq.trans hdrop')).1]
    constructor
    · intro hall
      refine ⟨fun hpost hbit i a b hd => ?_, fun hhead i status a b hd => ?_⟩
      · have hkeep : keepsPost h.postredir 303 = true := by
          simpa [keepsPost] using hbit
        obtain ⟨j, status, a', b', hle, hd', hdrop, ha, hb⟩ :=
          least hd ((dropsBody_iff _ _).mpr (.inl rfl))
        have hmask : keepsPost h.postredir status = false := by
          rw [Bool.eq_false_iff]
          intro hk
          exact hgp (hb.symm.trans ((hall _ _ _ _ hd').kept (ha.trans hpost) hk).1)
        have hne : j ≠ i := by
          rintro rfl
          obtain ⟨r, hx, -, -, hstatus⟩ := hd.response
          obtain ⟨r', hx', -, -, hstatus'⟩ := hd'.response
          obtain rfl := Option.some.inj (hx.symm.trans hx')
          rw [← hstatus', hstatus, hkeep] at hmask
          cases hmask
        exact ⟨j, status, a', b', by omega, hd', hmask⟩
      · have hnot : ¬dropsBody status h.postredir = true := by
          intro hdrop
          obtain ⟨j, status', a', b', -, hd', -, ha, hb⟩ := least hd hdrop
          exact hgh (hb.symm.trans ((hall _ _ _ _ hd').head (ha.trans hhead)))
        rw [dropsBody_iff, not_or, Bool.not_eq_false] at hnot
        exact hnot
    · rintro ⟨hpost, hhead⟩ i status a b hd
      obtain ⟨t, t', r, ht, hs, hs', hm, -, -, heq⟩ := hd.inside hr hfirst
      have hfm (method : CStr) (ha : a.method = method) (hne : str "GET" ≠ method) :
          (∀ j < i, ¬Drops w.hops h j) ∧ firstMethod h = method := by
        rcases hr.method hmethod i t ht with ⟨hnone, hf⟩ | ⟨-, hget, -⟩
        · exact ⟨hnone, by rw [← hf, ← hs.method, ha]⟩
        · exact absurd (hget.symm.trans (hs.method.symm.trans ha)) hne
      refine ⟨fun ha hk => ?_, fun ha hk => ?_, fun ha => ?_⟩
      · obtain ⟨hnone, hf⟩ := hfm _ ha hgp
        have hnot : dropsBody status h.postredir = false := by
          rw [Bool.eq_false_iff, Ne, dropsBody_iff, not_or]
          refine ⟨?_, by rw [hk]; decide⟩
          rintro rfl
          have hbit : h.postredir &&& CURL_REDIR_POST_303 ≠ 0 := by
            simpa [keepsPost] using hk
          obtain ⟨j, status', a', b', hj, hd', hdrop⟩ := hpost hf hbit i a b hd
          obtain ⟨-, -, -, -, -, -, -, -, hiff, -⟩ := hd'.inside hr hfirst
          exact hnone j hj (hiff.mpr ((dropsBody_iff _ _).mpr (.inr hdrop)))
        obtain ⟨hsame, hbody, hhas⟩ := hm.keeps (heq.trans hnot)
        rw [hs'.method, hs'.body, hs.body, hsame, hbody, hhas, ← hs.method]
        exact ⟨ha, rfl⟩
      · obtain ⟨hget, hnobody⟩ := hm.drops (heq.trans ((dropsBody_iff _ _).mpr (.inr hk)))
        rw [hs'.method, hs'.body, hget, hnobody]
        exact ⟨rfl, rfl⟩
      · obtain ⟨-, hf⟩ := hfm _ ha hgh
        obtain ⟨h303, hk⟩ := hhead hf i status a b hd
        have hnot : dropsBody status h.postredir = false := by
          rw [Bool.eq_false_iff, Ne, dropsBody_iff, not_or, hk]
          exact ⟨h303, by decide⟩
        rw [hs'.method, (hm.keeps (heq.trans hnot)).1, ← hs.method, ha]

/-- A server that redirects the first request to `location`, and answers the others. -/
def redirectOnce (status : Int) (location : CStr) : World :=
  { twoChunks with
    hops := fun i => { twoChunks.hops i with
      response := (twoChunks.hops i).response.map fun r =>
        if i = 0 then { r with status := status, location := some location } else r } }

/-- A `POST` with git's options. -/
def posting : Handle :=
  { easyInit with
    url := some (str "http://a/")
    post := true
    postFields := some (str "x")
    followlocation := true
    postredir := CURL_REDIR_POST_ALL }

/-- A 303 turns it into a `GET`, whatever the mask says. -/
theorem post_dropped_on_303 : ¬∀ (w : World) (h : Handle) (o : Outcome), perform w h = some o →
    ∀ i status a b, Redirected w h o i status a b → RedirectRule h.postredir status a b := by
  intro hall
  have hmethods : (perform (redirectOnce 303 (str "/b")) posting).map (fun o =>
      (requests (o.passes.getD 0 []), requests (o.passes.getD 1 []))) =
      some ([⟨str "http://a/", str "POST", [], some (str "x")⟩],
        [⟨str "http://a/b", str "GET", [], none⟩]) := by decide +kernel
  obtain ⟨o, ho, hreqs⟩ := Option.map_eq_some_iff.mp hmethods
  obtain ⟨ha, hb⟩ := Prod.mk.inj hreqs
  have hrule := hall _ _ o ho 0 303 _ _ ⟨ha, ⟨_, rfl, rfl, ⟨rfl, rfl, rfl⟩, rfl⟩, hb⟩
  have hpost := (hrule.kept rfl rfl).1
  revert hpost
  decide +kernel

end Curl
