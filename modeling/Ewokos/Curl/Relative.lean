import Ewokos.Curl.Url

/-!
# curl: relative redirects

`curl_redirect_url` against the host of its base.

* `Parts` — an absolute URL as scheme, authority and the rest.
* `redirectUrl_parts` — what a reference without `"://"` keeps of the base: its scheme, its
  authority, and the first bytes of the rest.

Main result: `redirectUrl_stays_iff`.
-/

set_option autoImplicit false

namespace Curl

open CString

/-! ## The specification -/

/-- An `http` or `https` URL. -/
def Absolute (url : CStr) : Prop :=
  lower (url.take 7) = str "http" ++ schemeSep ∨ lower (url.take 8) = str "https" ++ schemeSep

def isAlpha (c : UInt8) : Bool := (97 ≤ c && c ≤ 122) || (65 ≤ c && c ≤ 90)

/-- A byte of a scheme name. -/
def isSchemeByte (c : UInt8) : Bool :=
  isAlpha c || (48 ≤ c && c ≤ 57) || c == chr '+' || c == chr '-' || c == chr '.'

/-- It starts with `scheme:`. -/
def leadingScheme (location : CStr) : Bool :=
  let name := location.takeWhile isSchemeByte
  name.head?.any isAlpha && location[name.length]? == some (chr ':')

/-- What stands behind the authority. -/
def restOf (url : CStr) : Option CStr :=
  (strstr url schemeSep).map fun i =>
    (url.drop (i + 3)).dropWhile fun c => !authorityEnd.contains c

/-- The redirect keeps scheme and authority, and replaces everything behind them when `location`
starts with `/`. -/
def StaysOnHost (base location : CStr) : Prop :=
  ∃ r, redirectUrl base location = some r ∧ schemeOf r = schemeOf base ∧
    authorityOf r = authorityOf base ∧
    (location.head? = some (chr '/') → ∃ s a, schemeOf base = some s ∧ authorityOf base = some a ∧
      r = s ++ (schemeSep ++ (a ++ location)))

/-- No `"://"` in `location`; a path behind the authority when `location` starts with `/`, and
something when it continues a path. -/
structure Resolvable (base location : CStr) : Prop where
  noUrl : strstr location schemeSep = none
  path : location.head? = some (chr '/') → ∀ t ∈ restOf base, ∀ c ∈ t.head?, c = chr '/'
  behind : restOf base = some [] → ∀ c ∈ location.head?, c ∈ authorityEnd

/-! ## The parts of a URL -/

/-- `url` is `s://a` and the rest `t`. -/
structure Parts (url s a t : CStr) : Prop where
  eq : url = s ++ (schemeSep ++ (a ++ t))
  scheme : lower s = str "http" ∨ lower s = str "https"
  authority : ∀ c ∈ a, c ∉ authorityEnd
  rest : ∀ c ∈ t.head?, c ∈ authorityEnd

variable {base location s a t : CStr}

theorem isAlpha_tolower {c : UInt8} (h : isAlpha (tolower c) = true) : isAlpha c = true := by
  by_cases hc : isAlpha c = true
  · exact hc
  · have hup : (65 ≤ c && c ≤ 90) = false := by
      unfold isAlpha at hc
      simp only [Bool.or_eq_true, not_or] at hc
      exact Bool.eq_false_iff.mpr hc.2
    unfold tolower at h
    rw [hup] at h
    exact h

/-- A scheme name is made of letters. -/
theorem Parts.letters (h : Parts base s a t) : ∀ c ∈ s, isAlpha c = true := by
  intro c hc
  have hmem : tolower c ∈ lower s := List.mem_map_of_mem hc
  have hall : ∀ d ∈ str "http" ++ str "https", isAlpha d = true := by decide +kernel
  refine isAlpha_tolower (hall _ ?_)
  rcases h.scheme with hs | hs <;> rw [hs] at hmem
  · exact List.mem_append_left _ hmem
  · exact List.mem_append_right _ hmem

theorem Parts.noColon (h : Parts base s a t) : chr ':' ∉ s := by
  intro hc
  have := h.letters _ hc
  revert this
  decide

/-- Whatever comes behind it, the scheme ends at its separator. -/
theorem Parts.strstr (h : Parts base s a t) (l : CStr) :
    strstr (s ++ (schemeSep ++ l)) schemeSep = some s.length :=
  strstr_append h.noColon

theorem Parts.schemeOf_append (h : Parts base s a t) (l : CStr) :
    schemeOf (s ++ (schemeSep ++ l)) = some s := by
  rw [schemeOf, h.strstr, Option.map_some, List.take_left]

theorem Parts.drop (l : CStr) : (s ++ (schemeSep ++ l)).drop (s.length + 3) = l := by
  rw [← List.drop_drop, List.drop_left]
  rfl

theorem Parts.authorityOf_append (h : Parts base s a t) (l : CStr) :
    authorityOf (s ++ (schemeSep ++ (a ++ l))) =
      some (a ++ l.takeWhile fun c => !authorityEnd.contains c) := by
  rw [authorityOf, h.strstr, Option.map_some, Parts.drop]
  congr 1
  apply List.takeWhile_append_of_pos
  intro c hc
  simpa using h.authority c hc

theorem Parts.restOf_append (h : Parts base s a t) (l : CStr) :
    restOf (s ++ (schemeSep ++ (a ++ l))) =
      some (l.dropWhile fun c => !authorityEnd.contains c) := by
  rw [restOf, h.strstr, Option.map_some, Parts.drop]
  congr 1
  apply List.dropWhile_append_of_pos
  intro c hc
  simpa using h.authority c hc

/-- No byte of a text belongs to the authority before it when it starts with an end of one. -/
theorem takeWhile_nil_iff {l : CStr} :
    l.takeWhile (fun c => !authorityEnd.contains c) = [] ↔ ∀ c ∈ l.head?, c ∈ authorityEnd := by
  cases l with
  | nil => simp
  | cons c l => simp [List.takeWhile_cons]

theorem Parts.authorityOf (h : Parts base s a t) : authorityOf base = some a := by
  rw [h.eq, h.authorityOf_append, takeWhile_nil_iff.mpr h.rest, List.append_nil]

theorem Parts.schemeOf (h : Parts base s a t) : schemeOf base = some s := by
  rw [h.eq, h.schemeOf_append]

theorem Parts.restOf (h : Parts base s a t) : restOf base = some t := by
  rw [h.eq, h.restOf_append]
  have hsplit := List.takeWhile_append_dropWhile (p := fun c => !authorityEnd.contains c) (l := t)
  rw [takeWhile_nil_iff.mpr h.rest] at hsplit
  exact congrArg Option.some hsplit

theorem exists_parts (h : Absolute base) : ∃ s a t, Parts base s a t := by
  have split (name : CStr) (hn : name = str "http" ∨ name = str "https")
      (hl : lower (base.take (name.length + 3)) = name ++ schemeSep) :
      ∃ s a t, Parts base s a t := by
    have hname : lower (base.take name.length) = name := by
      have htake := congrArg (List.take name.length) hl
      rw [List.take_left, lower, ← List.map_take, List.take_take, Nat.min_eq_left (by omega)]
        at htake
      exact htake
    refine ⟨base.take name.length,
      (base.drop (name.length + 3)).takeWhile fun c => !authorityEnd.contains c,
      (base.drop (name.length + 3)).dropWhile fun c => !authorityEnd.contains c, ?_, ?_, ?_, ?_⟩
    · rw [List.takeWhile_append_dropWhile]
      exact split_of_scheme name hl
    · rw [hname]
      exact hn
    · intro c hc
      simpa using List.mem_takeWhile_imp hc
    · intro c hc
      have := List.head?_dropWhile_not (fun c => !authorityEnd.contains c)
        (base.drop (name.length + 3))
      rw [Option.mem_def.mp hc] at this
      simpa using this
  rcases h with h | h
  · exact split (str "http") (.inl rfl) h
  · exact split (str "https") (.inr rfl) h

/-! ## The redirect -/

/-- The last slash of a path is not before its first byte. -/
theorem lastSlash_ge {p stop : Nat} (h : base[p]? = some (chr '/')) (hlt : p < stop) :
    ∃ q, lastSlash base p stop = some q ∧ p ≤ q := by
  have hfold : ∀ (l : List Nat) (q : Nat), (∀ x ∈ l, p ≤ x) → p ≤ q →
      ∃ q', l.foldl (fun last x => if base[x]? = some (chr '/') then some x else last) (some q) =
        some q' ∧ p ≤ q' := by
    intro l
    induction l with
    | nil => exact fun q _ hq => ⟨q, rfl, hq⟩
    | cons x l ih =>
      intro q hl hq
      rw [List.foldl_cons]
      split
      · exact ih x (fun y hy => hl y (List.mem_cons_of_mem _ hy)) (hl x List.mem_cons_self)
      · exact ih q (fun y hy => hl y (List.mem_cons_of_mem _ hy)) hq
  obtain ⟨n, hn⟩ : ∃ n, stop - p = n + 1 := ⟨stop - p - 1, by omega⟩
  unfold lastSlash
  rw [hn, List.range'_succ, List.foldl_cons, if_pos h]
  refine hfold _ p (fun x hx => ?_) (Nat.le_refl p)
  have := (List.mem_range'_1.mp hx).1
  omega

theorem take_parts (k : Nat) : (s ++ (schemeSep ++ (a ++ t))).take (s.length + 3 + a.length + k) =
    s ++ (schemeSep ++ (a ++ t.take k)) := by
  have hsep : schemeSep.length = 3 := rfl
  rw [show s.length + 3 + a.length + k = s.length + (schemeSep.length + (a.length + k)) by omega,
    List.take_length_add_append, List.take_length_add_append, List.take_length_add_append]

/-- What a reference keeps of the base: the bytes before the first slash when it starts with one,
and else something behind the authority, if there is anything. -/
theorem redirectUrl_parts (h : Parts base s a t) (hno : strstr location schemeSep = none)
    (hrel : ¬(location[0]? = some (chr '/') ∧ location[1]? = some (chr '/'))) :
    ∃ k, redirectUrl base location = some (s ++ (schemeSep ++ (a ++ (t.take k ++ location)))) ∧
      (location.head? = some (chr '/') → k = (strchr t (chr '/')).getD t.length) ∧
      (location.head? ≠ some (chr '/') → t ≠ [] → 0 < k) := by
  have hstr : strstr base schemeSep = some s.length := by
    rw [h.eq, h.strstr]
  have hdrop : base.drop (s.length + 3) = a ++ t := by
    rw [h.eq, Parts.drop]
  have hlen : base.length = s.length + 3 + a.length + t.length := by
    rw [h.eq]
    simp only [List.length_append, show schemeSep.length = 3 from rfl]
    omega
  have hnone : strchr a (chr '/') = none := by
    refine List.findIdx?_eq_none_iff.mpr fun c hc => beq_eq_false_iff_ne.mpr ?_
    rintro rfl
    exact h.authority _ hc (by decide)
  have hpath : (strchr (base.drop (s.length + 3)) (chr '/')).map (· + (s.length + 3)) =
      (strchr t (chr '/')).map (s.length + 3 + a.length + ·) := by
    unfold strchr at hnone ⊢
    rw [hdrop, List.findIdx?_append, hnone, Option.none_or, Option.map_map]
    congr 1
    funext p
    simp only [Function.comp_apply]
    omega
  have keep (k : Nat) : base.take (s.length + 3 + a.length + k) ++ location =
      s ++ (schemeSep ++ (a ++ (t.take k ++ location))) := by
    rw [h.eq, take_parts]
    simp only [List.append_assoc]
  unfold redirectUrl
  rw [hno, hstr, if_neg (by decide)]
  dsimp only
  rw [if_neg hrel, hpath, ← List.head?_eq_getElem?]
  cases hp : strchr t (chr '/') with
  | none =>
    have hall : base.take base.length ++ location =
        s ++ (schemeSep ++ (a ++ (t.take t.length ++ location))) := by
      rw [hlen, keep]
    refine ⟨t.length, ?_, fun _ => rfl, fun _ ht => List.length_pos_iff.mpr ht⟩
    simp only [Option.map_none, Option.getD_none, Option.bind_none, Option.elim_none, hall, ite_self]
  | some p =>
    obtain ⟨hlt, hslash⟩ := strchr_some hp
    have hbase : base[s.length + 3 + a.length + p]? = some (chr '/') := by
      have hget : (base.drop (s.length + 3))[a.length + p]? = t[p]? := by
        rw [hdrop, List.getElem?_append_right (by omega), Nat.add_sub_cancel_left]
      rw [List.getElem?_drop, hslash] at hget
      rw [← hget]
      congr 1
      omega
    have hstop : s.length + 3 + a.length + p <
        ((strpbrk (base.drop (s.length + 3 + a.length + p)) (str "?#")).map
          (· + (s.length + 3 + a.length + p))).getD base.length := by
      cases hq : strpbrk (base.drop (s.length + 3 + a.length + p)) (str "?#") with
      | none =>
        rw [Option.map_none, Option.getD_none]
        omega
      | some q =>
        obtain ⟨hql, hqc, -⟩ := List.findIdx?_eq_some_iff_getElem.mp hq
        rw [Option.map_some, Option.getD_some]
        have hne : q ≠ 0 := by
          rintro rfl
          have hfirst : (base.drop (s.length + 3 + a.length + p))[0]? = some (chr '/') := by
            rw [List.getElem?_drop, Nat.add_zero, hbase]
          rw [List.getElem?_eq_getElem hql, Option.some.injEq] at hfirst
          rw [hfirst] at hqc
          revert hqc
          decide
        omega
    rw [Option.map_some, Option.bind_some, Option.bind_some, Option.getD_some]
    generalize ((strpbrk (base.drop (s.length + 3 + a.length + p)) (str "?#")).map
      (· + (s.length + 3 + a.length + p))).getD base.length = stop at hstop
    by_cases hs : location.head? = some (chr '/')
    · rw [if_pos hs, keep]
      exact ⟨p, rfl, fun _ => rfl, fun hn => absurd hs hn⟩
    · rw [if_neg hs]
      by_cases hq : location.head? = some (chr '?')
      · obtain ⟨k, rfl⟩ : ∃ k, stop = s.length + 3 + a.length + k :=
          ⟨stop - (s.length + 3 + a.length), by omega⟩
        rw [if_pos hq, keep]
        exact ⟨k, rfl, fun hn => absurd hn hs, fun _ _ => by omega⟩
      · obtain ⟨q, hlast, hge⟩ := lastSlash_ge hbase hstop
        obtain ⟨k, rfl⟩ : ∃ k, q = s.length + 3 + a.length + k :=
          ⟨q - (s.length + 3 + a.length), by omega⟩
        rw [if_neg hq, hlast, Option.elim_some, Nat.add_assoc, keep]
        exact ⟨k + 1, rfl, fun hn => absurd hn hs, fun _ _ => Nat.succ_pos k⟩

/-! ## The result -/

/-- A URL of the same scheme starts with it. -/
theorem Parts.leadingScheme (h : Parts base s a t) (l : CStr) :
    leadingScheme (s ++ (schemeSep ++ l)) = true := by
  have hname : (s ++ (schemeSep ++ l)).takeWhile isSchemeByte = s := by
    rw [List.takeWhile_append_of_pos]
    · exact List.append_nil s
    · intro c hc
      unfold isSchemeByte
      rw [h.letters c hc]
      rfl
  obtain ⟨c, s', rfl⟩ : ∃ c s', s = c :: s' := by
    cases s with
    | nil => rcases h.scheme with hs | hs <;> cases hs
    | cons c s' => exact ⟨c, s', rfl⟩
  unfold Curl.leadingScheme
  dsimp only
  rw [hname, List.getElem?_append_right (Nat.le_refl _), Nat.sub_self]
  have hc := h.letters c List.mem_cons_self
  simpa using ⟨hc, rfl⟩

/-- **Relative redirects stay on the host.**  A reference that is not a URL by itself keeps scheme
and authority of the base, and is put behind them when it starts with `/`, if and only if it is
resolvable. -/
theorem redirectUrl_stays_iff (hbase : Absolute base) (hscheme : leadingScheme location = false)
    (hrel : ¬str "//" <+: location) : StaysOnHost base location ↔ Resolvable base location := by
  obtain ⟨s, a, t, h⟩ := exists_parts hbase
  have hdouble : ¬(location[0]? = some (chr '/') ∧ location[1]? = some (chr '/')) := by
    rintro ⟨h₀, h₁⟩
    match location, h₀, h₁ with
    | x :: y :: l, h₀, h₁ =>
      obtain rfl := Option.some.inj h₀
      obtain rfl := Option.some.inj h₁
      exact hrel ⟨l, rfl⟩
  constructor
  · rintro ⟨r, hr, hs, ha, hpath⟩
    rw [h.schemeOf] at hs hpath
    rw [h.authorityOf] at ha hpath
    have hno : strstr location schemeSep = none := by
      cases hstr : strstr location schemeSep with
      | none => rfl
      | some i =>
        -- the reference is taken for a URL, whose scheme leads it
        obtain ⟨rest, hrest⟩ := strstr_some hstr
        unfold redirectUrl at hr
        rw [hstr] at hr
        obtain rfl := Option.some.inj hr
        rw [schemeOf, hstr, Option.map_some, Option.some.injEq] at hs
        rw [hs] at hrest
        rw [hrest, h.leadingScheme] at hscheme
        cases hscheme
    obtain ⟨k, hk, habs, -⟩ := redirectUrl_parts h hno hdouble
    obtain rfl := Option.some.inj (hr.symm.trans hk)
    refine ⟨hno, fun hl t' ht c hc => ?_, fun ht c hc => ?_⟩
    · obtain rfl := Option.some.inj (h.restOf.symm.trans ht)
      obtain ⟨s', a', hs', ha', hall⟩ := hpath hl
      obtain rfl := Option.some.inj hs'
      obtain rfl := Option.some.inj ha'
      have htake : t.take k ++ location = location :=
        List.append_cancel_left (List.append_cancel_left (List.append_cancel_left hall))
      have hnil : t.take k = [] := by
        have hlen := congrArg List.length htake
        rw [List.length_append] at hlen
        exact List.eq_nil_of_length_eq_zero (by omega)
      have hzero : k = 0 := by
        rcases List.take_eq_nil_iff.mp hnil with hz | hn
        · exact hz
        · rw [hn] at hc
          cases hc
      rw [hzero] at habs
      cases hp : strchr t (chr '/') with
      | none =>
        rw [hp, Option.getD_none] at habs
        rw [List.eq_nil_of_length_eq_zero (habs hl).symm] at hc
        cases hc
      | some p =>
        rw [hp, Option.getD_some] at habs
        obtain rfl := habs hl
        obtain ⟨-, hslash⟩ := strchr_some hp
        rw [List.head?_eq_getElem?] at hc
        exact (Option.some.inj (hslash.symm.trans hc)).symm
    · obtain rfl := Option.some.inj (h.restOf.symm.trans ht)
      rw [List.take_nil, List.nil_append, h.authorityOf_append, Option.some.injEq] at ha
      exact takeWhile_nil_iff.mp (List.append_cancel_left (ha.trans (List.append_nil a).symm)) c hc
  · rintro ⟨hno, hpath, hbehind⟩
    obtain ⟨k, hk, habs, hpos⟩ := redirectUrl_parts h hno hdouble
    have hkeep : ∀ c ∈ (t.take k ++ location).head?, c ∈ authorityEnd := by
      intro c hc
      cases t with
      | nil =>
        rw [List.take_nil, List.nil_append] at hc
        exact hbehind h.restOf c hc
      | cons d t =>
        have hd := h.rest d rfl
        cases k with
        | zero =>
          rw [List.take_zero, List.nil_append] at hc
          by_cases hl : location.head? = some (chr '/')
          · obtain rfl := Option.some.inj (hl.symm.trans hc)
            decide
          · exact absurd (hpos hl (List.cons_ne_nil d t)) (Nat.lt_irrefl 0)
        | succ k =>
          obtain rfl := Option.some.inj hc
          exact hd
    refine ⟨_, hk, ?_, ?_, fun hl => ⟨s, a, h.schemeOf, h.authorityOf, ?_⟩⟩
    · rw [h.schemeOf_append, h.schemeOf]
    · rw [h.authorityOf_append, takeWhile_nil_iff.mpr hkeep, List.append_nil, h.authorityOf]
    · have hzero : t.take k = [] := by
        rw [habs hl]
        cases t with
        | nil => rfl
        | cons d t =>
          have hd := hpath hl _ h.restOf d rfl
          subst hd
          rfl
      rw [hzero, List.nil_append]

/-- A file beside the one before. -/
theorem redirectUrl_stays_sibling : StaysOnHost (str "http://h/a?b") (str "c") :=
  (redirectUrl_stays_iff (.inl (by decide +kernel)) (by decide +kernel) (by decide +kernel)).mpr
    ⟨by decide +kernel, by decide +kernel, by decide +kernel⟩

/-- Behind a base without a path, the reference becomes a part of the host name. -/
theorem redirectUrl_leaves_host : ¬∀ base location : CStr, Absolute base →
    leadingScheme location = false → ¬str "//" <+: location → StaysOnHost base location := by
  intro h
  obtain ⟨r, hr, -, ha, -⟩ := h (str "http://example.com") (str "index.html")
    (.inl (by decide +kernel)) (by decide +kernel) (by decide +kernel)
  have hresult : redirectUrl (str "http://example.com") (str "index.html") =
      some (str "http://example.comindex.html") := by decide +kernel
  obtain rfl := Option.some.inj (hresult.symm.trans hr)
  revert ha
  decide +kernel

end Curl
