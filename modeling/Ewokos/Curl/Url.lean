import Ewokos.Lib.CString

/-!
# curl: URLs

The URL functions of `bin/git/port/ewokos/curl_compat.c`: `curl_scheme_allowed`,
`curl_same_origin` and `curl_redirect_url`, over the bytes of a URL.

`SameOrigin` is the notion the source approximates: scheme and authority agree up to case, the
authority ending at the first `/`, `?` or `#`.  `curlSameOrigin_sound` — for URLs with a scheme
separator the source's test never accepts two different origins; `schemeAllowed_schemed` — the
URLs `curl_perform` uses have one.
-/

set_option autoImplicit false

namespace Curl

open CString

def CURLPROTO_HTTP : UInt64 := 1
def CURLPROTO_HTTPS : UInt64 := 2

/-- `"://"`. -/
def schemeSep : CStr := [58, 47, 47]

/-- `curl_scheme_allowed`. -/
def schemeAllowed (url : CStr) (protocols : UInt64) : Bool :=
  if strncasecmp url (str "https://") 8 then protocols &&& CURLPROTO_HTTPS != 0
  else if strncasecmp url (str "http://") 7 then protocols &&& CURLPROTO_HTTP != 0
  else false

/-- `curl_same_origin`. -/
def curlSameOrigin (a b : CStr) : Bool :=
  match strstr a schemeSep, strstr b schemeSep with
  | some aScheme, some bScheme =>
    let aHost := a.drop (aScheme + 3)
    let bHost := b.drop (bScheme + 3)
    let aLen := (strchr aHost (chr '/')).getD aHost.length
    let bLen := (strchr bHost (chr '/')).getD bHost.length
    aScheme == bScheme && aLen == bLen && strncasecmp a b aScheme &&
      strncasecmp aHost bHost aLen
  | _, _ => true

/-- The last `/` of `base` from offset `path` on, before `stop`. -/
def lastSlash (base : CStr) (path stop : Nat) : Option Nat :=
  (List.range' path (stop - path)).foldl
    (fun last p => if base[p]? = some (chr '/') then some p else last) none

/-- `curl_redirect_url`; the copies it allocates are left to the caller's `alloc`. -/
def redirectUrl (base location : CStr) : Option CStr :=
  if (strstr location schemeSep).isSome then some location
  else match strstr base schemeSep with
    | none => none
    | some scheme =>
      if location[0]? = some (chr '/') ∧ location[1]? = some (chr '/') then
        some (base.take scheme ++ str ":" ++ location)
      else
        let host := scheme + 3
        let path := (strchr (base.drop host) (chr '/')).map (· + host)
        let originEnd := path.getD base.length
        if location[0]? = some (chr '/') then some (base.take originEnd ++ location)
        else
          let query := path.bind fun p => (strpbrk (base.drop p) (str "?#")).map (· + p)
          let stop := query.getD base.length
          if location[0]? = some (chr '?') then some (base.take stop ++ location)
          else
            let last := path.bind fun p => lastSlash base p stop
            some (base.take (last.elim originEnd (· + 1)) ++ location)

/-! ## Origins -/

/-- The bytes that end an authority. -/
def authorityEnd : CStr := [47, 63, 35]

/-- What stands before the scheme separator. -/
def schemeOf (url : CStr) : Option CStr := (strstr url schemeSep).map url.take

/-- What stands behind it, up to the path, query or fragment. -/
def authorityOf (url : CStr) : Option CStr :=
  (strstr url schemeSep).map fun i =>
    (url.drop (i + 3)).takeWhile fun c => !authorityEnd.contains c

/-- Scheme and authority agree up to case. -/
def SameOrigin (a b : CStr) : Prop :=
  (schemeOf a).map lower = (schemeOf b).map lower ∧
    (authorityOf a).map lower = (authorityOf b).map lower

instance (a b : CStr) : Decidable (SameOrigin a b) := inferInstanceAs (Decidable (_ ∧ _))

/-- The URL has a scheme separator. -/
def Schemed (url : CStr) : Prop := (strstr url schemeSep).isSome

theorem SameOrigin.refl (a : CStr) : SameOrigin a a := ⟨rfl, rfl⟩

/-- An authority stops before the first `/`, so it can be read off the part `curl_same_origin`
compares. -/
theorem takeWhile_authority (host : CStr) :
    (host.takeWhile fun c => !authorityEnd.contains c) =
      (host.take ((strchr host (chr '/')).getD host.length)).takeWhile
        fun c => !authorityEnd.contains c := by
  rw [strchr_take, List.takeWhile_takeWhile]
  congr 1
  funext c
  by_cases h : c = 47
  · subst h
    rfl
  · simp [h, authorityEnd]

theorem authorityEnd_noLetter :
    ∀ c ∈ authorityEnd, ¬(97 ≤ c ∧ c ≤ 122) ∧ ¬(65 ≤ c ∧ c ≤ 90) := by
  intro c hc
  simp only [authorityEnd, List.mem_cons, List.not_mem_nil, or_false] at hc
  obtain rfl | rfl | rfl := hc <;> decide

/-- **`curl_same_origin` accepts one origin only.** -/
theorem curlSameOrigin_sound {a b : CStr} (ha : Schemed a) (hb : Schemed b)
    (h : curlSameOrigin a b = true) : SameOrigin a b := by
  obtain ⟨i, hi⟩ := Option.isSome_iff_exists.mp ha
  obtain ⟨j, hj⟩ := Option.isSome_iff_exists.mp hb
  unfold curlSameOrigin at h
  simp only [hi, hj, Bool.and_eq_true, beq_iff_eq, strncasecmp_iff] at h
  obtain ⟨⟨⟨hij, hlen⟩, hscheme⟩, hhost⟩ := h
  subst hij
  constructor
  · simp only [schemeOf, hi, hj, Option.map_some]
    exact congrArg some hscheme
  · simp only [authorityOf, hi, hj, Option.map_some]
    rw [takeWhile_authority (a.drop (i + 3)), takeWhile_authority (b.drop (i + 3)), ← hlen,
      lower_takeWhile _ authorityEnd_noLetter, lower_takeWhile _ authorityEnd_noLetter, hhost]

/-- A prefix that folds to a scheme name and the separator ends in the separator. -/
theorem split_of_scheme {url : CStr} (name : CStr)
    (h : lower (url.take (name.length + 3)) = name ++ schemeSep) :
    url = url.take name.length ++ (schemeSep ++ url.drop (name.length + 3)) := by
  have hsep : (url.take (name.length + 3)).drop name.length = schemeSep := by
    apply eq_of_lower
    · intro c hc
      simp only [schemeSep, List.mem_cons, List.not_mem_nil, or_false] at hc
      obtain rfl | rfl | rfl := hc <;> decide
    · unfold lower at h ⊢
      rw [List.map_drop, h, List.drop_left]
  conv_lhs => rw [← List.take_append_drop (name.length + 3) url]
  rw [← hsep, ← List.append_assoc]
  congr 1
  conv_lhs => rw [← List.take_append_drop name.length (url.take (name.length + 3))]
  rw [List.take_take, Nat.min_eq_left (by omega)]

theorem schemed_of_prefix {url : CStr} (name : CStr)
    (h : lower (url.take (name.length + 3)) = name ++ schemeSep) : Schemed url := by
  unfold Schemed
  rw [split_of_scheme name h]
  exact strstr_isSome _ _ _

/-- The URLs a request may go to have a scheme separator. -/
theorem schemeAllowed_schemed {url : CStr} {protocols : UInt64}
    (h : schemeAllowed url protocols = true) : Schemed url := by
  unfold schemeAllowed at h
  split at h
  · rename_i hs
    exact schemed_of_prefix (str "https") (strncasecmp_iff.mp hs)
  · split at h
    · rename_i hs
      exact schemed_of_prefix (str "http") (strncasecmp_iff.mp hs)
    · simp at h

end Curl
