import Ewokos.Curl.Calls

/-!
# curl: options

`curl_easy_setopt` with `curl_set_long_option`, and `curl_easy_duphandle`, of
`bin/git/port/ewokos/curl_compat.c`.

* `CURLoption` — the enumeration of `curl.h`; it starts at 1, so that every option it names is
  nonzero as an `unsupported_option`.
* `VaArg` — the argument behind the option, read as each of the types `va_arg` asks for.
* `setopt`, `dupHandle` — the calls, over the answers of the allocator.
-/

set_option autoImplicit false

namespace Curl

open CString

/-- `CURLoption`, in the order of `curl.h`. -/
inductive CURLoption where
  | url | writeData | writeFunction | headerData | headerFunction | readData | readFunction
  | infile | infileSize | infileSizeLarge | seekFunction | seekData | post | postFields
  | postFieldSize | postFieldSizeLarge | nobody | upload | httpGet | customRequest | httpHeader
  | userAgent | range | encoding | failOnError | followLocation | maxRedirs | postRedir
  | errorBuffer | userPwd | username | password | httpAuth | netrc | cookieFile | cookieJar
  | resolve | sslVerifyPeer | sslVerifyHost | sslVersion | sslCipherList | sslCert | sslCertType
  | sslKey | sslKeyType | keyPasswd | caPath | caInfo | pinnedPublicKey | sslOptions
  | lowSpeedLimit | lowSpeedTime | httpVersion | gssapiDelegation | tcpKeepalive
  | sockoptFunction | verbose | debugFunction | debugData | useSsl | ftpUseEpsv | proxy | proxyType
  | proxyUsername | proxyPassword | proxyHeader | proxyAuth | proxySslCert | proxySslKey
  | proxyKeyPasswd | proxyCaInfo | noProxy | protocols | redirProtocols | ipResolve
  deriving DecidableEq, Repr

def CURL_IPRESOLVE_V6 : Int := 2
def CURL_HTTP_VERSION_1_1 : Int := 2

/-- An argument, as each of the types it is read as: a string, a list, a buffer, an error buffer,
whether a pointer is set, and a `long` or `curl_off_t`. -/
structure VaArg where
  string : Option CStr
  slist : List CStr
  buffer : Option (List UInt8)
  errorBuffer : Option CStr
  pointer : Bool
  long : Int

namespace Handle

/-- `handle->unsupported_option = option` and its result. -/
def unsupported (h : Handle) : Code × Handle := (.notBuiltIn, { h with unsupportedOption := true })

/-- An option that is refused when it asks for something. -/
def unsupportedIf (h : Handle) (asked : Bool) : Code × Handle :=
  if asked then h.unsupported else (.ok, h)

/-- `curl_replace_string` and its error: `set` stores the copy. -/
def replaceString (h : Handle) (value : Option CStr) (alloc : Bool)
    (set : Option CStr → Handle) : Code × Handle :=
  if value.isSome ∧ ¬alloc then (.outOfMemory, h.memoryError) else (.ok, set value)

end Handle

/-- `curl_set_long_option`. -/
def setLongOption (h : Handle) (option : CURLoption) (value : Int) : Code × Handle :=
  match option with
  | .infileSize => (.ok, { h with infileSize := value })
  | .postFieldSize => (.ok, { h with postSize := value })
  | .post =>
    let h := { h with post := value != 0 }
    (.ok, if value ≠ 0 then { h with upload := false, nobody := false } else h)
  | .nobody => (.ok, { h with nobody := value != 0 })
  | .upload =>
    let h := { h with upload := value != 0 }
    (.ok, if value ≠ 0 then { h with post := false, nobody := false } else h)
  | .httpGet =>
    (.ok, if value ≠ 0 then { h with post := false, upload := false, nobody := false } else h)
  | .failOnError => (.ok, { h with failonerror := value != 0 })
  | .followLocation => (.ok, { h with followlocation := value != 0 })
  | .maxRedirs => (.ok, { h with maxredirs := value })
  | .postRedir => (.ok, { h with postredir := UInt64.ofInt value })
  | .httpAuth => (.ok, { h with httpauth := UInt64.ofInt value })
  | .sslVerifyPeer => (.ok, { h with sslVerifypeer := value != 0 })
  | .sslVerifyHost => (.ok, { h with sslVerifyhost := value.bmod 4294967296 })
  | .protocols => (.ok, { h with protocols := UInt64.ofInt value })
  | .redirProtocols => (.ok, { h with redirProtocols := UInt64.ofInt value })
  | .verbose => (.ok, { h with verbose := value != 0 })
  | .netrc | .tcpKeepalive | .proxyType | .proxyAuth => (.ok, h)
  | .ipResolve => h.unsupportedIf (value == CURL_IPRESOLVE_V6)
  | .httpVersion => h.unsupportedIf (value != 0 && value != CURL_HTTP_VERSION_1_1)
  | .sslVersion | .sslOptions | .lowSpeedLimit | .lowSpeedTime | .gssapiDelegation | .useSsl
  | .ftpUseEpsv => h.unsupportedIf (value != 0)
  | _ => h.unsupported

/-- `curl_easy_setopt`; `alloc` answers the copy of a string.  The data pointers of the callbacks
and the seek callback are not members of the model. -/
def setopt (h : Handle) (option : CURLoption) (arg : VaArg) (alloc : Bool) : Code × Handle :=
  match option with
  | .url => h.replaceString arg.string alloc fun s => { h with url := s }
  | .customRequest => h.replaceString arg.string alloc fun s => { h with customRequest := s }
  | .userAgent => h.replaceString arg.string alloc fun s => { h with userAgent := s }
  | .range => h.replaceString arg.string alloc fun s => { h with range := s }
  | .username => h.replaceString arg.string alloc fun s => { h with username := s }
  | .password => h.replaceString arg.string alloc fun s => { h with password := s }
  | .userPwd => h.replaceString arg.string alloc fun s => { h with userpwd := s }
  | .proxy => h.replaceString arg.string alloc fun s => { h with proxy := s }
  | .cookieFile => h.replaceString arg.string alloc fun s => { h with cookieFile := s }
  | .postFields => (.ok, { h with postFields := arg.buffer })
  | .postFieldSizeLarge => (.ok, { h with postSize := arg.long })
  | .infileSizeLarge => (.ok, { h with infileSize := arg.long })
  | .httpHeader => (.ok, { h with headers := arg.slist })
  | .resolve => (.ok, { h with resolve := arg.slist })
  | .writeData | .headerData | .infile | .readData | .seekData | .debugData | .seekFunction =>
    (.ok, h)
  | .errorBuffer => (.ok, { h with errorBuffer := arg.errorBuffer })
  | .writeFunction => (.ok, { h with writeCallback := arg.pointer })
  | .headerFunction => (.ok, { h with headerCallback := arg.pointer })
  | .readFunction => (.ok, { h with readCallback := arg.pointer })
  | .debugFunction => (.ok, { h with debugCallback := arg.pointer })
  | .encoding => h.unsupportedIf (arg.string.getD [] != [])
  | .proxyHeader => h.unsupportedIf (arg.slist != [])
  | .sslCipherList | .caPath | .caInfo | .sslCert | .sslCertType | .sslKey | .sslKeyType
  | .keyPasswd | .pinnedPublicKey | .cookieJar | .proxyUsername | .proxyPassword | .proxySslCert
  | .proxySslKey | .proxyKeyPasswd | .proxyCaInfo =>
    h.unsupportedIf (arg.string.getD [] != [])
  | .noProxy | .sockoptFunction => (.ok, h)
  | _ => setLongOption h option arg.long

/-- `DUP_STRING`. -/
def dupString (member : Option CStr) (alloc : Bool) : Option (Option CStr) :=
  match member with
  | none => some none
  | some s => if alloc then some (some s) else none

/-- `curl_easy_duphandle`; `alloc` answers its allocations in order. -/
def dupHandle (h : Handle) (alloc : Nat → Bool) : Option Handle :=
  if !alloc 0 then none
  else do
    let url ← dupString h.url (alloc 1)
    let customRequest ← dupString h.customRequest (alloc 2)
    let userAgent ← dupString h.userAgent (alloc 3)
    let range ← dupString h.range (alloc 4)
    let username ← dupString h.username (alloc 5)
    let password ← dupString h.password (alloc 6)
    let userpwd ← dupString h.userpwd (alloc 7)
    let proxy ← dupString h.proxy (alloc 8)
    let cookieFile ← dupString h.cookieFile (alloc 9)
    let contentType ← dupString h.contentType (alloc 10)
    let effectiveUrl ← dupString h.effectiveUrl (alloc 11)
    some { h with
      next := none
      added := false
      completed := false
      url := url
      customRequest := customRequest
      userAgent := userAgent
      range := range
      username := username
      password := password
      userpwd := userpwd
      proxy := proxy
      cookieFile := cookieFile
      contentType := contentType
      effectiveUrl := effectiveUrl }

/-! ## What the calls leave -/

theorem setError_unsupported (h : Handle) (code : Code) (message : Option CStr) :
    (h.setError code message).unsupportedOption = h.unsupportedOption := by
  cases message <;> rfl

/-- A call that keeps the mark of an unsupported option, and sets it when it refuses one. -/
def Marks (h : Handle) (r : Code × Handle) : Prop :=
  (h.unsupportedOption = true → r.2.unsupportedOption = true) ∧
    (r.1 = .notBuiltIn → r.2.unsupportedOption = true)

theorem Marks.of_eq {h h' : Handle} (he : h'.unsupportedOption = h.unsupportedOption) :
    Marks h (.ok, h') :=
  ⟨fun hu => he.trans hu, fun hc => by cases hc⟩

theorem unsupported_marks (h : Handle) : Marks h h.unsupported := ⟨fun _ => rfl, fun _ => rfl⟩

theorem unsupportedIf_marks (h : Handle) (asked : Bool) : Marks h (h.unsupportedIf asked) := by
  unfold Handle.unsupportedIf
  split
  · exact unsupported_marks h
  · exact Marks.of_eq rfl

theorem replaceString_marks (h : Handle) (value : Option CStr) (alloc : Bool)
    {set : Option CStr → Handle}
    (hset : ∀ s, (set s).unsupportedOption = h.unsupportedOption) :
    Marks h (h.replaceString value alloc set) := by
  unfold Handle.replaceString
  split
  · exact ⟨fun hu => (setError_unsupported _ _ _).trans hu, fun hc => by cases hc⟩
  · exact Marks.of_eq (hset value)

theorem setLongOption_marks (h : Handle) (option : CURLoption) (value : Int) :
    Marks h (setLongOption h option value) := by
  unfold setLongOption
  split
  case h_3 => exact Marks.of_eq (by dsimp only; split <;> rfl)
  case h_5 => exact Marks.of_eq (by dsimp only; split <;> rfl)
  case h_6 => exact Marks.of_eq (by split <;> rfl)
  all_goals first
    | exact Marks.of_eq rfl
    | exact unsupportedIf_marks h _
    | exact unsupported_marks h

/-- Whatever option is set, a refusal leaves the mark and no option removes it. -/
theorem setopt_marks (h : Handle) (option : CURLoption) (arg : VaArg) (alloc : Bool) :
    Marks h (setopt h option arg alloc) := by
  unfold setopt
  split
  all_goals first
    | exact replaceString_marks h _ _ fun _ => rfl
    | exact Marks.of_eq rfl
    | exact unsupportedIf_marks h _
    | exact setLongOption_marks h _ _

/-- A copy of a string is that string. -/
theorem dupString_eq {member s : Option CStr} {alloc : Bool} (h : dupString member alloc = some s) :
    s = member := by
  cases member with
  | none => exact (Option.some.inj h).symm
  | some m =>
    rcases ite_eq_iff.mp h with ⟨-, h⟩ | ⟨-, h⟩
    · exact (Option.some.inj h).symm
    · cases h

/-- A copy of a handle has its options, outside of every multi handle. -/
theorem dupHandle_eq {h copy : Handle} {alloc : Nat → Bool} (hd : dupHandle h alloc = some copy) :
    copy = { h with next := none, added := false, completed := false } := by
  unfold dupHandle at hd
  rcases ite_eq_iff.mp hd with ⟨-, hd⟩ | ⟨-, hd⟩
  · cases hd
  · obtain ⟨url, hurl, hd⟩ := Option.bind_eq_some_iff.mp hd
    obtain ⟨customRequest, hcustom, hd⟩ := Option.bind_eq_some_iff.mp hd
    obtain ⟨userAgent, hagent, hd⟩ := Option.bind_eq_some_iff.mp hd
    obtain ⟨range, hrange, hd⟩ := Option.bind_eq_some_iff.mp hd
    obtain ⟨username, huser, hd⟩ := Option.bind_eq_some_iff.mp hd
    obtain ⟨password, hpass, hd⟩ := Option.bind_eq_some_iff.mp hd
    obtain ⟨userpwd, hpwd, hd⟩ := Option.bind_eq_some_iff.mp hd
    obtain ⟨proxy, hproxy, hd⟩ := Option.bind_eq_some_iff.mp hd
    obtain ⟨cookieFile, hcookie, hd⟩ := Option.bind_eq_some_iff.mp hd
    obtain ⟨contentType, htype, hd⟩ := Option.bind_eq_some_iff.mp hd
    obtain ⟨effectiveUrl, heff, hd⟩ := Option.bind_eq_some_iff.mp hd
    rw [dupString_eq hurl, dupString_eq hcustom, dupString_eq hagent, dupString_eq hrange,
      dupString_eq huser, dupString_eq hpass, dupString_eq hpwd, dupString_eq hproxy,
      dupString_eq hcookie, dupString_eq htype, dupString_eq heff] at hd
    exact (Option.some.inj hd).symm

end Curl
