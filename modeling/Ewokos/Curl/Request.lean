import Ewokos.Lib.Cells
import Ewokos.Curl.Url

/-!
# curl: handles and requests

The easy handle of `bin/git/port/ewokos/curl_compat.c` and what `curl_perform` puts into a
request: `curl_add_request_headers` with `curl_basic_auth`, and `curl_collect_request_body`.

* A `char *` member is an `Option CStr`, a list is its nodes, flag words are 64 bits wide.
* Callbacks and allocations are answered by the caller's environment; the calls that can be seen
  from outside are recorded as `Event`s.
-/

set_option autoImplicit false

namespace Curl

open Cells CString

/-- The `CURLcode` values the port returns. -/
inductive Code where
  | ok
  | unsupportedProtocol
  | failedInit
  | urlMalformat
  | notBuiltIn
  | couldntResolveHost
  | couldntConnect
  | httpReturnedError
  | writeError
  | readError
  | outOfMemory
  | operationTimedout
  | sslConnectError
  | tooManyRedirects
  | sslCertproblem
  deriving DecidableEq, Repr

def CURLAUTH_BASIC : UInt64 := 1
def CURLAUTH_DIGEST : UInt64 := 2
def CURLAUTH_GSSNEGOTIATE : UInt64 := 4
def CURLAUTH_NTLM : UInt64 := 8
def CURL_REDIR_POST_301 : UInt64 := 1
def CURL_REDIR_POST_302 : UInt64 := 2
def CURL_ERROR_SIZE : Nat := 256
def SIZE_MAX : Nat := 18446744073709551615

/-- What `curl_debug` reports. -/
inductive Info where
  | headerIn
  | headerOut
  | dataIn
  | dataOut
  deriving DecidableEq, Repr

/-- A request as handed to `HttpsRequestFetch`. -/
structure Request where
  url : CStr
  method : CStr
  headers : List (CStr × CStr)
  body : Option (List UInt8)
  deriving DecidableEq, Repr

/-- A call that leaves the library. -/
inductive Event where
  | debug (type : Info) (data : List UInt8)
  | request (r : Request)
  | header (line : List UInt8)
  | write (data : List UInt8)
  | stdout (data : List UInt8)
  deriving DecidableEq, Repr

/-- `struct CURL`: the members a transfer uses.  `post_fields` is the caller's buffer; a callback
member says whether one is set. -/
structure Handle where
  url : Option CStr
  customRequest : Option CStr
  userAgent : Option CStr
  range : Option CStr
  username : Option CStr
  password : Option CStr
  userpwd : Option CStr
  proxy : Option CStr
  cookieFile : Option CStr
  contentType : Option CStr
  effectiveUrl : Option CStr
  headers : List CStr
  resolve : List CStr
  postFields : Option (List UInt8)
  postSize : Int
  infileSize : Int
  errorBuffer : Option CStr
  writeCallback : Bool
  headerCallback : Bool
  readCallback : Bool
  debugCallback : Bool
  httpauth : UInt64
  protocols : UInt64
  redirProtocols : UInt64
  maxredirs : Int
  postredir : UInt64
  responseCode : Int
  authAvail : UInt64
  connectCode : Int
  post : Bool
  upload : Bool
  nobody : Bool
  failonerror : Bool
  followlocation : Bool
  sslVerifypeer : Bool
  sslVerifyhost : Int
  verbose : Bool
  unsupportedOption : Bool
  added : Bool
  completed : Bool
  result : Code
  /-- the next handle of the multi handle's list -/
  next : Option Nat

/-- `curl_easy_init`. -/
def easyInit : Handle where
  url := none
  customRequest := none
  userAgent := none
  range := none
  username := none
  password := none
  userpwd := none
  proxy := none
  cookieFile := none
  contentType := none
  effectiveUrl := none
  headers := []
  resolve := []
  postFields := none
  postSize := -1
  infileSize := -1
  errorBuffer := none
  writeCallback := false
  headerCallback := false
  readCallback := false
  debugCallback := false
  httpauth := 0
  protocols := CURLPROTO_HTTP ||| CURLPROTO_HTTPS
  redirProtocols := CURLPROTO_HTTP ||| CURLPROTO_HTTPS
  maxredirs := 20
  postredir := 0
  responseCode := 0
  authAvail := 0
  connectCode := 0
  post := false
  upload := false
  nobody := false
  failonerror := false
  followlocation := false
  sslVerifypeer := true
  sslVerifyhost := 2
  verbose := false
  unsupportedOption := false
  added := false
  completed := false
  result := .ok
  next := none

namespace Handle

/-- `curl_set_error`. -/
def setError (h : Handle) (code : Code) (message : Option CStr) : Handle :=
  match message with
  | none => { h with result := code }
  | some m => { h with
      result := code
      errorBuffer := h.errorBuffer.map fun _ => m.take (CURL_ERROR_SIZE - 1) }

/-- `curl_memory_error`. -/
def memoryError (h : Handle) : Handle := h.setError .outOfMemory (some (str "out of memory"))

/-- `curl_debug`. -/
def debug (h : Handle) (type : Info) (data : List UInt8) : List Event :=
  if h.verbose ∧ h.debugCallback then [.debug type data] else []

end Handle

/-! ## Buffers -/

/-- `CurlBuffer`. -/
structure Buffer where
  data : Memory UInt8
  size : Nat
  capacity : Nat

def Buffer.empty : Buffer := ⟨fun _ => 0, 0, 0⟩

/-- The valid bytes of the buffer. -/
def Buffer.bytes (b : Buffer) : List UInt8 := slice b.data 0 b.size

/-- The doubling loop of `curl_buffer_append`; 64 rounds pass every `size_t`. -/
def growCapacity (needed : Nat) : Nat → Nat → Nat
  | 0, capacity => capacity
  | fuel + 1, capacity =>
    if capacity < needed then
      if capacity > SIZE_MAX / 2 then needed else growCapacity needed fuel (capacity * 2)
    else capacity

/-- `curl_buffer_append`; `alloc` answers the `realloc`. -/
def Buffer.append (b : Buffer) (l : List UInt8) (alloc : Bool) : Option Buffer :=
  if l.length = 0 then some b
  else if l.length > SIZE_MAX - b.size then none
  else
    let needed := b.size + l.length
    if needed > b.capacity then
      if alloc then
        let capacity := growCapacity needed 64 (if b.capacity = 0 then 16384 else b.capacity)
        some ⟨memcpy b.data b.size l, needed, capacity⟩
      else none
    else some ⟨memcpy b.data b.size l, needed, b.capacity⟩

theorem Buffer.append_bytes {b b' : Buffer} {l : List UInt8} {alloc : Bool}
    (h : b.append l alloc = some b') : b'.bytes = b.bytes ++ l := by
  have hcopy : slice (memcpy b.data b.size l) 0 (b.size + l.length) = slice b.data 0 b.size ++ l := by
    have := slice_memcpy b.data 0 (k := b.size) (n := b.size + l.length) l (Nat.le_refl _)
    rw [Int.zero_add] at this
    rw [this, take_slice _ _ (by omega), List.drop_of_length_le (by simp), List.append_nil]
  unfold append at h
  split at h
  · rename_i hl
    obtain rfl := Option.some.inj h
    rw [List.eq_nil_of_length_eq_zero hl, List.append_nil]
  · split at h
    · simp at h
    · dsimp only at h
      split at h
      · split at h
        · obtain rfl := Option.some.inj h
          exact hcopy
        · simp at h
      · obtain rfl := Option.some.inj h
        exact hcopy

/-! ## Headers -/

/-- `curl_header_name_is`. -/
def headerNameIs (item : CStr) (len : Nat) (name : CStr) : Bool :=
  decide (len > name.length) && item[name.length]? == some (chr ':') &&
    strncasecmp item name name.length

/-- `curl_headers_contain`. -/
def headersContain (h : Handle) (name : CStr) : Bool :=
  h.headers.any fun item => headerNameIs item item.length name

def b64Table : CStr := str "ABCDEFGHIJKLMNOPQRSTUVWXYZabcdefghijklmnopqrstuvwxyz0123456789+/"

/-- The encoding loop of `curl_basic_auth`. -/
def b64Encode : List UInt8 → CStr
  | [] => []
  | a :: rest =>
    let digit (v : Nat) (shift : Nat) : UInt8 := (b64Table[(v >>> shift) % 64]?).getD 0
    match rest with
    | [] =>
      let v := a.toNat <<< 16
      [digit v 18, digit v 12, chr '=', chr '=']
    | [b] =>
      let v := a.toNat <<< 16 ||| b.toNat <<< 8
      [digit v 18, digit v 12, digit v 6, chr '=']
    | b :: c :: rest =>
      let v := a.toNat <<< 16 ||| b.toNat <<< 8 ||| c.toNat
      digit v 18 :: digit v 12 :: digit v 6 :: digit v 0 :: b64Encode rest

/-- `curl_basic_auth`; `alloc` answers its allocations. -/
def basicAuth (h : Handle) (alloc : Bool) : Option CStr :=
  let combined := match h.username, h.userpwd with
    | none, userpwd => userpwd
    | some user, _ => some (user ++ str ":" ++ h.password.getD [])
  if alloc then combined.map fun c => str "Basic " ++ b64Encode c else none

/-- The loop of `curl_add_request_headers` over `handle->headers`: the headers added and the debug
calls; `none` when a key does not fit. -/
def customHeaders (h : Handle) (sameOrigin : Bool) :
    List CStr → Option (List (CStr × CStr)) × List Event
  | [] => (some [], [])
  | item :: rest =>
    match strchr item (chr ':') with
    | none => customHeaders h sameOrigin rest
    | some keyLen =>
      let value := (item.drop (keyLen + 1)).dropWhile fun c => c == 32 || c == 9
      if value = [] then customHeaders h sameOrigin rest
      else if !sameOrigin && (headerNameIs item (keyLen + 1) (str "Authorization") ||
          headerNameIs item (keyLen + 1) (str "Cookie")) then
        customHeaders h sameOrigin rest
      else if keyLen ≥ 128 then (none, [])
      else
        let key := item.take keyLen
        let line := (key ++ str ": " ++ value ++ [13, 10]).take 511
        let (headers, events) := customHeaders h sameOrigin rest
        (headers.map ((key, value) :: ·), h.debug .headerOut line ++ events)

/-- What `curl_add_request_headers` adds behind the custom headers. -/
def ownHeaders (h : Handle) (sameOrigin alloc : Bool) : List (CStr × CStr) :=
  let one (name : CStr) : Option CStr → List (CStr × CStr)
    | none => []
    | some value => if headersContain h name then [] else [(name, value)]
  one (str "User-Agent") h.userAgent ++ one (str "Range") h.range ++
    if sameOrigin && h.httpauth &&& CURLAUTH_BASIC != 0 then
      one (str "Authorization") (basicAuth h alloc)
    else []

/-- `curl_add_request_headers`. -/
def addRequestHeaders (h : Handle) (url originalUrl : CStr) (alloc : Bool) :
    Option (List (CStr × CStr)) × List Event :=
  let sameOrigin := curlSameOrigin url originalUrl
  let (headers, events) := customHeaders h sameOrigin h.headers
  (headers.map (· ++ ownHeaders h sameOrigin alloc), events)

end Curl
