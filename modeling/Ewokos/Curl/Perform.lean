import Ewokos.Curl.Request

/-!
# curl: one transfer

`curl_perform` of `bin/git/port/ewokos/curl_compat.c` with its parts, over an environment that
answers the calls into tinyhttpsc, the application's callbacks and the allocator.

* `Hop` — the answers during one pass of the loop; `World` — those of a whole transfer.  A
  response is what the backend reports about it, so every sequence of hops is possible.
* `Hop.receive` — what happens to a response, `Hop.pass` — one pass of the loop; both return the
  calls they made.
* `performLoop` counts its passes down from a bound; `none` would mean that it ran out.

Callbacks do not change the handle they are called for.
-/

set_option autoImplicit false

namespace Curl

open Cells CString

/-- What one `HttpsResponseReadBodyChunk` reports: bytes, none at the end, or an error. -/
inductive Chunk where
  | data (bytes : List UInt8)
  | failed
  deriving DecidableEq, Repr

/-- A response, as the accessors of tinyhttpsc show it. -/
structure Response where
  /-- `HttpsResponseError` after the fetch -/
  failed : Bool
  errorCode : Int
  errorMsg : Option CStr
  status : Int
  headers : List (Option CStr × Option CStr)
  /-- the value of `Location` -/
  location : Option CStr
  /-- the reads of the body; behind the list they report the end -/
  chunks : List Chunk
  /-- the message after a failed read -/
  readErrorMsg : Option CStr
  deriving DecidableEq, Repr

/-- The answers during one pass of the loop: whether each allocation succeeds, what the callbacks
return, and the response. -/
structure Hop where
  allocRequest : Bool
  allocAuth : Bool
  allocEffectiveUrl : Bool
  allocHeader : Nat → Bool
  allocContentType : Nat → Bool
  allocNextUrl : Bool
  allocBody : Nat → Bool
  headerCallback : Nat → CStr → Nat
  /-- `write_callback`, or `fwrite` to stdout -/
  writeCallback : List UInt8 → Nat
  response : Option Response

/-- The answers of a whole transfer.  `reads` is what `read_callback` delivers, then nothing. -/
structure World where
  reads : List (List UInt8)
  allocBody : Nat → Bool
  allocUrl : Bool
  hops : Nat → Hop

/-! ## The request body -/

/-- How much the next `read_callback` is asked for; `none` when the body is complete. -/
def wanted (h : Handle) (size : Nat) : Option Int :=
  if h.infileSize ≥ 0 then
    if size ≥ h.infileSize then none else some (min 16384 (h.infileSize - size))
  else some 16384

/-- The reading loop of `curl_collect_request_body`. -/
def readLoop (h : Handle) (alloc : Nat → Bool) :
    List (List UInt8) → Nat → Buffer → Code × Handle × Buffer × List Event
  | [], _, body | [] :: _, _, body => (.ok, h, body, [])
  | got :: rest, i, body =>
    match wanted h body.size with
    | none => (.ok, h, body, [])
    | some want =>
      match (if got.length > want then none else body.append got (alloc i)) with
      | none => (.readError, h.setError .readError (some (str "failed to buffer request body")),
          body, [])
      | some body =>
        let (code, h', body, events) := readLoop h alloc rest (i + 1) body
        (code, h', body, h.debug .dataOut got ++ events)

/-- `curl_collect_request_body`. -/
def collectRequestBody (h : Handle) (w : World) : Code × Handle × Buffer × List Event :=
  match h.postFields with
  | some fields =>
    let size := if h.postSize ≥ 0 then h.postSize.toNat
      else (fields.takeWhile (· != 0)).length
    match Buffer.empty.append (fields.take size) (w.allocBody 0) with
    | none => (.outOfMemory, h.memoryError, .empty, [])
    | some body => (.ok, h, body, [])
  | none =>
    if h.readCallback then readLoop h w.allocBody w.reads 0 .empty else (.ok, h, .empty, [])

/-! ## The response -/

/-- `curl_deliver_header`: whether the line was accepted. -/
def deliverHeader (h : Handle) (x : Hop) (i : Nat) (data : CStr) : Bool × List Event :=
  if h.headerCallback then
    (x.headerCallback i data == data.length, h.debug .headerIn data ++ [.header data])
  else (true, h.debug .headerIn data)

/-- The flags a `WWW-Authenticate` header adds. -/
def authFlags (value : CStr) : UInt64 :=
  (if strncasecmp value (str "Basic") 5 then CURLAUTH_BASIC else 0) |||
  (if strncasecmp value (str "Digest") 6 then CURLAUTH_DIGEST else 0) |||
  (if strncasecmp value (str "NTLM") 4 then CURLAUTH_NTLM else 0) |||
  (if strncasecmp value (str "Negotiate") 9 then CURLAUTH_GSSNEGOTIATE else 0)

/-- One round of the header loop of `curl_process_response_headers`. -/
def processHeader (x : Hop) (i : Nat) (key value : CStr) (h : Handle) :
    Bool × Handle × List Event :=
  if x.allocHeader i then
    let (accepted, events) := deliverHeader h x i (key ++ str ": " ++ value ++ [13, 10])
    if accepted then
      if strcasecmp key (str "Content-Type") then
        if x.allocContentType i then (true, { h with contentType := some value }, events)
        else (false, h, events)
      else if strcasecmp key (str "WWW-Authenticate") then
        (true, { h with authAvail := h.authAvail ||| authFlags value }, events)
      else (true, h, events)
    else (false, h, events)
  else (false, h, [])

/-- The header loop of `curl_process_response_headers`. -/
def headerLoop (x : Hop) : List (Option CStr × Option CStr) → Nat → Handle →
    Bool × Handle × List Event
  | [], _, h => (true, h, [])
  | (some key, some value) :: rest, i, h =>
    let (accepted, h, events) := processHeader x i key value h
    if accepted then
      let (accepted, h, events') := headerLoop x rest (i + 1) h
      (accepted, h, events ++ events')
    else (false, h, events)
  | _ :: rest, i, h => headerLoop x rest (i + 1) h

/-- `curl_process_response_headers`. -/
def processResponseHeaders (h : Handle) (x : Hop) (r : Response) : Bool × Handle × List Event :=
  let (accepted, events) := deliverHeader h x 0 (str "HTTP/1.1 " ++ dec r.status ++ [13, 10])
  if accepted then
    let (ok, h, events') := headerLoop x r.headers 1 h
    if ok then
      let (accepted, events'') := deliverHeader h x (r.headers.length + 1) [13, 10]
      (accepted, h, events ++ events' ++ events'')
    else (false, h, events ++ events')
  else (false, h, events)

/-- The reading loop of `curl_deliver_body`: the error that ended it, if any. -/
def bodyLoop (h : Handle) (x : Hop) (r : Response) :
    List Chunk → Nat → Buffer → Option Code × Handle × Buffer × List Event
  | [], _, body | .data [] :: _, _, body => (none, h, body, [])
  | .failed :: _, _, body => (some .readError, h.setError .readError r.readErrorMsg, body, [])
  | .data got :: rest, i, body =>
    match body.append got (x.allocBody i) with
    | none => (some .outOfMemory, h.memoryError, body, h.debug .dataIn got)
    | some body =>
      let (code, h', body, events) := bodyLoop h x r rest (i + 1) body
      (code, h', body, h.debug .dataIn got ++ events)

/-- `curl_deliver_body`. -/
def deliverBody (h : Handle) (x : Hop) (r : Response) (body : Buffer) :
    Code × Handle × Buffer × List Event :=
  if h.nobody then (.ok, h, body, [])
  else
    match bodyLoop h x r r.chunks 0 { body with size := 0 } with
    | (some code, h, body, events) => (code, h, body, events)
    | (none, h, body, events) =>
      let call := if h.writeCallback then Event.write body.bytes else Event.stdout body.bytes
      if x.writeCallback body.bytes = body.size then (.ok, h, body, events ++ [call])
      else (.writeError, h.setError .writeError (some (str "HTTP response callback failed")), body,
        events ++ [call])

/-- `curl_map_response_error`. -/
def mapResponseError (h : Handle) (r : Response) : Code × Handle :=
  let code := r.errorCode
  let result :=
    if code = 2 then Code.urlMalformat
    else if code = 8 then Code.outOfMemory
    else if code = 10 ∨ code = 11 then Code.couldntResolveHost
    else if code = 6 ∨ code = 15 ∨ code = 16 ∨ code = 20 then Code.readError
    else if (code = 17 ∨ code = 18) ∧
        (h.url.map fun u => strncasecmp u (str "https://") 8).getD false then Code.sslConnectError
    else if (r.errorMsg.map fun m => (strstr m (str "timeout")).isSome).getD false then
      Code.operationTimedout
    else Code.couldntConnect
  (result, h.setError result (some (r.errorMsg.getD (str "tinyhttpsc request failed"))))

/-! ## The loop -/

/-- The locals of `curl_perform` that live across passes. -/
structure Transfer where
  handle : Handle
  currentUrl : CStr
  redirects : Int
  retries : Nat
  method : CStr
  body : Buffer
  hasBody : Bool
  responseBody : Buffer

/-- How a pass ends: `continue`, or `break` with a result. -/
inductive Pass where
  | again (t : Transfer)
  | stop (code : Code) (t : Transfer)

/-- The condition of both retry sites. -/
def canRetry (method : CStr) (retries : Nat) (result : Code) : Bool :=
  (method == str "GET" || method == str "POST") && decide (retries < 1) &&
    (result == .couldntConnect || result == .readError || result == .sslConnectError ||
      result == .operationTimedout)

/-- A retry site: the next attempt, or the end. -/
def retryOrStop (t : Transfer) (result : Code) : Pass :=
  if canRetry t.method t.retries result then .again { t with retries := t.retries + 1 }
  else .stop result t

def isRedirect (status : Int) : Bool :=
  status == 301 || status == 302 || status == 303 || status == 307 || status == 308

/-- Whether a redirect turns the request into a `GET`. -/
def dropsBody (status : Int) (postredir : UInt64) : Bool :=
  let flag := if status = 301 then CURL_REDIR_POST_301 else CURL_REDIR_POST_302
  status == 303 || ((status == 301 || status == 302) && postredir &&& flag == 0)

/-- The method and body of the request to a redirect target. -/
def redirectMethod (t : Transfer) (status : Int) : Transfer :=
  if dropsBody status t.handle.postredir then
    { t with method := str "GET", body := { t.body with size := 0 }, hasBody := false }
  else t

/-- The redirect branch: `location` is followed, or the transfer ends. -/
def followRedirect (x : Hop) (t : Transfer) (status : Int) (location : CStr) : Pass :=
  let h := t.handle
  let redirects := t.redirects + 1
  if t.redirects ≥ h.maxredirs then
    .stop .tooManyRedirects { t with
      redirects := redirects
      handle := h.setError .tooManyRedirects (some (str "too many HTTP redirects")) }
  else
    match (if x.allocNextUrl then redirectUrl t.currentUrl location else none) with
    | none => .stop .outOfMemory { t with redirects := redirects, handle := h.memoryError }
    | some nextUrl =>
      if !schemeAllowed nextUrl h.redirProtocols then
        .stop .unsupportedProtocol { t with
          redirects := redirects
          handle := h.setError .unsupportedProtocol
            (some (str "redirect protocol is not allowed")) }
      else .again { redirectMethod t status with redirects := redirects, currentUrl := nextUrl }

/-- What `curl_perform` does with a response it received. -/
def receive (x : Hop) (t : Transfer) (r : Response) : Pass × List Event :=
  if r.failed then
    let (result, h) := mapResponseError t.handle r
    (retryOrStop { t with handle := h } result, [])
  else
    let h := { t.handle with responseCode := r.status }
    if !x.allocEffectiveUrl then (.stop .outOfMemory { t with handle := h.memoryError }, [])
    else
      let h := { h with effectiveUrl := some t.currentUrl }
      let (accepted, h, events) := processResponseHeaders h x r
      if !accepted then (.stop .outOfMemory { t with handle := h.memoryError }, events)
      else
        match h.followlocation && isRedirect r.status, r.location with
        | true, some location => (followRedirect x { t with handle := h } r.status location, events)
        | _, _ =>
          if h.failonerror ∧ r.status ≥ 400 then
            let h := h.setError .httpReturnedError (some (str "HTTP server returned an error"))
            (retryOrStop { t with handle := h } .httpReturnedError, events)
          else
            let (result, h, body, events') := deliverBody h x r t.responseBody
            (retryOrStop { t with handle := h, responseBody := body } result, events ++ events')

/-- What `curl_perform` does after the fetch. -/
def fetched (x : Hop) (t : Transfer) : Pass × List Event :=
  match x.response with
  | none => (.stop .couldntConnect { t with
      handle := t.handle.setError .couldntConnect (some (str "tinyhttpsc returned no response")) },
      [])
  | some r => receive x t r

/-- One pass of the loop of `curl_perform`. -/
def pass (x : Hop) (t : Transfer) (originalUrl : CStr) : Pass × List Event :=
  if !x.allocRequest then (.stop .outOfMemory { t with handle := t.handle.memoryError }, [])
  else
    match addRequestHeaders t.handle t.currentUrl originalUrl x.allocAuth with
    | (none, events) => (.stop .outOfMemory { t with handle := t.handle.memoryError }, events)
    | (some headers, events) =>
      let request : Request := ⟨t.currentUrl, t.method, headers,
        if t.hasBody then some t.body.bytes else none⟩
      let (next, events') := fetched x t
      (next, events ++ .request request :: events')

/-- How a transfer ended, and the calls it made: those before the loop, and those of each pass. -/
structure Outcome where
  code : Code
  handle : Handle
  before : List Event
  passes : List (List Event)

/-- All calls of the transfer, in order. -/
def Outcome.events (o : Outcome) : List Event := o.before ++ o.passes.flatten

/-- The loop of `curl_perform`, from pass number `i` on. -/
def performLoop (hops : Nat → Hop) (originalUrl : CStr) :
    Nat → Nat → Transfer → Option (Code × Handle × List (List Event))
  | 0, _, _ => none
  | fuel + 1, i, t =>
    match pass (hops i) t originalUrl with
    | (.stop code t, events) => some (code, t.handle, [events])
    | (.again t, events) =>
      (performLoop hops originalUrl fuel (i + 1) t).map fun (code, h, passes) =>
        (code, h, events :: passes)

/-- The first checks of `curl_perform`: the error, with its message. -/
def refused (h : Handle) (url : CStr) : Option (Code × String) :=
  if h.unsupportedOption then
    some (.notBuiltIn, "requested curl option is not supported by tinyhttpsc")
  else if h.proxy.getD [] ≠ [] then
    some (.notBuiltIn, "HTTP proxy is not supported by tinyhttpsc")
  else if h.cookieFile.getD [] ≠ [] ∨ h.resolve ≠ [] then
    some (.notBuiltIn, "cookie files and custom DNS resolution are not supported")
  else if !schemeAllowed url h.protocols then
    some (.unsupportedProtocol, "only HTTP and HTTPS are supported")
  else if strncasecmp url (str "https://") 8 ∧ (!h.sslVerifypeer ∨ h.sslVerifyhost = 0) then
    some (.sslCertproblem,
      "disabling TLS certificate verification is not supported by tinyhttpsc")
  else none

/-- The method of the first request. -/
def firstMethod (h : Handle) : CStr :=
  h.customRequest.getD (if h.upload then str "PUT" else if h.post then str "POST"
    else if h.nobody then str "HEAD" else str "GET")

/-- More passes than the loop can make. -/
def passBound (h : Handle) : Nat := (max 0 h.maxredirs).toNat + 2

/-- `curl_perform`. -/
def perform (w : World) (h : Handle) : Option Outcome :=
  match h.url with
  | none => some ⟨.urlMalformat, h, [], []⟩
  | some url =>
    match refused h url with
    | some (code, message) => some ⟨code, h.setError code (some (str message)), [], []⟩
    | none =>
      match collectRequestBody h w with
      | (.ok, h, body, events) =>
        if w.allocUrl then
          let t : Transfer := ⟨h, url, 0, 0, firstMethod h, body,
            h.postFields.isSome || h.readCallback, .empty⟩
          (performLoop w.hops url (passBound h) 0 t).map fun (code, h, passes) =>
            ⟨code, h, events, passes⟩
        else some ⟨.outOfMemory, h.memoryError, events, []⟩
      | (code, h, _, events) => some ⟨code, h, events, []⟩

/-- `curl_clear_transfer_results`. -/
def clearTransferResults (h : Handle) : Handle :=
  { h with
    contentType := none
    effectiveUrl := none
    responseCode := 0
    authAvail := 0
    connectCode := 0
    result := .ok
    completed := false
    errorBuffer := h.errorBuffer.map fun _ => [] }

/-- `curl_easy_perform`. -/
def easyPerform (w : World) (h : Handle) : Option Outcome :=
  (perform w (clearTransferResults h)).map fun o =>
    { o with handle := { o.handle with result := o.code, completed := true } }

end Curl
