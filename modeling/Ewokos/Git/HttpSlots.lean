import Ewokos.Curl.Bookkeeping
import Ewokos.Curl.GetInfo

/-!
# Request slots

The slots of git's `http.c`, which keep the easy handles of a session busy, over the multi handle
of `port/ewokos/curl_compat.c`.

* `Slot`, `Http` — the slots and the variables of the session; `Http.log` records what happened.
* `getActiveSlot`, `startActiveSlot`, `runActiveSlot`, `finishAllActiveSlots`,
  `stepActiveSlots`, `fillActiveSlots`, `processCurlMessages`, `finishActiveSlot`,
  `releaseActiveSlot` — http.c.
* `Prog`, `exec` — a client: what it does may depend on all it can see, and its callbacks and fill
  functions are clients themselves, which the code above calls back.

The memory for handles and messages is there.  A loop of the code takes one unit of fuel for each
turn.
-/

set_option autoImplicit false

namespace Git

open Curl

/-- `struct slot_results`. -/
structure SlotResults where
  curlResult : Code
  httpCode : Int
  authAvail : UInt64
  httpConnectcode : Int
  deriving DecidableEq, Repr

/-- `struct active_request_slot`; a pointer is an address, `callback_func` goes with its data. -/
structure Slot where
  curl : Option Nat
  inUse : Bool
  curlResult : Code
  httpCode : Int
  finished : Option Nat
  results : Option Nat
  callbackFunc : Option Nat
  deriving DecidableEq, Repr

/-- What happened to the requests. -/
inductive HttpEvent where
  /-- `start_active_slot` of a slot with this handle -/
  | started (slot handle : Nat)
  /-- the transfer of a handle, and how it ended -/
  | transferred (message : Message)
  /-- `finish_active_slot`, and the result it stores -/
  | finished (slot handle : Nat) (result : Code)
  /-- `run_active_slot` -/
  | awaited (slot : Nat)
  /-- `release_active_slot` -/
  | released (slot : Nat)
  deriving DecidableEq, Repr

/-- The variables of a session; `nextHandle` and `nextFlag` are addresses not used so far,
`performs` counts the calls to the network, and `client` is the client's own state. -/
structure Http (σ : Type) where
  slots : List Slot
  activeRequests : Int
  curlSessionCount : Int
  maxRequests : Int
  minCurlSessions : Int
  curlm : Multi
  nextHandle : Nat
  performs : Nat
  flags : Nat → Bool
  nextFlag : Nat
  results : Nat → SlotResults
  fillCfg : List Nat
  client : σ
  log : List HttpEvent

/-- A request: the options set on the handle, where the results go, and the callback. -/
structure Request where
  options : Handle → Handle
  results : Option Nat
  callbackFunc : Option Nat

/-- A call into `http.c`.  Every caller sets up the slot it got and starts it at once; one that
aborts an object request releases the slot. -/
inductive HttpCall where
  | request (r : Request)
  | release (slot : Nat)
  | run (slot : Nat)
  | step
  | fill
  | finishAll
  | addFill (fill : Nat)

/-- What the client does: it looks at the session, sets its own state and makes calls.  The value
it returns is that of a fill function. -/
inductive Prog (σ : Type) where
  | ret (value : Bool)
  | look (next : Http σ → Prog σ)
  | set (client : σ) (next : Prog σ)
  | call (c : HttpCall) (next : Nat → Prog σ)

/-- What the session runs in: the answers of the network to each perform, the callbacks and fill
functions behind their addresses, and `curl_default`. -/
structure Env (σ : Type) where
  network : Nat → Nat → World
  callback : Nat → Prog σ
  fill : Nat → Prog σ
  curlDefault : Handle

/-- How the code calls a client back. -/
abbrev Runner (σ : Type) := Prog σ → Http σ → Option (Http σ × Bool)

variable {σ : Type}

namespace Http

/-- A call into curl. -/
def curl (s : Http σ) (op : Op) : Option (Http σ × Out) :=
  (Curl.step s.curlm op).map fun (m, out) => ({ s with curlm := m }, out)

/-- `curl_multi_perform`, and `num_transfers`. -/
def perform (env : Env σ) (s : Http σ) : Option (Http σ × Option Nat) := do
  let (s', out) ← s.curl (.perform (env.network s.performs) fun _ => true)
  match out with
  | .performed _ running transfers =>
    some ({ s' with performs := s.performs + 1,
                    log := s.log ++ transfers.map .transferred }, running)
  | _ => none

def modifySlot (s : Http σ) (i : Nat) (f : Slot → Slot) : Http σ :=
  { s with slots := s.slots.modify i f }

/-- `closedown_active_slot`. -/
def closedownActiveSlot (s : Http σ) (i : Nat) : Http σ :=
  { s with activeRequests := s.activeRequests - 1 }.modifySlot i fun slot =>
    { slot with inUse := false }

/-- The stores of `finish_active_slot` before its callback; the handle is `h`. -/
def storeResults (s : Http σ) (i h : Nat) (slot : Slot) : Http σ :=
  let easy := s.curlm.easy h
  let s := s.closedownActiveSlot i
  let s := s.modifySlot i fun slot => { slot with httpCode := easy.responseCode }
  let s := match slot.finished with
    | some f => { s with flags := Function.update s.flags f true }
    | none => s
  let stored : SlotResults :=
    ⟨slot.curlResult, easy.responseCode, easy.authAvail, easy.connectCode⟩
  let s := match slot.results with
    | some r => { s with results := Function.update s.results r stored }
    | none => s
  { s with log := s.log ++ [.finished i h slot.curlResult] }

/-- `finish_active_slot`. -/
def finishActiveSlot (env : Env σ) (back : Runner σ) (s : Http σ) (i : Nat) :
    Option (Http σ) := do
  let slot ← s.slots[i]?
  let h ← slot.curl
  let s := s.storeResults i h slot
  match slot.callbackFunc with
  | some f => (back (env.callback f) s).map Prod.fst
  | none => some s

/-- The slot of a handle. -/
def slotOf (s : Http σ) (h : Nat) : Option Nat := s.slots.findIdx? fun slot => slot.curl == some h

/-- `process_curl_messages`. -/
def processCurlMessages (env : Env σ) (back : Runner σ) : Nat → Http σ → Option (Http σ)
  | 0, _ => none
  | fuel + 1, s => do
    let (s, out) ← s.curl .infoRead
    match out with
    | .read (some message) _ =>
      match s.slotOf message.easyHandle with
      | some i =>
        let (s, _) ← s.curl (.removeHandle (some message.easyHandle))
        let s := s.modifySlot i fun slot => { slot with curlResult := message.result }
        let s ← s.finishActiveSlot env back i
        processCurlMessages env back fuel s
      | none => processCurlMessages env back fuel s
    | _ => some s

/-- The loop at the start of `get_active_slot`. -/
def waitForSlot (env : Env σ) (back : Runner σ) : Nat → Http σ → Option (Http σ)
  | 0, _ => none
  | fuel + 1, s =>
    if s.maxRequests ≤ s.activeRequests then do
      let (s, running) ← s.perform env
      let num_transfers ← running
      let s ← (if (num_transfers : Int) < s.activeRequests then
        s.processCurlMessages env back fuel else some s)
      waitForSlot env back fuel s
    else some s

/-- The first slot that is not in use, or a new one. -/
def freeSlot (s : Http σ) : Nat × Http σ :=
  match s.slots.findIdx? fun slot => !slot.inUse with
  | some i => (i, s)
  | none =>
    (s.slots.length, { s with slots := s.slots ++ [⟨none, false, .ok, 0, none, none, none⟩] })

/-- `curl_easy_duphandle(curl_default)` for a slot without a handle. -/
def withHandle (env : Env σ) (s : Http σ) (i : Nat) (slot : Slot) : Option (Http σ × Nat) :=
  match slot.curl with
  | some h => some (s, h)
  | none => do
    let h := s.nextHandle
    let (s, _) ← s.curl (.setopt h fun _ => env.curlDefault)
    let s := { s with nextHandle := h + 1, curlSessionCount := s.curlSessionCount + 1 }
    some (s.modifySlot i fun slot => { slot with curl := some h }, h)

/-- `get_active_slot`: the slot and its handle.  The options it sets are part of the request. -/
def getActiveSlot (env : Env σ) (back : Runner σ) (fuel : Nat) (s : Http σ) :
    Option (Http σ × Nat × Nat) := do
  let s ← s.waitForSlot env back fuel
  let (i, s) := s.freeSlot
  let slot ← s.slots[i]?
  let (s, h) ← s.withHandle env i slot
  let s := { s with activeRequests := s.activeRequests + 1 }
  let s := s.modifySlot i fun slot =>
    { slot with inUse := true, results := none, finished := none, callbackFunc := none }
  some (s, i, h)

/-- `start_active_slot`. -/
def startActiveSlot (env : Env σ) (s : Http σ) (i : Nat) : Option (Http σ) := do
  let slot ← s.slots[i]?
  let (s, out) ← s.curl (.addHandle slot.curl)
  match out, slot.curl with
  | .code .ok, some h =>
    let s := { s with log := s.log ++ [HttpEvent.started i h] }
    (s.perform env).map Prod.fst
  | _, _ => some (s.closedownActiveSlot i)

/-- A request: get a slot, set it up and start it. -/
def request (env : Env σ) (back : Runner σ) (fuel : Nat) (s : Http σ) (r : Request) :
    Option (Http σ × Nat) := do
  let (s, i, h) ← s.getActiveSlot env back fuel
  let (s, _) ← s.curl (.setopt h r.options)
  let s := s.modifySlot i fun slot =>
    { slot with results := r.results, callbackFunc := r.callbackFunc }
  let s ← s.startActiveSlot env i
  some (s, i)

/-- The `for` loop of `fill_active_slots`, from a place of `fill_cfg` on: did a function fill? -/
def tryFills (env : Env σ) (back : Runner σ) : Nat → Nat → Http σ → Option (Http σ × Bool)
  | 0, _, _ => none
  | fuel + 1, k, s =>
    match s.fillCfg[k]? with
    | none => some (s, false)
    | some f => do
      let (s, filled) ← back (env.fill f) s
      if filled then some (s, true) else tryFills env back fuel (k + 1) s

/-- The `while` loop of `fill_active_slots`. -/
def fillLoop (env : Env σ) (back : Runner σ) : Nat → Http σ → Option (Http σ)
  | 0, _ => none
  | fuel + 1, s =>
    if s.activeRequests < s.maxRequests then do
      let (s, filled) ← s.tryFills env back fuel 0
      if filled then fillLoop env back fuel s else some s
    else some s

/-- The last loop of `fill_active_slots`: idle handles go while there are more than
`min_curl_sessions`. -/
def closeIdle (minCurlSessions : Int) : List Slot → Int → List Slot × Int
  | [], count => ([], count)
  | slot :: slots, count =>
    if !slot.inUse && slot.curl.isSome && decide (minCurlSessions < count) then
      let (slots, count) := closeIdle minCurlSessions slots (count - 1)
      ({ slot with curl := none } :: slots, count)
    else
      let (slots, count) := closeIdle minCurlSessions slots count
      (slot :: slots, count)

/-- `fill_active_slots`; the last loop starts at the head the queue had on entry. -/
def fillActiveSlots (env : Env σ) (back : Runner σ) (fuel : Nat) (s : Http σ) :
    Option (Http σ) := do
  let empty := s.slots.isEmpty
  let s ← s.fillLoop env back fuel
  if empty then some s
  else
    let (slots, count) := closeIdle s.minCurlSessions s.slots s.curlSessionCount
    some { s with slots := slots, curlSessionCount := count }

/-- `step_active_slots`. -/
def stepActiveSlots (env : Env σ) (back : Runner σ) (fuel : Nat) (s : Http σ) :
    Option (Http σ) := do
  let (s, running) ← s.perform env
  let num_transfers ← running
  if (num_transfers : Int) < s.activeRequests then
    let s ← s.processCurlMessages env back fuel
    s.fillActiveSlots env back fuel
  else some s

/-- The loop of `run_active_slot`; `select` waits and changes nothing. -/
def runLoop (env : Env σ) (back : Runner σ) (flag : Nat) : Nat → Http σ → Option (Http σ)
  | 0, _ => none
  | fuel + 1, s =>
    if s.flags flag then some s
    else do
      let s ← s.stepActiveSlots env back fuel
      runLoop env back flag fuel s

/-- `run_active_slot`, up to its loop: the address of `finished`. -/
def awaitSlot (s : Http σ) (i : Nat) : Http σ × Nat :=
  let flag := s.nextFlag
  let s := { s with flags := Function.update s.flags flag false, nextFlag := flag + 1,
                    log := s.log ++ [HttpEvent.awaited i] }
  (s.modifySlot i fun slot => { slot with finished := some flag }, flag)

/-- `run_active_slot`. -/
def runActiveSlot (env : Env σ) (back : Runner σ) (fuel : Nat) (s : Http σ) (i : Nat) :
    Option (Http σ) := do
  let (s, flag) := s.awaitSlot i
  let s ← s.runLoop env back flag fuel
  some (s.modifySlot i fun slot => { slot with finished := none })

/-- `release_active_slot`. -/
def releaseActiveSlot (env : Env σ) (back : Runner σ) (fuel : Nat) (s : Http σ) (i : Nat) :
    Option (Http σ) := do
  let slot ← s.slots[i]?
  let s := { s with log := s.log ++ [HttpEvent.released i] }.closedownActiveSlot i
  match slot.curl with
  | some h =>
    let (s, _) ← s.curl (.removeHandle (some h))
    if s.minCurlSessions < s.curlSessionCount then
      let s := { s with curlSessionCount := s.curlSessionCount - 1 }
      (s.modifySlot i fun slot => { slot with curl := none }).fillActiveSlots env back fuel
    else s.fillActiveSlots env back fuel
  | none => s.fillActiveSlots env back fuel

/-- What `release_http_object_request` does with the slot. -/
def releaseHttpObjectRequest (env : Env σ) (back : Runner σ) (fuel : Nat) (s : Http σ)
    (i : Nat) : Option (Http σ) :=
  (s.modifySlot i fun slot => { slot with callbackFunc := none }).releaseActiveSlot env back
    fuel i

/-- `finish_all_active_slots`: the loop starts over after every slot it ran. -/
def finishAllActiveSlots (env : Env σ) (back : Runner σ) : Nat → Http σ → Option (Http σ)
  | 0, _ => none
  | fuel + 1, s =>
    match s.slots.findIdx? fun slot => slot.inUse with
    | some i => do
      let s ← s.runActiveSlot env back fuel i
      finishAllActiveSlots env back fuel s
    | none => some s

/-- A call of the client, and the slot of a request. -/
def doCall (env : Env σ) (back : Runner σ) (fuel : Nat) (s : Http σ) :
    HttpCall → Option (Http σ × Nat)
  | .request r => s.request env back fuel r
  | .release i => (s.releaseHttpObjectRequest env back fuel i).map fun s => (s, 0)
  | .run i => (s.runActiveSlot env back fuel i).map fun s => (s, 0)
  | .step => (s.stepActiveSlots env back fuel).map fun s => (s, 0)
  | .fill => (s.fillActiveSlots env back fuel).map fun s => (s, 0)
  | .finishAll => (s.finishAllActiveSlots env back fuel).map fun s => (s, 0)
  | .addFill f => some ({ s with fillCfg := s.fillCfg ++ [f] }, 0)

end Http

/-- A client; `none` when the fuel runs out. -/
def exec (env : Env σ) : Nat → Prog σ → Http σ → Option (Http σ × Bool)
  | 0, _, _ => none
  | _ + 1, .ret value, s => some (s, value)
  | fuel + 1, .look next, s => exec env fuel (next s) s
  | fuel + 1, .set client next, s => exec env fuel next { s with client := client }
  | fuel + 1, .call c next, s => do
    let (s, r) ← s.doCall env (exec env fuel) fuel c
    exec env fuel (next r) s

/-- The session after `http_init`. -/
def httpInit (easy : Nat → Handle) (maxRequests minCurlSessions : Int)
    (results : Nat → SlotResults) (client : σ) : Http σ where
  slots := []
  activeRequests := 0
  curlSessionCount := 0
  maxRequests := if maxRequests < 1 then 5 else maxRequests
  minCurlSessions := minCurlSessions
  curlm := multiInit easy
  nextHandle := 0
  performs := 0
  flags _ := false
  nextFlag := 0
  results := results
  fillCfg := []
  client := client
  log := []

end Git
