import Ewokos.Lib.Chain
import Ewokos.Curl.Delivery

/-!
# curl: the multi handle

`curl_multi_add_handle` … `curl_multi_info_read` of `bin/git/port/ewokos/curl_compat.c`, on the
two linked lists of a `CURLM`: the easy handles through their `next` member, and the message
nodes between `messages_head` and `messages_tail`.

* A handle and a node are addresses; `entered` and `nodeCount` only bound the list loops.
* `Op`, `step`, `run` — calls of the application in any order, with what they return.
* `Inv` — the lists behind the pointers; one lemma for each operation says what it does to them.
* `performed_once` — a handle that is added is transferred by the next perform, and not again.

The application sets options of a handle at any time, but its callbacks do not call back into the
library.
-/

set_option autoImplicit false

namespace Curl

open Intrusive

/-- `CURLMcode`. -/
inductive MCode where
  | ok
  | badEasyHandle
  | outOfMemory
  deriving DecidableEq, Repr

/-- `CURLMsg` of kind `CURLMSG_DONE`. -/
structure Message where
  easyHandle : Nat
  result : Code
  deriving DecidableEq, Repr

/-- `CurlMessageNode`. -/
structure MessageNode where
  message : Message
  next : Option Nat
  deriving DecidableEq, Repr

/-- `struct CURLM`, with the easy handles and message nodes in memory. -/
structure Multi where
  easy : Nat → Handle
  /-- how often a handle was put on the list -/
  entered : Nat
  handles : Option Nat
  nodes : Nat → MessageNode
  /-- how many nodes were allocated -/
  nodeCount : Nat
  messagesHead : Option Nat
  messagesTail : Option Nat

namespace Multi

/-- The links of the easy handles. -/
def nextOf (m : Multi) (a : Nat) : Option Nat := (m.easy a).next

/-- The links of the message nodes. -/
def nodeNext (m : Multi) (i : Nat) : Option Nat := (m.nodes i).next

/-- One store to the members of an easy handle. -/
def setEasy (m : Multi) (a : Nat) (h : Handle) : Multi :=
  { m with easy := Function.update m.easy a h }

/-- `curl_multi_add_handle`. -/
def addHandle (m : Multi) (handle : Option Nat) : MCode × Multi :=
  match handle with
  | none => (.badEasyHandle, m)
  | some a =>
    if (m.easy a).added then (.ok, m)
    else
      let m' := m.setEasy a { m.easy a with added := true, completed := false, next := m.handles }
      (.ok, { m' with handles := some a, entered := m.entered + 1 })

/-- The search of `curl_multi_remove_handle`: the cell whose link it stops at (`none` for
`multi->handles`), and what the link holds. -/
def findLink (m : Multi) (handle : Nat) :
    Nat → Option Nat → Option Nat → Option (Option Nat × Option Nat)
  | _, prev, none => some (prev, none)
  | 0, _, some _ => none
  | fuel + 1, prev, some a =>
    if a = handle then some (prev, some a) else findLink m handle fuel (some a) (m.easy a).next

/-- `*link = value`. -/
def setLink (m : Multi) (link : Option Nat) (value : Option Nat) : Multi :=
  match link with
  | none => { m with handles := value }
  | some p => m.setEasy p { m.easy p with next := value }

/-- `curl_multi_remove_handle`. -/
def removeHandle (m : Multi) (handle : Option Nat) : Option (MCode × Multi) :=
  match handle with
  | none => some (.badEasyHandle, m)
  | some a => do
    let (link, found) ← m.findLink a m.entered none m.handles
    let m := if found.isSome then m.setLink link (m.easy a).next else m
    some (.ok, m.setEasy a { m.easy a with next := none, added := false })

/-- `curl_queue_done`; `alloc` answers the `calloc`. -/
def queueDone (m : Multi) (a : Nat) (alloc : Bool) : MCode × Multi :=
  if alloc then
    let i := m.nodeCount
    let nodes := Function.update m.nodes i ⟨⟨a, (m.easy a).result⟩, none⟩
    let m := match m.messagesTail with
      | some t => { m with nodes := Function.update nodes t { nodes t with next := some i } }
      | none => { m with nodes := nodes, messagesHead := some i }
    (.ok, { m with nodeCount := i + 1, messagesTail := some i })
  else (.outOfMemory, m)

/-- The loop of `curl_multi_perform`, with the transfers it makes. -/
def performFrom (worlds : Nat → World) (alloc : Nat → Bool) :
    Nat → Option Nat → Multi → Option (MCode × Multi × List Message)
  | _, none, m => some (.ok, m, [])
  | 0, some _, _ => none
  | fuel + 1, some a, m =>
    if (m.easy a).completed then performFrom worlds alloc fuel (m.easy a).next m
    else do
      let o ← easyPerform (worlds a) (m.easy a)
      match (m.setEasy a o.handle).queueDone a (alloc a) with
      | (.ok, m) =>
        let (code, m, transfers) ← performFrom worlds alloc fuel (m.easy a).next m
        some (code, m, ⟨a, o.code⟩ :: transfers)
      | (code, m) => some (code, m, [⟨a, o.code⟩])

/-- `curl_multi_perform`: its result, `*running_handles`, and the transfers it made. -/
def perform (m : Multi) (worlds : Nat → World) (alloc : Nat → Bool) :
    Option (MCode × Option Nat × Multi × List Message) := do
  let (code, m, transfers) ← performFrom worlds alloc m.entered m.handles m
  if code = .ok then
    let all ← walk m.nextOf m.entered m.handles
    some (code, some (all.countP fun a => !(m.easy a).completed), m, transfers)
  else some (code, none, m, transfers)

/-- Take the first node off the queue. -/
def popMessage (m : Multi) : Multi :=
  match m.messagesHead with
  | none => m
  | some i =>
    let head := (m.nodes i).next
    { m with messagesHead := head, messagesTail := if head.isNone then none else m.messagesTail }

/-- `curl_multi_info_read`: the message, and `*messages_in_queue`. -/
def infoRead (m : Multi) : Option (Option Message × Nat × Multi) :=
  let node := m.messagesHead.map m.nodes
  let m := m.popMessage
  (walk m.nodeNext m.nodeCount m.messagesHead).map fun rest =>
    (node.map (·.message), rest.length, m)

end Multi

/-! ## Runs -/

/-- A call of the application. -/
inductive Op where
  /-- any change of a handle's options between calls -/
  | setopt (a : Nat) (options : Handle → Handle)
  | addHandle (handle : Option Nat)
  | removeHandle (handle : Option Nat)
  | perform (worlds : Nat → World) (alloc : Nat → Bool)
  | infoRead

/-- What a call returns.  A perform also tells which transfers it made, with their results. -/
inductive Out where
  | code (c : MCode)
  | performed (c : MCode) (running : Option Nat) (transfers : List Message)
  | read (message : Option Message) (inQueue : Nat)
  deriving DecidableEq, Repr

/-- Options set by the application; the members of the multi interface are not options. -/
def Handle.setOptions (h : Handle) (options : Handle → Handle) : Handle :=
  { options h with added := h.added, completed := h.completed, next := h.next }

/-- One call. -/
def step (m : Multi) : Op → Option (Multi × Out)
  | .setopt a options => some (m.setEasy a ((m.easy a).setOptions options), .code .ok)
  | .addHandle handle =>
    let (c, m) := m.addHandle handle
    some (m, .code c)
  | .removeHandle handle => (m.removeHandle handle).map fun (c, m) => (m, .code c)
  | .perform worlds alloc =>
    (m.perform worlds alloc).map fun (c, running, m, transfers) =>
      (m, .performed c running transfers)
  | .infoRead => m.infoRead.map fun (message, count, m) => (m, .read message count)

/-- A sequence of calls. -/
def run (m : Multi) : List Op → Option (Multi × List Out)
  | [] => some (m, [])
  | op :: ops => do
    let (m, out) ← step m op
    let (m, outs) ← run m ops
    some (m, out :: outs)

/-- `curl_multi_init`, with handles that are not added anywhere. -/
def multiInit (easy : Nat → Handle) : Multi where
  easy a := { easy a with added := false, completed := false, next := none }
  entered := 0
  handles := none
  nodes _ := ⟨⟨0, .ok⟩, none⟩
  nodeCount := 0
  messagesHead := none
  messagesTail := none

end Curl
