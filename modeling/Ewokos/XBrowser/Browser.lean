import Mathlib

/-!
# xBrowser: the browser widget

`BrowserWidget` of `apps/xBrowser/src/main.cpp`, with `loadHtml` and `cbUrl` of `WidgetWebview`.
The engine behind `ewebview_load` is not part of the repository: it is handed commands, and calls
back whenever and with whatever it wants.
-/

set_option autoImplicit false

namespace XBrowser

/-- What the widget asks of the engine. -/
inductive Command where
  | load (url : String)
  | stop
  deriving DecidableEq, Repr

/-- `HttpTask::type`. -/
inductive TaskType where
  | html
  | css
  | image
  deriving DecidableEq, Repr

/-- `HttpTask`. -/
structure HttpTask where
  url : String
  type : TaskType

/-- `BrowserWidget`, with the texts of its address bar and status bar. -/
structure Browser where
  addressBar : String := ""
  statusBar : String := ""
  pendingStatus : String := ""
  statusDirty : Bool := false
  initialUrl : String := ""
  initialLoadStarted : Bool := false
  /-- The back stack; the current page is last. -/
  history : List String := []
  historyNav : Bool := false
  loadRetries : Nat := 0
  retryTicks : Nat := 0
  retryUrl : String := ""
  uiCurrentUrl : String := ""

/-- `loadHtml`. -/
def loadHtml (url : String) : List Command := if url = "" then [] else [.load url]

namespace Browser

/-- `queueStatus`. -/
def queueStatus (b : Browser) (msg : String) : Browser :=
  { b with pendingStatus := msg, statusDirty := true }

/-! ## Toolbar -/

/-- `goBack`. -/
def goBack (b : Browser) : Browser × List Command :=
  if b.history.length < 2 then (b, [])
  else
    let history := b.history.dropLast
    ({ b with history := history, historyNav := true }, loadHtml (history.getLast?.getD ""))

/-- The URL that `reload` loads, empty if there is none. -/
def reloadUrl (b : Browser) : String := if b.uiCurrentUrl = "" then b.initialUrl else b.uiCurrentUrl

/-- `reload`. -/
def reload (b : Browser) : Browser × List Command :=
  if b.reloadUrl = "" then (b, [])
  else ({ b with historyNav := true }, loadHtml b.reloadUrl)

/-- `stop`. -/
def stop (b : Browser) : Browser × List Command := (b.queueStatus "stopped", [.stop])

/-- `onInputFunc`, when the address bar holds `content`. -/
def onInputFunc (b : Browser) (content : String) (enter : Bool) : Browser × List Command :=
  let b := { b with addressBar := content }
  if content = "" then (b, [])
  else if !enter then (b, [])
  else if "://".toList <:+: content.toList then (b, loadHtml content)
  else ({ b with addressBar := "https://" ++ content }, loadHtml ("https://" ++ content))

/-! ## Callbacks -/

/-- `onHtmlUrlChanged`. -/
def onHtmlUrlChanged (b : Browser) (url : String) : Browser :=
  let b :=
    if b.historyNav then { b with historyNav := false }
    else if b.history = [] ∨ b.history.getLast? ≠ some url then
      { b with history := b.history ++ [url] }
    else b
  { b with addressBar := url }

/-- `cbUrl`. -/
def cbUrl (b : Browser) (url : String) : Browser := { b with uiCurrentUrl := url }.onHtmlUrlChanged url

/-- `onTaskStart`. -/
def onTaskStart (b : Browser) (task : HttpTask) : Browser := b.queueStatus ("loading " ++ task.url)

/-- `onTaskEnd`. -/
def onTaskEnd (b : Browser) (task : HttpTask) : Browser := b.queueStatus (task.url ++ " loaded")

/-- `onTaskFailed`. -/
def onTaskFailed (b : Browser) (task : HttpTask) : Browser :=
  if task.type = .html ∧ b.loadRetries < 6 then
    queueStatus { b with
      loadRetries := b.loadRetries + 1
      retryUrl := task.url
      retryTicks := 45 } ("retry " ++ toString (b.loadRetries + 1))
  else b.queueStatus (task.url ++ " failed")

/-- `onTasksEnd`. -/
def onTasksEnd (b : Browser) : Browser := b.queueStatus ""

/-- `onBuildStatus`. -/
def onBuildStatus (b : Browser) (status : String) (progress : Int) : Browser :=
  if status = "" then b.queueStatus ""
  else b.queueStatus (status ++ " (" ++ toString progress ++ "%)")

/-! ## The timer -/

/-- `onTimer`: the load of the initial page. -/
def loadInitial (b : Browser) : Browser × List Command :=
  if !b.initialLoadStarted && b.initialUrl != "" then
    ({ b with initialLoadStarted := true }, loadHtml b.initialUrl)
  else (b, [])

/-- `onTimer`: the pending retry. -/
def retry (b : Browser) : Browser × List Command :=
  if b.retryTicks > 0 then
    let b := { b with retryTicks := b.retryTicks - 1 }
    if b.retryTicks = 0 ∧ b.retryUrl ≠ "" then ({ b with retryUrl := "" }, loadHtml b.retryUrl)
    else (b, [])
  else (b, [])

/-- `onTimer`: the status bar. -/
def showStatus (b : Browser) : Browser :=
  if b.statusDirty then { b with statusDirty := false, statusBar := b.pendingStatus } else b

/-- `onTimer`, after the callbacks of this tick: what it asks for on its own account and as a
retry. -/
def onTimer (b : Browser) : Browser × List Command × List Command :=
  let (b, first) := b.loadInitial
  let (b, again) := b.retry
  (b.showStatus, first, again)

end Browser

/-! ## Runs -/

/-- What happens to the widget: the user, the engine and the clock. -/
inductive Event where
  | input (content : String) (enter : Bool)
  | goBack
  | reload
  | stop
  /-- A link or a script starts to load `url`; the widget is not told. -/
  | link (url : String)
  /-- A page is accepted: that of the navigation requested last, or (`latest = false`) of an earlier
  one. -/
  | accepted (latest : Bool) (url : String)
  | taskStart (task : HttpTask)
  | taskEnd (task : HttpTask)
  | taskFailed (task : HttpTask)
  | tasksEnd
  | buildStatus (status : String) (progress : Int)
  | tick

/-- What has become of a navigation. -/
inductive Fate where
  | open
  | accepted
  | stopped
  deriving DecidableEq, Repr

/-- The widget and what an observer notes about it. -/
structure Session where
  browser : Browser
  /-- The navigation requested last. -/
  newest : Option (String × Fate) := none
  /-- The back stack after the last URL change. -/
  shown : List String := []
  /-- The uses of the back button since. -/
  backs : Nat := 0
  /-- A reload has loaded a page since. -/
  again : Bool := false

namespace Session

/-- The newest navigation after the commands of the user (or of the initial load). -/
def note (newest : Option (String × Fate)) : List Command → Option (String × Fate)
  | [] => newest
  | .load url :: commands => note (some (url, .open)) commands
  | .stop :: commands =>
    note (newest.map fun n => (n.1, if n.2 = .open then .stopped else n.2)) commands

/-- A step of the widget that may ask the engine for something. -/
def ask (s : Session) (r : Browser × List Command) : Session :=
  { s with browser := r.1, newest := note s.newest r.2 }

def step (s : Session) : Event → Session
  | .input content enter => s.ask (s.browser.onInputFunc content enter)
  | .goBack => { s.ask s.browser.goBack with backs := s.backs + 1 }
  | .reload => { s.ask s.browser.reload with again := s.again || s.browser.reloadUrl != "" }
  | .stop => s.ask s.browser.stop
  | .link url => s.ask (s.browser, [.load url])
  | .accepted latest url =>
    let b := s.browser.cbUrl url
    { browser := b
      newest := if latest then some (url, .accepted) else s.newest
      shown := b.history
      backs := 0
      again := false }
  | .taskStart task => { s with browser := s.browser.onTaskStart task }
  | .taskEnd task => { s with browser := s.browser.onTaskEnd task }
  | .taskFailed task => { s with browser := s.browser.onTaskFailed task }
  | .tasksEnd => { s with browser := s.browser.onTasksEnd }
  | .buildStatus status progress => { s with browser := s.browser.onBuildStatus status progress }
  | .tick => s.ask (s.browser.onTimer.1, s.browser.onTimer.2.1)

/-- The events from the start of the program on. -/
def play (initialUrl : String) (events : List Event) : Session :=
  events.foldl step { browser := { initialUrl := initialUrl } }

theorem play_concat (initialUrl : String) (events : List Event) (e : Event) :
    play initialUrl (events ++ [e]) = (play initialUrl events).step e := by
  unfold play
  rw [List.foldl_append]
  rfl

end Session

end XBrowser
