import Mathlib
import Ewokos.XBrowser.Browser

/-!
# xBrowser: the automatic retry

A failed page is loaded again 45 ticks later, and nothing the user does in between calls it off.
While a retry is pending and nothing else is asked for, accepted or stopped, it is for the
navigation requested last.
-/

set_option autoImplicit false

namespace XBrowser

/-- A retry will be issued if only time passes. -/
def Browser.Pending (b : Browser) : Prop := 0 < b.retryTicks ∧ b.retryUrl ≠ ""

instance (b : Browser) : Decidable b.Pending :=
  inferInstanceAs (Decidable (0 < b.retryTicks ∧ b.retryUrl ≠ ""))

/-- The failure of `task` is followed by a retry. -/
def Browser.Retries (b : Browser) (task : HttpTask) : Prop :=
  task.type = .html ∧ b.loadRetries < 6 ∧ task.url ≠ ""

instance (b : Browser) (task : HttpTask) : Decidable (b.Retries task) :=
  inferInstanceAs (Decidable (task.type = .html ∧ b.loadRetries < 6 ∧ task.url ≠ ""))

/-- The page of the navigation requested last is accepted. -/
def Event.acceptsLatest : Event → Bool
  | .accepted latest _ => latest
  | _ => false

/-- The task that fails. -/
def Event.failed : Event → Option HttpTask
  | .taskFailed task => some task
  | _ => none

namespace Session

/-- The commands of a step that do not come from a retry. -/
def commands (s : Session) : Event → List Command
  | .input content enter => (s.browser.onInputFunc content enter).2
  | .goBack => s.browser.goBack.2
  | .reload => s.browser.reload.2
  | .stop => s.browser.stop.2
  | .link url => [.load url]
  | .tick => s.browser.onTimer.2.1
  | _ => []

/-- The retry that `onTimer` issues in a step. -/
def retried (s : Session) : Event → List Command
  | .tick => s.browser.onTimer.2.2
  | _ => []

/-- A step that does not outdate a pending retry: no other URL is asked for, the newest navigation
is neither accepted nor stopped, and a retry is set up for the newest navigation only. -/
structure Timely (s : Session) (e : Event) : Prop where
  ask : s.browser.Pending → ∀ c ∈ s.commands e, c = .load s.browser.retryUrl
  accept : s.browser.Pending → e.acceptsLatest = false
  fail : ∀ task ∈ e.failed, s.browser.Retries task → s.newest = some (task.url, .open)

instance (s : Session) (e : Event) : Decidable (s.Timely e) :=
  decidable_of_iff ((s.browser.Pending → ∀ c ∈ s.commands e, c = .load s.browser.retryUrl) ∧
    (s.browser.Pending → e.acceptsLatest = false) ∧
    ∀ task ∈ e.failed, s.browser.Retries task → s.newest = some (task.url, .open))
    ⟨fun h => ⟨h.1, h.2.1, h.2.2⟩, fun h => ⟨h.ask, h.accept, h.fail⟩⟩

/-- Every step of the run from `s` is timely. -/
def TimelyRun : Session → List Event → Prop
  | _, [] => True
  | s, e :: events => s.Timely e ∧ (s.step e).TimelyRun events

instance decidableTimelyRun : (s : Session) → (events : List Event) → Decidable (s.TimelyRun events)
  | _, [] => .isTrue trivial
  | s, e :: events =>
    have := decidableTimelyRun (s.step e) events
    inferInstanceAs (Decidable (s.Timely e ∧ (s.step e).TimelyRun events))

/-- A pending retry is for the newest navigation, which is neither accepted nor stopped. -/
def Current (s : Session) : Prop := s.browser.Pending → s.newest = some (s.browser.retryUrl, .open)

theorem note_same (url : String) : ∀ (commands : List Command), (∀ c ∈ commands, c = .load url) →
    note (some (url, .open)) commands = some (url, .open)
  | [], _ => rfl
  | c :: commands, h => by
    have hc := h c (List.mem_cons_self ..)
    subst hc
    exact note_same url commands fun c hc => h c (List.mem_cons_of_mem _ hc)

/-- A step that leaves the retry as it is. -/
theorem Current.frame {s t : Session} (hs : s.Current) {e : Event} (he : s.Timely e)
    (hticks : t.browser.retryTicks = s.browser.retryTicks)
    (hurl : t.browser.retryUrl = s.browser.retryUrl)
    (hnewest : t.newest = note s.newest (s.commands e)) : t.Current := by
  intro hpending
  have hp : s.browser.Pending := by
    unfold Browser.Pending at *
    rwa [hticks, hurl] at hpending
  rw [hnewest, hurl, hs hp]
  exact note_same _ _ (he.ask hp)

theorem onInputFunc_retry (b : Browser) (content : String) (enter : Bool) :
    (b.onInputFunc content enter).1.retryTicks = b.retryTicks ∧
      (b.onInputFunc content enter).1.retryUrl = b.retryUrl := by
  simp only [Browser.onInputFunc]
  repeat' split
  all_goals exact ⟨rfl, rfl⟩

theorem goBack_retry (b : Browser) :
    b.goBack.1.retryTicks = b.retryTicks ∧ b.goBack.1.retryUrl = b.retryUrl := by
  unfold Browser.goBack
  split <;> exact ⟨rfl, rfl⟩

theorem reload_retry (b : Browser) :
    b.reload.1.retryTicks = b.retryTicks ∧ b.reload.1.retryUrl = b.retryUrl := by
  unfold Browser.reload
  split <;> exact ⟨rfl, rfl⟩

theorem cbUrl_retry (b : Browser) (url : String) :
    (b.cbUrl url).retryTicks = b.retryTicks ∧ (b.cbUrl url).retryUrl = b.retryUrl := by
  simp only [Browser.cbUrl, Browser.onHtmlUrlChanged]
  repeat' split
  all_goals exact ⟨rfl, rfl⟩

theorem onBuildStatus_retry (b : Browser) (status : String) (progress : Int) :
    (b.onBuildStatus status progress).retryTicks = b.retryTicks ∧
      (b.onBuildStatus status progress).retryUrl = b.retryUrl := by
  unfold Browser.onBuildStatus
  split <;> exact ⟨rfl, rfl⟩

theorem loadInitial_retry (b : Browser) :
    b.loadInitial.1.retryTicks = b.retryTicks ∧ b.loadInitial.1.retryUrl = b.retryUrl := by
  unfold Browser.loadInitial
  split <;> exact ⟨rfl, rfl⟩

theorem showStatus_retry (b : Browser) :
    b.showStatus.retryTicks = b.retryTicks ∧ b.showStatus.retryUrl = b.retryUrl := by
  unfold Browser.showStatus
  split <;> exact ⟨rfl, rfl⟩

/-- The countdown: a retry that is still pending was pending before, and one that is issued too. -/
theorem retry_spec (b : Browser) :
    (b.retry.1.Pending → b.Pending ∧ b.retry.1.retryUrl = b.retryUrl) ∧
      ∀ c ∈ b.retry.2, b.Pending ∧ c = .load b.retryUrl := by
  unfold Browser.retry
  split
  · rename_i hticks
    dsimp only
    split
    · rename_i hfire
      refine ⟨fun h => absurd rfl h.2, ?_⟩
      intro c hc
      rw [loadHtml, if_neg hfire.2, List.mem_singleton] at hc
      exact ⟨⟨hticks, hfire.2⟩, hc⟩
    · exact ⟨fun h => ⟨⟨hticks, h.2⟩, rfl⟩, by simp⟩
  · exact ⟨fun h => ⟨h, rfl⟩, by simp⟩

/-- `onTimer` and the retry. -/
theorem onTimer_retry (b : Browser) :
    (b.onTimer.1.Pending → b.Pending ∧ b.onTimer.1.retryUrl = b.retryUrl) ∧
      ∀ c ∈ b.onTimer.2.2, b.Pending ∧ c = .load b.retryUrl := by
  obtain ⟨h₁, h₂⟩ := retry_spec b.loadInitial.1
  obtain ⟨hi₁, hi₂⟩ := loadInitial_retry b
  obtain ⟨hs₁, hs₂⟩ := showStatus_retry b.loadInitial.1.retry.1
  simp only [Browser.Pending, hi₁, hi₂] at h₁ h₂
  refine ⟨?_, h₂⟩
  change (b.loadInitial.1.retry.1.showStatus.Pending → b.Pending ∧
    b.loadInitial.1.retry.1.showStatus.retryUrl = b.retryUrl)
  simp only [Browser.Pending, hs₁, hs₂]
  exact h₁

theorem step_current {s : Session} (hs : s.Current) {e : Event} (he : s.Timely e) :
    (s.step e).Current := by
  cases e with
  | input content enter =>
    obtain ⟨h₁, h₂⟩ := onInputFunc_retry s.browser content enter
    exact hs.frame he h₁ h₂ rfl
  | goBack =>
    obtain ⟨h₁, h₂⟩ := goBack_retry s.browser
    exact hs.frame he h₁ h₂ rfl
  | reload =>
    obtain ⟨h₁, h₂⟩ := reload_retry s.browser
    exact hs.frame he h₁ h₂ rfl
  | stop => exact hs.frame he rfl rfl rfl
  | link url => exact hs.frame he rfl rfl rfl
  | accepted latest url =>
    obtain ⟨h₁, h₂⟩ := cbUrl_retry s.browser url
    cases latest with
    | false => exact hs.frame he h₁ h₂ rfl
    | true =>
      intro hpending
      change (s.browser.cbUrl url).Pending at hpending
      simp only [Browser.Pending, h₁, h₂] at hpending
      exact absurd (he.accept hpending) (by simp [Event.acceptsLatest])
  | taskStart task => exact hs.frame he rfl rfl rfl
  | taskEnd task => exact hs.frame he rfl rfl rfl
  | taskFailed task =>
    by_cases hcount : task.type = .html ∧ s.browser.loadRetries < 6
    · have hstep : s.browser.onTaskFailed task = Browser.queueStatus { s.browser with
          loadRetries := s.browser.loadRetries + 1
          retryUrl := task.url
          retryTicks := 45 } ("retry " ++ toString (s.browser.loadRetries + 1)) := if_pos hcount
      intro hpending
      change (s.browser.onTaskFailed task).Pending at hpending
      change s.newest = some ((s.browser.onTaskFailed task).retryUrl, .open)
      rw [hstep] at hpending ⊢
      exact he.fail task rfl ⟨hcount.1, hcount.2, hpending.2⟩
    · have hstep : s.browser.onTaskFailed task =
          s.browser.queueStatus (task.url ++ " failed") := if_neg hcount
      refine hs.frame he ?_ ?_ rfl
      · change (s.browser.onTaskFailed task).retryTicks = _
        rw [hstep]
        rfl
      · change (s.browser.onTaskFailed task).retryUrl = _
        rw [hstep]
        rfl
  | tasksEnd => exact hs.frame he rfl rfl rfl
  | buildStatus status progress =>
    obtain ⟨h₁, h₂⟩ := onBuildStatus_retry s.browser status progress
    exact hs.frame he h₁ h₂ rfl
  | tick =>
    intro hpending
    obtain ⟨hp, hurl⟩ := (onTimer_retry s.browser).1 hpending
    change note s.newest s.browser.onTimer.2.1 = some (s.browser.onTimer.1.retryUrl, .open)
    rw [hurl, hs hp]
    exact note_same _ _ (he.ask hp)

theorem timelyRun_append (rest : List Event) : ∀ (p : List Event) (s : Session),
    s.TimelyRun (p ++ rest) ↔ s.TimelyRun p ∧ (p.foldl step s).TimelyRun rest
  | [], s => by simp [TimelyRun]
  | e :: p, s => by
    simp only [List.cons_append, TimelyRun, timelyRun_append rest p, List.foldl_cons, and_assoc]

theorem run_current : ∀ (events : List Event) (s : Session), s.Current → s.TimelyRun events →
    (events.foldl step s).Current
  | [], _, hs, _ => hs
  | e :: events, s, hs, h => run_current events (s.step e) (step_current hs h.1) h.2

/-- Along a run whose steps outdate no retry, what `onTimer` issues as a retry is the navigation
requested last, and that one has been neither accepted nor stopped. -/
theorem retry_current (initialUrl : String) (events : List Event)
    (h : (play initialUrl []).TimelyRun events) (p : List Event) (e : Event)
    (hp : p ++ [e] <+: events) (c : Command) (hc : c ∈ (play initialUrl p).retried e) :
    ∃ url, c = .load url ∧ (play initialUrl (p ++ [e])).newest = some (url, .open) := by
  obtain ⟨rest, rfl⟩ := hp
  have hrun := ((timelyRun_append rest (p ++ [e]) _).mp h).1
  obtain ⟨hbefore, hstep⟩ := (timelyRun_append [e] p _).mp hrun
  have hcur : (play initialUrl p).Current :=
    run_current p _ (fun hpending => absurd hpending.1 (Nat.lt_irrefl 0)) hbefore
  have he : (play initialUrl p).Timely e := hstep.1
  rw [play_concat]
  generalize play initialUrl p = s at hcur he hc ⊢
  cases e with
  | tick =>
    obtain ⟨hpending, rfl⟩ := (onTimer_retry s.browser).2 c hc
    refine ⟨_, rfl, ?_⟩
    change note s.newest s.browser.onTimer.2.1 = _
    rw [hcur hpending]
    exact note_same _ _ (he.ask hpending)
  | _ => simp [retried] at hc

/-- The boot race: the first load fails at once. -/
def bootRace : List Event := [.tick, .taskFailed ⟨"res://a", .html⟩] ++ List.replicate 44 .tick

/-- It is tried again 45 ticks later. -/
theorem retry_current_boot :
    ∃ url, Command.load "res://a" = .load url ∧
      (play "res://a" (bootRace ++ [.tick])).newest = some (url, .open) :=
  retry_current "res://a" (bootRace ++ [.tick]) (by decide +kernel) bootRace .tick
    (List.prefix_refl _) (.load "res://a") (by decide +kernel)

/-- A load fails, and the user goes on to another page. -/
def overridden : List Event :=
  [.tick, .taskFailed ⟨"res://a", .html⟩, .tick, .input "res://b" true] ++ List.replicate 43 .tick

/-- The retry of the first page replaces the second one. -/
theorem retry_overrides :
    ¬ ∀ (initialUrl : String) (events p : List Event) (e : Event), p ++ [e] <+: events →
      ∀ c ∈ (play initialUrl p).retried e,
        ∃ url, c = .load url ∧ (play initialUrl (p ++ [e])).newest = some (url, .open) := by
  intro h
  obtain ⟨url, hurl, hnewest⟩ := h "res://a" (overridden ++ [.tick]) overridden .tick
    (List.prefix_refl _) (.load "res://a") (by decide +kernel)
  have hb : (play "res://a" (overridden ++ [.tick])).newest = some ("res://b", .open) := by
    decide +kernel
  rw [hb] at hnewest
  simp only [Option.some.injEq, Prod.mk.injEq, and_true] at hnewest
  simp [← hnewest] at hurl

end Session

end XBrowser
