import Mathlib
import Ewokos.XBrowser.Browser

/-!
# xBrowser: the back stack

`goBack` pops the current page at once and leaves `historyNav` to whichever URL change comes next.
The stack follows the visible page exactly when that is the page `goBack` and `reload` asked for.
-/

set_option autoImplicit false

namespace XBrowser

namespace Session

/-- The back stack after the uses of the back button since the last URL change. -/
def stepped (s : Session) : List String := s.shown.take (max 1 (s.shown.length - s.backs))

/-- Since the last URL change the back button has stepped back or a reload has loaded a page. -/
def Awaiting (s : Session) : Prop := s.again = true ∨ (0 < s.backs ∧ 1 < s.shown.length)

/-- What a step keeps: the widget's stack and flag are those of the observer. -/
structure Followed (s : Session) : Prop where
  history : s.browser.history = s.stepped
  flag : s.browser.historyNav = true ↔ s.Awaiting

/-- A step that leaves the stack, the flag and the observer's notes alone. -/
theorem Followed.frame {s t : Session} (hs : s.Followed)
    (hhistory : t.browser.history = s.browser.history)
    (hflag : t.browser.historyNav = s.browser.historyNav) (hshown : t.shown = s.shown)
    (hbacks : t.backs = s.backs) (hagain : t.again = s.again) : t.Followed := by
  have hstepped : t.stepped = s.stepped := by simp only [stepped, hshown, hbacks]
  refine ⟨by rw [hhistory, hstepped, hs.history], ?_⟩
  rw [hflag, hs.flag]
  simp only [Awaiting, hshown, hbacks, hagain]

theorem goBack_followed {s : Session} (hs : s.Followed) : (s.step .goBack).Followed := by
  have hlen := congrArg List.length hs.history
  simp only [stepped, List.length_take] at hlen
  by_cases hshort : s.browser.history.length < 2
  · have hgo : s.browser.goBack = (s.browser, []) := if_pos hshort
    refine ⟨?_, ?_⟩
    · change s.browser.goBack.1.history = s.shown.take (max 1 (s.shown.length - (s.backs + 1)))
      rw [hgo, hs.history, stepped]
      by_cases h : s.shown.length ≤ 1
      · rw [List.take_of_length_le (by omega), List.take_of_length_le (by omega)]
      · congr 1
        omega
    · change s.browser.goBack.1.historyNav = true ↔
        s.again = true ∨ (0 < s.backs + 1 ∧ 1 < s.shown.length)
      have hsame : (0 < s.backs ∧ 1 < s.shown.length) ↔
          (0 < s.backs + 1 ∧ 1 < s.shown.length) := by omega
      rw [hgo, hs.flag, Awaiting, hsame]
  · have hgo : s.browser.goBack =
        ({ s.browser with history := s.browser.history.dropLast, historyNav := true },
          loadHtml (s.browser.history.dropLast.getLast?.getD "")) := if_neg hshort
    refine ⟨?_, ?_⟩
    · change s.browser.goBack.1.history = s.shown.take (max 1 (s.shown.length - (s.backs + 1)))
      rw [hgo]
      change s.browser.history.dropLast = _
      rw [hs.history, stepped, List.dropLast_eq_take, List.take_take, List.length_take]
      congr 1
      omega
    · change s.browser.goBack.1.historyNav = true ↔
        s.again = true ∨ (0 < s.backs + 1 ∧ 1 < s.shown.length)
      rw [hgo]
      simp only [true_iff]
      omega

theorem reload_followed {s : Session} (hs : s.Followed) : (s.step .reload).Followed := by
  by_cases hurl : s.browser.reloadUrl = ""
  · have hre : s.browser.reload = (s.browser, []) := if_pos hurl
    refine hs.frame ?_ ?_ rfl rfl ?_
    · change s.browser.reload.1.history = _
      rw [hre]
    · change s.browser.reload.1.historyNav = _
      rw [hre]
    · change (s.again || s.browser.reloadUrl != "") = s.again
      simp [hurl]
  · have hre : s.browser.reload =
        ({ s.browser with historyNav := true }, loadHtml s.browser.reloadUrl) := if_neg hurl
    refine ⟨?_, ?_⟩
    · change s.browser.reload.1.history = s.stepped
      rw [hre]
      exact hs.history
    · change s.browser.reload.1.historyNav = true ↔
        (s.again || s.browser.reloadUrl != "") = true ∨ _
      simp [hre, hurl]

theorem accepted_followed (s : Session) (latest : Bool) (url : String) :
    (s.step (.accepted latest url)).Followed := by
  refine ⟨?_, ?_⟩
  · change (s.browser.cbUrl url).history =
      (s.browser.cbUrl url).history.take (max 1 ((s.browser.cbUrl url).history.length - 0))
    rw [List.take_of_length_le (by omega)]
  · have hnav : (s.browser.cbUrl url).historyNav = false := by
      simp only [Browser.cbUrl, Browser.onHtmlUrlChanged]
      split
      · rfl
      · rename_i hnav
        split <;> simpa using hnav
    change (s.browser.cbUrl url).historyNav = true ↔ _
    simp [hnav, step, Awaiting]

theorem onInputFunc_frame (b : Browser) (content : String) (enter : Bool) :
    (b.onInputFunc content enter).1.history = b.history ∧
      (b.onInputFunc content enter).1.historyNav = b.historyNav := by
  simp only [Browser.onInputFunc]
  split
  · exact ⟨rfl, rfl⟩
  · split
    · exact ⟨rfl, rfl⟩
    · split <;> exact ⟨rfl, rfl⟩

theorem onTimer_frame (b : Browser) :
    b.onTimer.1.history = b.history ∧ b.onTimer.1.historyNav = b.historyNav := by
  simp only [Browser.onTimer, Browser.loadInitial, Browser.retry, Browser.showStatus]
  repeat' split
  all_goals exact ⟨rfl, rfl⟩

theorem onTaskFailed_frame (b : Browser) (task : HttpTask) :
    (b.onTaskFailed task).history = b.history ∧
      (b.onTaskFailed task).historyNav = b.historyNav := by
  simp only [Browser.onTaskFailed]
  split <;> exact ⟨rfl, rfl⟩

theorem onBuildStatus_frame (b : Browser) (status : String) (progress : Int) :
    (b.onBuildStatus status progress).history = b.history ∧
      (b.onBuildStatus status progress).historyNav = b.historyNav := by
  simp only [Browser.onBuildStatus]
  split <;> exact ⟨rfl, rfl⟩

theorem step_followed {s : Session} (hs : s.Followed) (e : Event) : (s.step e).Followed := by
  cases e with
  | input content enter =>
    obtain ⟨h₁, h₂⟩ := onInputFunc_frame s.browser content enter
    exact hs.frame h₁ h₂ rfl rfl rfl
  | goBack => exact goBack_followed hs
  | reload => exact reload_followed hs
  | stop => exact hs.frame rfl rfl rfl rfl rfl
  | link url => exact hs.frame rfl rfl rfl rfl rfl
  | accepted latest url => exact accepted_followed s latest url
  | taskStart task => exact hs.frame rfl rfl rfl rfl rfl
  | taskEnd task => exact hs.frame rfl rfl rfl rfl rfl
  | taskFailed task =>
    obtain ⟨h₁, h₂⟩ := onTaskFailed_frame s.browser task
    exact hs.frame h₁ h₂ rfl rfl rfl
  | tasksEnd => exact hs.frame rfl rfl rfl rfl rfl
  | buildStatus status progress =>
    obtain ⟨h₁, h₂⟩ := onBuildStatus_frame s.browser status progress
    exact hs.frame h₁ h₂ rfl rfl rfl
  | tick =>
    obtain ⟨h₁, h₂⟩ := onTimer_frame s.browser
    exact hs.frame h₁ h₂ rfl rfl rfl

theorem play_followed (initialUrl : String) (events : List Event) :
    (play initialUrl events).Followed := by
  induction events using List.reverseRecOn with
  | nil => exact ⟨rfl, by simp [play, Awaiting]⟩
  | append_singleton events e ih =>
    rw [play_concat]
    exact step_followed ih e

/-- A URL change consumes the flag, or records the page. -/
theorem onHtmlUrlChanged_top (b : Browser) (url : String) :
    (b.onHtmlUrlChanged url).history.getLast? = some url ↔
      (b.historyNav = true → b.history.getLast? = some url) := by
  simp only [Browser.onHtmlUrlChanged]
  split
  · rename_i hnav
    simp [hnav]
  · rename_i hnav
    split
    · simp [hnav]
    · rename_i hsame
      simp only [not_or, not_not] at hsame
      simp [hnav, hsame.2]

/-- Along every run each URL change leaves its page on top of the back stack iff each one that
follows the back button or a reload is of the page they lead to. -/
theorem history_follows_iff (initialUrl : String) (events : List Event) :
    (∀ p latest url, p ++ [.accepted latest url] <+: events →
      (play initialUrl (p ++ [.accepted latest url])).browser.history.getLast? = some url) ↔
    (∀ p latest url, p ++ [.accepted latest url] <+: events →
      (play initialUrl p).Awaiting → (play initialUrl p).stepped.getLast? = some url) := by
  have hstep : ∀ p latest url,
      (play initialUrl (p ++ [.accepted latest url])).browser.history.getLast? = some url ↔
        ((play initialUrl p).Awaiting → (play initialUrl p).stepped.getLast? = some url) := by
    intro p latest url
    have hp := play_followed initialUrl p
    rw [play_concat, ← hp.history, ← hp.flag]
    exact onHtmlUrlChanged_top { (play initialUrl p).browser with uiCurrentUrl := url } url
  simp only [hstep]

/-- The page gone back to fails to load, a link is followed: the stack still says the page before. -/
theorem history_loses_page :
    ¬ ∀ (initialUrl : String) (events p : List Event) (latest : Bool) (url : String),
      p ++ [.accepted latest url] <+: events →
        (play initialUrl (p ++ [.accepted latest url])).browser.history.getLast? = some url := by
  intro h
  have hbad := h "res://a" ([.tick, .accepted true "res://a", .link "res://b",
    .accepted true "res://b", .goBack, .taskFailed ⟨"res://a", .html⟩, .tick, .link "res://c"] ++
      [.accepted true "res://c"]) _ true "res://c" (List.prefix_refl _)
  revert hbad
  decide +kernel

end Session

end XBrowser
