import Ewokos.Curl.Hops

/-!
# curl: the mode of a request

The method and body of the first request of a handle that was used in any way before.

* `Use`, `used` — calls on one handle, and the handle behind them.
* `Stands` — a call that no later one takes back; `used_iff` — the members of the handle that such
  calls set.
* `lastMode` — the last mode that was switched on.

Main result: `first_request_iff`.
-/

set_option autoImplicit false

namespace Curl

open CString

/-! ## Uses of a handle -/

/-- A call on a handle. -/
inductive Use where
  | setopt (option : CURLoption) (arg : VaArg) (alloc : Bool)
  | perform (w : World)

def use (h : Handle) : Use → Handle
  | .setopt option arg alloc => (setopt h option arg alloc).2
  | .perform w => ((easyPerform w h).map (·.handle)).getD h

/-- A handle of `curl_easy_init` behind the calls. -/
def used (uses : List Use) : Handle := uses.foldl use easyInit

namespace Use

/-- It switches a `long` option on. -/
def on (option : CURLoption) : Use → Bool
  | .setopt o arg _ => o == option && arg.long != 0
  | .perform _ => false

/-- It switches a `long` option off. -/
def off (option : CURLoption) : Use → Bool
  | .setopt o arg _ => o == option && arg.long == 0
  | .perform _ => false

/-- It sets a pointer option, to `NULL` or not. -/
def points (option : CURLoption) (isNull : VaArg → Bool) (null : Bool) : Use → Bool
  | .setopt o arg _ => o == option && isNull arg == null
  | .perform _ => false

/-- It sets the method by name. -/
def names : Use → Bool
  | .setopt o _ _ => o == .customRequest
  | .perform _ => false

end Use

/-! ## The specification -/

inductive Mode where
  | get | post | put | head
  deriving DecidableEq, Repr

namespace Mode

def method : Mode → CStr
  | get => str "GET"
  | post => str "POST"
  | put => str "PUT"
  | head => str "HEAD"

/-- The modes with a body. -/
def uploads : Mode → Bool
  | post | put => true
  | get | head => false

/-- The mode a call switches on. -/
def of (u : Use) : Option Mode :=
  if u.on .httpGet then some get
  else if u.on .post then some post
  else if u.on .upload then some put
  else if u.on .nobody then some head
  else none

end Mode

/-- The last mode that was switched on. -/
def lastMode (uses : List Use) : Mode := (uses.reverse.findSome? Mode.of).getD .get

/-- A request has the method and the body of the last mode. -/
structure Follows (uses : List Use) (q : Request) : Prop where
  method : q.method = (lastMode uses).method
  body : q.body.isSome = (lastMode uses).uploads

/-- A call that sets something, and none behind it that takes it back. -/
def Stands (sets clears : Use → Bool) (uses : List Use) : Prop :=
  ∃ pre u suf, uses = pre ++ u :: suf ∧ sets u = true ∧ ∀ v ∈ suf, clears v = false

/-- `CURLOPT_POST` is on, and neither a `GET` nor an upload came later. -/
def PostStands : List Use → Prop :=
  Stands (Use.on .post) fun u => u.off .post || u.on .upload || u.on .httpGet

def UploadStands : List Use → Prop :=
  Stands (Use.on .upload) fun u => u.off .upload || u.on .post || u.on .httpGet

def NobodyStands : List Use → Prop :=
  Stands (Use.on .nobody) fun u => u.off .nobody || u.on .post || u.on .upload || u.on .httpGet

/-- The last `CURLOPT_POSTFIELDS` was not `NULL`. -/
def PostFieldsStand : List Use → Prop :=
  Stands (Use.points .postFields (fun arg => arg.buffer.isNone) false)
    (Use.points .postFields (fun arg => arg.buffer.isNone) true)

def ReadFunctionStands : List Use → Prop :=
  Stands (Use.points .readFunction (fun arg => !arg.pointer) false)
    (Use.points .readFunction (fun arg => !arg.pointer) true)

/-- The last mode was not switched off again; neither a `POST` nor an upload stands under a `HEAD`;
and there is data for a body exactly in the modes that have one. -/
structure Settled (uses : List Use) : Prop where
  post : lastMode uses = .post → PostStands uses
  put : lastMode uses = .put → UploadStands uses
  head : lastMode uses = .head → NobodyStands uses ∧ ¬PostStands uses ∧ ¬UploadStands uses
  data : PostFieldsStand uses ∨ ReadFunctionStands uses ↔ (lastMode uses).uploads = true

/-! ## What stands -/

theorem stands_concat {sets clears : Use → Bool} (uses : List Use) (u : Use) :
    Stands sets clears (uses ++ [u]) ↔
      sets u = true ∨ Stands sets clears uses ∧ clears u = false := by
  constructor
  · rintro ⟨pre, v, suf, heq, hv, hsuf⟩
    induction suf using List.reverseRecOn with
    | nil =>
      obtain ⟨-, hlast⟩ := List.append_inj' heq rfl
      obtain rfl := List.singleton_inj.mp hlast
      exact .inl hv
    | append_singleton suf v' _ =>
      rw [← List.cons_append, ← List.append_assoc] at heq
      obtain ⟨rfl, hlast⟩ := List.append_inj' heq rfl
      obtain rfl := List.singleton_inj.mp hlast
      refine .inr ⟨⟨pre, v, suf, rfl, hv, fun x hx => ?_⟩, ?_⟩
      · exact hsuf x (List.mem_append_left _ hx)
      · exact hsuf u (List.mem_append_right _ List.mem_cons_self)
  · rintro (hu | ⟨⟨pre, v, suf, rfl, hv, hsuf⟩, hu⟩)
    · exact ⟨uses, u, [], rfl, hu, fun v hv => by cases hv⟩
    · refine ⟨pre, v, suf ++ [u], by simp, hv, fun x hx => ?_⟩
      rcases List.mem_append.mp hx with hx | hx
      · exact hsuf x hx
      · rw [List.mem_singleton.mp hx]
        exact hu

/-- A member of the handle that some calls set and some clear. -/
theorem used_iff (member : Handle → Bool) {sets clears : Use → Bool}
    (hinit : member easyInit = false)
    (huse : ∀ h u, member (use h u) = (sets u || (member h && !clears u))) (uses : List Use) :
    member (used uses) = true ↔ Stands sets clears uses := by
  induction uses using List.reverseRecOn with
  | nil =>
    refine iff_of_false (by rw [used, List.foldl_nil, hinit]; decide) ?_
    rintro ⟨pre, u, suf, heq, -⟩
    exact List.append_ne_nil_of_right_ne_nil pre (List.cons_ne_nil u suf) heq.symm
  | append_singleton uses u ih =>
    rw [stands_concat, ← ih, used, List.foldl_append, List.foldl_cons, List.foldl_nil, huse]
    simp [used]

/-! ## The members of the handle -/

/-- What the first request is made of. -/
structure ModeFlags where
  post : Bool
  upload : Bool
  nobody : Bool
  postFields : Bool
  readCallback : Bool

def Handle.modeFlags (h : Handle) : ModeFlags :=
  ⟨h.post, h.upload, h.nobody, h.postFields.isSome, h.readCallback⟩

section Keeps

variable {β : Type} {member : Handle → β}

theorem replaceString_keeps (h : Handle) (value : Option CStr) (alloc : Bool)
    {set : Option CStr → Handle} (herror : member h.memoryError = member h)
    (hset : ∀ s, member (set s) = member h) :
    member (h.replaceString value alloc set).2 = member h := by
  unfold Handle.replaceString
  split
  · exact herror
  · exact hset value

theorem unsupportedIf_keeps (h : Handle) (asked : Bool)
    (hmark : member h.unsupported.2 = member h) :
    member (h.unsupportedIf asked).2 = member h := by
  unfold Handle.unsupportedIf
  split
  · exact hmark
  · rfl

end Keeps

/-- The options that a request is made of. -/
def modeOptions : List CURLoption :=
  [.post, .upload, .httpGet, .nobody, .postFields, .readFunction]

/-- Every other option leaves it as it is. -/
theorem setopt_mode {option : CURLoption} (ho : option ∉ modeOptions) (h : Handle) (arg : VaArg)
    (alloc : Bool) : (setopt h option arg alloc).2.modeFlags = h.modeFlags := by
  cases option
  all_goals first
    | rfl
    | exact absurd (by decide) ho
    | exact replaceString_keeps h _ _ rfl fun _ => rfl
    | exact unsupportedIf_keeps h _ rfl

theorem perform_mode (h : Handle) (w : World) : (use h (.perform w)).modeFlags = h.modeFlags := by
  show (((easyPerform w h).map (·.handle)).getD h).modeFlags = h.modeFlags
  cases ho : easyPerform w h with
  | none => rfl
  | some o =>
    obtain ⟨o', ho', rfl⟩ := Option.map_eq_some_iff.mp ho
    have hc := congrArg Handle.modeFlags (perform_config ho')
    exact hc

/-- A member that only the options of `modeOptions` change. -/
theorem use_member {member : ModeFlags → Bool} {sets clears : Use → Bool}
    (hperform : ∀ w, sets (.perform w) = false ∧ clears (.perform w) = false)
    (hother : ∀ option ∉ modeOptions, ∀ arg alloc,
      sets (.setopt option arg alloc) = false ∧ clears (.setopt option arg alloc) = false)
    (hmode : ∀ option ∈ modeOptions, ∀ h arg alloc, member (setopt h option arg alloc).2.modeFlags =
      (sets (.setopt option arg alloc) ||
        (member h.modeFlags && !clears (.setopt option arg alloc)))) (h : Handle) (u : Use) :
    member (use h u).modeFlags = (sets u || (member h.modeFlags && !clears u)) := by
  cases u with
  | perform w =>
    obtain ⟨hs, hc⟩ := hperform w
    rw [perform_mode, hs, hc, Bool.false_or, Bool.not_false, Bool.and_true]
  | setopt option arg alloc =>
    by_cases ho : option ∈ modeOptions
    · exact hmode option ho h arg alloc
    · obtain ⟨hs, hc⟩ := hother option ho arg alloc
      rw [hs, hc, Bool.false_or, Bool.not_false, Bool.and_true]
      exact congrArg member (setopt_mode ho h arg alloc)

/-- An option that is none of those. -/
theorem on_other {option o : CURLoption} (ho : option ∉ modeOptions) (hm : o ∈ modeOptions)
    (arg : VaArg) (alloc : Bool) : Use.on o (.setopt option arg alloc) = false ∧
      Use.off o (.setopt option arg alloc) = false ∧
      ∀ isNull null, Use.points o isNull null (.setopt option arg alloc) = false := by
  have hne : (option == o) = false := beq_eq_false_iff_ne.mpr fun he => ho (he ▸ hm)
  unfold Use.on Use.off Use.points
  simp [hne]

/-- One of the options, case by case. -/
theorem modeOptions_cases {option : CURLoption} (ho : option ∈ modeOptions) :
    option = .post ∨ option = .upload ∨ option = .httpGet ∨ option = .nobody ∨
      option = .postFields ∨ option = .readFunction := by
  simpa [modeOptions] using ho

theorem post_iff (uses : List Use) : (used uses).post = true ↔ PostStands uses := by
  refine used_iff (fun h => h.modeFlags.post) rfl (use_member (fun _ => ⟨rfl, rfl⟩)
    (fun option ho arg alloc => ?_) fun option ho h arg alloc => ?_) uses
  · obtain ⟨hpost, hoff, -⟩ := on_other ho (o := .post) (by decide) arg alloc
    obtain ⟨hput, -⟩ := on_other ho (o := .upload) (by decide) arg alloc
    obtain ⟨hget, -⟩ := on_other ho (o := .httpGet) (by decide) arg alloc
    exact ⟨hpost, by rw [hoff, hput, hget]; rfl⟩
  · rcases modeOptions_cases ho with rfl | rfl | rfl | rfl | rfl | rfl
    all_goals
      by_cases hz : arg.long = 0 <;>
        simp [setopt, setLongOption, Handle.modeFlags, Use.on, Use.off, beq_eq_decide, bne, hz]

theorem upload_iff (uses : List Use) : (used uses).upload = true ↔ UploadStands uses := by
  refine used_iff (fun h => h.modeFlags.upload) rfl (use_member (fun _ => ⟨rfl, rfl⟩)
    (fun option ho arg alloc => ?_) fun option ho h arg alloc => ?_) uses
  · obtain ⟨hput, hoff, -⟩ := on_other ho (o := .upload) (by decide) arg alloc
    obtain ⟨hpost, -⟩ := on_other ho (o := .post) (by decide) arg alloc
    obtain ⟨hget, -⟩ := on_other ho (o := .httpGet) (by decide) arg alloc
    exact ⟨hput, by rw [hoff, hpost, hget]; rfl⟩
  · rcases modeOptions_cases ho with rfl | rfl | rfl | rfl | rfl | rfl
    all_goals
      by_cases hz : arg.long = 0 <;>
        simp [setopt, setLongOption, Handle.modeFlags, Use.on, Use.off, beq_eq_decide, bne, hz]

theorem nobody_iff (uses : List Use) : (used uses).nobody = true ↔ NobodyStands uses := by
  refine used_iff (fun h => h.modeFlags.nobody) rfl (use_member (fun _ => ⟨rfl, rfl⟩)
    (fun option ho arg alloc => ?_) fun option ho h arg alloc => ?_) uses
  · obtain ⟨hhead, hoff, -⟩ := on_other ho (o := .nobody) (by decide) arg alloc
    obtain ⟨hpost, -⟩ := on_other ho (o := .post) (by decide) arg alloc
    obtain ⟨hput, -⟩ := on_other ho (o := .upload) (by decide) arg alloc
    obtain ⟨hget, -⟩ := on_other ho (o := .httpGet) (by decide) arg alloc
    exact ⟨hhead, by rw [hoff, hpost, hput, hget]; rfl⟩
  · rcases modeOptions_cases ho with rfl | rfl | rfl | rfl | rfl | rfl
    all_goals
      by_cases hz : arg.long = 0 <;>
        simp [setopt, setLongOption, Handle.modeFlags, Use.on, Use.off, beq_eq_decide, bne, hz]

theorem postFields_iff (uses : List Use) :
    (used uses).postFields.isSome = true ↔ PostFieldsStand uses := by
  refine used_iff (fun h => h.modeFlags.postFields) rfl (use_member
    (fun _ => ⟨rfl, rfl⟩) (fun option ho arg alloc => ?_) fun option ho h arg alloc => ?_) uses
  · obtain ⟨-, -, hpoints⟩ := on_other ho (o := .postFields) (by decide) arg alloc
    exact ⟨hpoints _ _, hpoints _ _⟩
  · rcases modeOptions_cases ho with rfl | rfl | rfl | rfl | rfl | rfl
    all_goals
      by_cases hz : arg.long = 0 <;> cases hb : arg.buffer <;>
        simp [setopt, setLongOption, Handle.modeFlags, Use.points, beq_eq_decide, hz, hb]

theorem readCallback_iff (uses : List Use) :
    (used uses).readCallback = true ↔ ReadFunctionStands uses := by
  refine used_iff (fun h => h.modeFlags.readCallback) rfl (use_member
    (fun _ => ⟨rfl, rfl⟩) (fun option ho arg alloc => ?_) fun option ho h arg alloc => ?_) uses
  · obtain ⟨-, -, hpoints⟩ := on_other ho (o := .readFunction) (by decide) arg alloc
    exact ⟨hpoints _ _, hpoints _ _⟩
  · rcases modeOptions_cases ho with rfl | rfl | rfl | rfl | rfl | rfl
    all_goals
      by_cases hz : arg.long = 0 <;> cases hp : arg.pointer <;>
        simp [setopt, setLongOption, Handle.modeFlags, Use.points, beq_eq_decide, hz, hp]

/-! ## The last mode -/

/-- A call switches one option on. -/
theorem Use.on_unique {u : Use} {o k : CURLoption} (h : u.on o = true) (hne : k ≠ o) :
    u.on k = false := by
  cases u with
  | perform w => rfl
  | setopt option arg alloc =>
    obtain ⟨ho, -⟩ := Bool.and_eq_true_iff.mp h
    show (option == k && arg.long != 0) = false
    rw [beq_iff_eq.mp ho, beq_eq_false_iff_ne.mpr hne.symm, Bool.false_and]

theorem lastMode_concat (uses : List Use) (u : Use) :
    lastMode (uses ++ [u]) = (Mode.of u).getD (lastMode uses) := by
  unfold lastMode
  rw [List.reverse_append, List.reverse_singleton, List.singleton_append, List.findSome?_cons]
  cases Mode.of u <;> rfl

/-- A mode takes back those that exclude it. -/
theorem lastMode_excludes (uses : List Use) :
    (lastMode uses = .get → ¬PostStands uses ∧ ¬UploadStands uses ∧ ¬NobodyStands uses) ∧
      (lastMode uses = .post → ¬UploadStands uses ∧ ¬NobodyStands uses) ∧
      (lastMode uses = .put → ¬PostStands uses ∧ ¬NobodyStands uses) := by
  induction uses using List.reverseRecOn with
  | nil =>
    have hnone (sets clears : Use → Bool) : ¬Stands sets clears [] := by
      rintro ⟨pre, u, suf, heq, -⟩
      exact List.append_ne_nil_of_right_ne_nil pre (List.cons_ne_nil u suf) heq.symm
    exact ⟨fun _ => ⟨hnone _ _, hnone _ _, hnone _ _⟩, fun _ => ⟨hnone _ _, hnone _ _⟩,
      fun _ => ⟨hnone _ _, hnone _ _⟩⟩
  | append_singleton uses u ih =>
    unfold PostStands UploadStands NobodyStands at ih ⊢
    rw [lastMode_concat, stands_concat, stands_concat, stands_concat]
    unfold Mode.of
    by_cases hget : u.on .httpGet = true
    · have h₁ := Use.on_unique hget (k := .post) (by decide)
      have h₂ := Use.on_unique hget (k := .upload) (by decide)
      have h₃ := Use.on_unique hget (k := .nobody) (by decide)
      simp [hget, h₁, h₂, h₃]
    · by_cases hpost : u.on .post = true
      · have h₂ := Use.on_unique hpost (k := .upload) (by decide)
        have h₃ := Use.on_unique hpost (k := .nobody) (by decide)
        simp [hget, hpost, h₂, h₃]
      · by_cases hput : u.on .upload = true
        · have h₃ := Use.on_unique hput (k := .nobody) (by decide)
          simp [hget, hpost, hput, h₃]
        · by_cases hhead : u.on .nobody = true
          · simp [hget, hpost, hput, hhead]
          · rw [if_neg hget, if_neg hpost, if_neg hput, if_neg hhead, Option.getD_none]
            refine ⟨fun hm => ?_, fun hm => ?_, fun hm => ?_⟩
            · obtain ⟨hp, hu, hn⟩ := ih.1 hm
              exact ⟨not_or.mpr ⟨hpost, fun h => hp h.1⟩, not_or.mpr ⟨hput, fun h => hu h.1⟩,
                not_or.mpr ⟨hhead, fun h => hn h.1⟩⟩
            · obtain ⟨hu, hn⟩ := ih.2.1 hm
              exact ⟨not_or.mpr ⟨hput, fun h => hu h.1⟩, not_or.mpr ⟨hhead, fun h => hn h.1⟩⟩
            · obtain ⟨hp, hn⟩ := ih.2.2 hm
              exact ⟨not_or.mpr ⟨hpost, fun h => hp h.1⟩, not_or.mpr ⟨hhead, fun h => hn h.1⟩⟩

/-! ## The first request -/

theorem first_request {w : World} {h : Handle} {o : Outcome} {q : Request}
    (ho : perform w h = some o) (hq : (requests o.events).head? = some q) :
    q.method = firstMethod h ∧ q.body.isSome = (h.postFields.isSome || h.readCallback) := by
  rcases perform_run ho with ⟨-, hno⟩ | ⟨url, t, ts, -, -, hbegin, hr, hreq⟩
  · rw [hno] at hq
    cases hq
  · have hfirst : ∃ events rest, o.passes = events :: rest ∧ events = (pass (w.hops 0) t url).2 ∧
        ((∃ t', (pass (w.hops 0) t url).1 = .again t') ∨ rest = []) := by
      generalize o.passes = passes at hr ⊢
      generalize o.code = code at hr
      generalize o.handle = h' at hr
      cases hr with
      | stop ends => exact ⟨_, _, rfl, rfl, .inr rfl⟩
      | again goes _ => exact ⟨_, _, rfl, rfl, .inl ⟨_, goes⟩⟩
    obtain ⟨events, rest, hpasses, rfl, hrest⟩ := hfirst
    rw [hreq, hpasses, List.flatten_cons, requests_append] at hq
    rcases pass_sends (w.hops 0) t url with ⟨q', hq', hs, -⟩ | ⟨hno, t', hstop⟩
    · rw [hq', List.singleton_append, List.head?_cons, Option.some.injEq] at hq
      obtain rfl := hq
      rw [hs.method, hs.body, hbegin.method, hbegin.hasBody]
      refine ⟨rfl, ?_⟩
      split <;> simp_all
    · rcases hrest with ⟨t'', hagain⟩ | rfl
      · cases hstop.symm.trans hagain
      · rw [hno] at hq
        cases hq

theorem setopt_customRequest {option : CURLoption} (ho : option ≠ .customRequest) (h : Handle)
    (arg : VaArg) (alloc : Bool) : (setopt h option arg alloc).2.customRequest = h.customRequest := by
  cases option
  all_goals first
    | rfl
    | exact absurd rfl ho
    | exact @replaceString_keeps _ Handle.customRequest h _ _ _ rfl fun _ => rfl
    | exact @unsupportedIf_keeps _ Handle.customRequest h _ rfl
    | by_cases hz : arg.long = 0 <;> simp [setopt, setLongOption, hz]

/-- Without a name for the method, the handle has none. -/
theorem used_customRequest {uses : List Use} (h : ∀ u ∈ uses, u.names = false) :
    (used uses).customRequest = none := by
  induction uses using List.reverseRecOn with
  | nil => rfl
  | append_singleton uses u ih =>
    have hrest := ih fun v hv => h v (List.mem_append_left _ hv)
    have hu := h u (List.mem_append_right _ List.mem_cons_self)
    rw [used, List.foldl_append, List.foldl_cons, List.foldl_nil]
    change (use (used uses) u).customRequest = none
    generalize used uses = k at hrest ⊢
    cases u with
    | perform w =>
      show (((easyPerform w k).map (·.handle)).getD k).customRequest = none
      cases ho : easyPerform w k with
      | none => exact hrest
      | some o =>
        obtain ⟨o', ho', rfl⟩ := Option.map_eq_some_iff.mp ho
        have hc := congrArg Handle.customRequest (perform_config ho')
        exact hc.trans hrest
    | setopt option arg alloc =>
      have hne : option ≠ .customRequest := beq_eq_false_iff_ne.mp hu
      exact (setopt_customRequest hne k arg alloc).trans hrest

/-- **Method and body follow the last mode.**  The first request of a handle that never got a method
by name has the method and the body of the last mode that was switched on, if and only if the handle
is settled in it. -/
theorem first_request_iff (uses : List Use) (hnames : ∀ u ∈ uses, u.names = false) {w : World}
    {o : Outcome} {q : Request} (ho : easyPerform w (used uses) = some o)
    (hq : (requests o.events).head? = some q) : Follows uses q ↔ Settled uses := by
  obtain ⟨o', ho', rfl⟩ := Option.map_eq_some_iff.mp ho
  obtain ⟨hmethod, hbody⟩ := first_request ho' hq
  replace hmethod : q.method = firstMethod (used uses) := hmethod
  replace hbody : q.body.isSome = ((used uses).postFields.isSome || (used uses).readCallback) := hbody
  have hcustom := used_customRequest hnames
  have hpost := post_iff uses
  have hput := upload_iff uses
  have hhead := nobody_iff uses
  obtain ⟨hget, hpostOnly, hputOnly⟩ := lastMode_excludes uses
  have hdata : (q.body.isSome = (lastMode uses).uploads) ↔
      (PostFieldsStand uses ∨ ReadFunctionStands uses ↔ (lastMode uses).uploads = true) := by
    rw [hbody, Bool.eq_iff_iff, Bool.or_eq_true, postFields_iff, readCallback_iff]
  have hname : q.method = (lastMode uses).method ↔
      (lastMode uses = .post → PostStands uses) ∧ (lastMode uses = .put → UploadStands uses) ∧
        (lastMode uses = .head → NobodyStands uses ∧ ¬PostStands uses ∧ ¬UploadStands uses) := by
    have hmethods : ∀ m m' : Mode, m.method = m'.method → m = m' := by
      intro m m' h
      cases m <;> cases m' <;> first | rfl | (revert h; decide +kernel)
    -- the method of the source is that of a mode, too
    have hmode : firstMethod (used uses) = (if (used uses).upload then Mode.put
        else if (used uses).post then Mode.post
        else if (used uses).nobody then Mode.head else Mode.get).method := by
      unfold firstMethod
      rw [hcustom, Option.getD_none]
      split
      · rfl
      · split
        · rfl
        · split <;> rfl
    rw [hmethod, hmode]
    rw [← hpost, ← hput, ← hhead] at *
    rw [(⟨fun h => hmethods _ _ h, fun h => congrArg Mode.method h⟩ : _ ↔ _)]
    cases hm : lastMode uses with
    | get =>
      obtain ⟨h₁, h₂, h₃⟩ := hget hm
      simp [h₁, h₂, h₃]
    | post =>
      obtain ⟨h₂, h₃⟩ := hpostOnly hm
      cases h₁ : (used uses).post <;> simp [h₂, h₃]
    | put =>
      obtain ⟨h₁, h₃⟩ := hputOnly hm
      cases h₂ : (used uses).upload <;> simp [h₁, h₃]
    | head =>
      cases h₁ : (used uses).post <;> cases h₂ : (used uses).upload <;>
        cases h₃ : (used uses).nobody <;> simp
  constructor
  · rintro ⟨hm, hb⟩
    obtain ⟨h₁, h₂, h₃⟩ := hname.mp hm
    exact ⟨h₁, h₂, h₃, hdata.mp hb⟩
  · rintro ⟨h₁, h₂, h₃, hb⟩
    exact ⟨hname.mpr ⟨h₁, h₂, h₃⟩, hdata.mpr hb⟩

/-- A `long` argument. -/
def VaArg.ofLong (n : Int) : VaArg := ⟨none, [], none, none, false, n⟩

/-- A handle with a URL, and `option` on. -/
def switched (options : List CURLoption) : List Use :=
  .setopt .url (.ofStr "http://h/") true :: options.map fun o => .setopt o (.ofLong 1) true

theorem switched_sends (options : List CURLoption) (method : String)
    (h : (easyPerform twoChunks (used (switched options))).map (fun o =>
      ((requests o.events).head?).map (·.method)) = some (some (str method))) :
    ∃ (o : Outcome) (q : Request), easyPerform twoChunks (used (switched options)) = some o ∧
      (requests o.events).head? = some q ∧ q.method = str method := by
  obtain ⟨o, ho, heq⟩ := Option.map_eq_some_iff.mp h
  obtain ⟨q, hq, hm⟩ := Option.map_eq_some_iff.mp heq
  exact ⟨o, q, ho, hq, hm⟩

/-- `HTTPGET` behind `NOBODY`. -/
theorem first_request_iff_get : ∃ (o : Outcome) (q : Request),
    easyPerform twoChunks (used (switched [.nobody, .httpGet])) = some o ∧
      (requests o.events).head? = some q ∧
      (Follows (switched [.nobody, .httpGet]) q ↔ Settled (switched [.nobody, .httpGet])) := by
  obtain ⟨o, q, ho, hq, -⟩ := switched_sends [.nobody, .httpGet] "GET"
    (by decide +kernel)
  exact ⟨o, q, ho, hq, first_request_iff _ (by decide) ho hq⟩

/-- `NOBODY` behind `POST` sends a `POST`. -/
theorem head_sends_post : ¬∀ uses : List Use, (∀ u ∈ uses, u.names = false) →
    ∀ (w : World) (o : Outcome) (q : Request), easyPerform w (used uses) = some o →
      (requests o.events).head? = some q → Follows uses q := by
  intro h
  obtain ⟨o, q, ho, hq, hm⟩ := switched_sends [.post, .nobody] "POST"
    (by decide +kernel)
  have hmethod := (h (switched [.post, .nobody]) (by decide) _ o q ho hq).method
  rw [hm] at hmethod
  revert hmethod
  decide +kernel

end Curl
