import Ewokos.Evim.Command
import Ewokos.Evim.EditSpec

/-!
# evim: what looking leaves alone

`Looked s s'` — from `s` to `s'` the text, the registers, the options, the files and the mode are
unchanged, and of the undo state at most the queue was committed.  It is a preorder, and every
function that only moves the cursor, scrolls, reads keys or reports stays inside it: `look_looked`
collects the cases of the `switch`.  `Glanced` adds the line that `edit_file` keeps for `U`, and that
no keys come up but those of `.`.
-/

set_option autoImplicit false

namespace Evim

open Cells

/-- What a command that only looks leaves as it was. -/
structure Looked (s s' : Ed) : Prop where
  buf : s'.toBuf = s.toBuf
  undos : s'.toUndos = s.toUndos ∨ s'.toUndos = s.undoQueueCommit.toUndos
  reg : s'.reg = s.reg
  regtype : s'.regtype = s.regtype
  options : s'.toOptions = s.toOptions
  files : s'.toFiles = s.toFiles
  cmdMode : s'.cmdMode = s.cmdMode

namespace Ed

/-- A commit leaves nothing queued. -/
theorem undoQueueCommit_undoQ (s : Ed) : s.undoQueueCommit.undoQ = 0 := by
  unfold undoQueueCommit
  split
  · rfl
  · omega

/-- What a commit does depends on the text and the undo state only. -/
theorem undoQueueCommit_congr {s t : Ed} (hb : t.toBuf = s.toBuf) (hu : t.toUndos = s.toUndos) :
    t.undoQueueCommit.toUndos = s.undoQueueCommit.toUndos := by
  have hq := congrArg Undos.undoQ hu
  have htext := congrArg Buf.text hb
  have hend := congrArg Buf.end_ hb
  unfold undoQueueCommit
  rw [hq]
  split
  · simp only [pushObject, htext, hend, hu]
  · exact hu

end Ed

namespace Looked

theorem refl (s : Ed) : Looked s s := ⟨rfl, Or.inl rfl, rfl, rfl, rfl, rfl, rfl⟩

theorem trans {s t u : Ed} (h₁ : Looked s t) (h₂ : Looked t u) : Looked s u := by
  refine ⟨h₂.buf.trans h₁.buf, ?_, h₂.reg.trans h₁.reg, h₂.regtype.trans h₁.regtype,
    h₂.options.trans h₁.options, h₂.files.trans h₁.files, h₂.cmdMode.trans h₁.cmdMode⟩
  rcases h₁.undos with e₁ | e₁
  · rcases h₂.undos with e₂ | e₂
    · exact Or.inl (e₂.trans e₁)
    · exact Or.inr (e₂.trans (Ed.undoQueueCommit_congr h₁.buf e₁))
  · have hq : t.undoQ = 0 := (congrArg Undos.undoQ e₁).trans s.undoQueueCommit_undoQ
    have hc := congrArg Ed.toUndos (Ed.undoQueueCommit_of_empty hq)
    rcases h₂.undos with e₂ | e₂
    · exact Or.inr (e₂.trans e₁)
    · exact Or.inr (e₂.trans (hc.trans e₁))

theorem ite {s t u : Ed} {p : Prop} [Decidable p] (h₁ : Looked s t) (h₂ : Looked s u) :
    Looked s (if p then t else u) := by
  split
  · exact h₁
  · exact h₂

theorem commit (s : Ed) : Looked s s.undoQueueCommit := by
  refine ⟨?_, Or.inr rfl, ?_, ?_, ?_, ?_, ?_⟩ <;> rw [Ed.undoQueueCommit_eq]

theorem mem {s t : Ed} (h : Looked s t) : t.mem = s.mem := congrArg Buf.mem h.buf
theorem text {s t : Ed} (h : Looked s t) : t.text = s.text := congrArg Buf.text h.buf
theorem end_ {s t : Ed} (h : Looked s t) : t.end_ = s.end_ := congrArg Buf.end_ h.buf
theorem bytes {s t : Ed} (h : Looked s t) : t.bytes = s.bytes := congrArg Buf.bytes h.buf

end Looked

/-- The line that `edit_file` keeps for `U` is as it was: its address, and its text unless the
command has freed it.  No command yanks into that register. -/
structure LineKept (s s' : Ed) : Prop where
  curLine : s'.editFileCurLine = s.editFileCurLine
  ydreg : s.ydreg < Ureg → s'.ydreg < Ureg
  saved : s.ydreg < Ureg → s'.reg Ureg = s.reg Ureg ∨ s'.reg Ureg = none

namespace LineKept

variable {s t u : Ed}

theorem same (hr : t.toRegs = s.toRegs) (hc : t.editFileCurLine = s.editFileCurLine) :
    LineKept s t := by
  have hreg := congrArg Regs.reg hr
  have hyd := congrArg Regs.ydreg hr
  exact ⟨hc, fun h => hyd ▸ h, fun _ => .inl (congrFun hreg Ureg)⟩

theorem refl (s : Ed) : LineKept s s := .same rfl rfl

theorem trans (h₁ : LineKept s t) (h₂ : LineKept t u) : LineKept s u := by
  refine ⟨h₂.curLine.trans h₁.curLine, fun h => h₂.ydreg (h₁.ydreg h), fun h => ?_⟩
  rcases h₂.saved (h₁.ydreg h) with e₂ | e₂
  · rcases h₁.saved h with e₁ | e₁
    · exact .inl (e₂.trans e₁)
    · exact .inr (e₂.trans e₁)
  · exact .inr e₂

end LineKept

/-- No key has come up anew, on stdin or in the `.` queue. -/
structure KeysKept (s s' : Ed) : Prop where
  keys : s'.env.keys <:+ s.env.keys
  queue : s'.ioq.getD [] <:+ s.ioq.getD []

namespace KeysKept

variable {s t u : Ed}

theorem same (hk : t.env.keys = s.env.keys) (hq : t.ioq = s.ioq) : KeysKept s t :=
  ⟨by rw [hk], by rw [hq]⟩

theorem refl (s : Ed) : KeysKept s s := .same rfl rfl

theorem trans (h₁ : KeysKept s t) (h₂ : KeysKept t u) : KeysKept s u :=
  ⟨h₂.keys.trans h₁.keys, h₂.queue.trans h₁.queue⟩

end KeysKept

/-- `Looked`, also at the line that `edit_file` keeps and at the keys that are to come. -/
structure Glanced (s s' : Ed) : Prop extends Looked s s' where
  lineKept : LineKept s s'
  keysKept : KeysKept s s'

namespace Glanced

variable {s t u : Ed}

/-- Only other fields have changed. -/
theorem of_fields (hb : t.toBuf = s.toBuf) (hu : t.toUndos = s.toUndos) (hr : t.toRegs = s.toRegs)
    (ho : t.toOptions = s.toOptions) (hf : t.toFiles = s.toFiles) (hm : t.cmdMode = s.cmdMode)
    (hc : t.editFileCurLine = s.editFileCurLine) (hk : t.env.keys = s.env.keys)
    (hq : t.ioq = s.ioq) : Glanced s t :=
  ⟨⟨hb, .inl hu, congrArg Regs.reg hr, congrArg Regs.regtype hr, ho, hf, hm⟩, .same hr hc,
    .same hk hq⟩

theorem refl (s : Ed) : Glanced s s := ⟨.refl s, .refl s, .refl s⟩

theorem trans (h₁ : Glanced s t) (h₂ : Glanced t u) : Glanced s u :=
  ⟨h₁.toLooked.trans h₂.toLooked, h₁.lineKept.trans h₂.lineKept, h₁.keysKept.trans h₂.keysKept⟩

theorem ite {p : Prop} [Decidable p] (h₁ : Glanced s t) (h₂ : Glanced s u) :
    Glanced s (if p then t else u) := by
  split
  · exact h₁
  · exact h₂

theorem commit (s : Ed) : Glanced s s.undoQueueCommit := by
  refine ⟨.commit s, .same ?_ ?_, .same ?_ ?_⟩ <;> rw [Ed.undoQueueCommit_eq]

end Glanced

namespace Ed

variable {s s' : Ed}

/-- A field that looking may change. -/
theorem looked_dot (s : Ed) (d : Int) : Glanced s { s with dot := d } :=
  .of_fields rfl rfl rfl rfl rfl rfl rfl rfl rfl

theorem looked_cmdcnt (s : Ed) (n : Int) : Glanced s { s with cmdcnt := n } :=
  .of_fields rfl rfl rfl rfl rfl rfl rfl rfl rfl

/-! ## Keys -/

theorem ask_looked {α : Type} (s : Ed) (answer : Env → Nat → α) : Glanced s (s.ask answer).2 :=
  .of_fields rfl rfl rfl rfl rfl rfl rfl rfl rfl

theorem readit_looked {c : Int} (h : s.readit = some (c, s')) : Glanced s s' := by
  unfold readit at h
  split at h
  · cases h
  · rename_i k ks hk
    cases h
    exact ⟨⟨rfl, .inl rfl, rfl, rfl, rfl, rfl, rfl⟩, .same rfl rfl, ⟨[k], hk.symm⟩,
      List.suffix_refl _⟩

theorem getOneChar_looked {c : Int} (h : s.getOneChar = some (c, s')) : Glanced s s' := by
  unfold getOneChar at h
  split at h
  · obtain ⟨⟨c₁, s₁⟩, h₁, h₂⟩ := Option.bind_eq_some_iff.mp h
    refine (readit_looked h₁).trans ?_
    dsimp only at h₂
    split at h₂ <;> cases h₂ <;> exact .of_fields rfl rfl rfl rfl rfl rfl rfl rfl rfl
  · split at h
    · rename_i c rest hq
      cases h
      refine ⟨⟨rfl, .inl rfl, rfl, rfl, rfl, rfl, rfl⟩, .same rfl rfl, List.suffix_refl _, ?_⟩
      rw [hq]
      exact List.suffix_cons c rest
    · have h₀ : Glanced s { s with ioq := none } :=
        ⟨⟨rfl, .inl rfl, rfl, rfl, rfl, rfl, rfl⟩, .same rfl rfl, List.suffix_refl _,
          List.nil_suffix⟩
      exact h₀.trans (readit_looked h)
    · exact readit_looked h

/-! ## The screen -/

theorem scrollTo_looked (s : Ed) (begCur cnt : Int) : Glanced s (s.scrollTo begCur cnt) := by
  unfold scrollTo
  dsimp only
  split <;> exact .of_fields rfl rfl rfl rfl rfl rfl rfl rfl rfl

theorem syncCursor_looked (s : Ed) (d : Int) : Glanced s (s.syncCursor d) := by
  unfold syncCursor
  dsimp only
  split
  · have h := s.scrollTo_looked (s.beginLine d) (s.countLines (s.beginLine d) s.screenbegin)
    exact ⟨⟨h.buf, h.undos, h.reg, h.regtype, h.options, h.files, h.cmdMode⟩,
      ⟨h.lineKept.curLine, h.lineKept.ydreg, h.lineKept.saved⟩, h.keysKept.keys,
      h.keysKept.queue⟩
  · split
    · split
      · have h := s.scrollTo_looked (s.beginLine d) (s.countLines s.endScreen (s.beginLine d))
        exact ⟨⟨h.buf, h.undos, h.reg, h.regtype, h.options, h.files, h.cmdMode⟩,
      ⟨h.lineKept.curLine, h.lineKept.ydreg, h.lineKept.saved⟩, h.keysKept.keys,
      h.keysKept.queue⟩
      · exact .of_fields rfl rfl rfl rfl rfl rfl rfl rfl rfl
    · exact .of_fields rfl rfl rfl rfl rfl rfl rfl rfl rfl

theorem refresh_looked (s : Ed) : Glanced s s.refresh := by
  have h := s.syncCursor_looked s.dot
  unfold refresh
  dsimp only
  split
  · exact h
  · exact ⟨⟨h.buf, h.undos, h.reg, h.regtype, h.options, h.files, h.cmdMode⟩,
      ⟨h.lineKept.curLine, h.lineKept.ydreg, h.lineKept.saved⟩, h.keysKept.keys,
      h.keysKept.queue⟩

theorem statusLine_looked (s : Ed) (msg : List UInt8) : Glanced s (s.statusLine msg) :=
  .of_fields rfl rfl rfl rfl rfl rfl rfl rfl rfl

theorem statusLineBold_looked (s : Ed) (msg : List UInt8) : Glanced s (s.statusLineBold msg) :=
  .of_fields rfl rfl rfl rfl rfl rfl rfl rfl rfl

theorem statusLineBoldErrno_looked (s : Ed) (fn : List UInt8) :
    Glanced s (s.statusLineBoldErrno fn) :=
  .of_fields rfl rfl rfl rfl rfl rfl rfl rfl rfl

theorem notImplemented_looked (s : Ed) (cmd : List UInt8) : Glanced s (s.notImplemented cmd) :=
  .of_fields rfl rfl rfl rfl rfl rfl rfl rfl rfl

theorem yankStatus_looked (s : Ed) (op : String) (p : List UInt8) (cnt : Int) :
    Glanced s (s.yankStatus op p cnt) :=
  .of_fields rfl rfl rfl rfl rfl rfl rfl rfl rfl

theorem yankedStatus_looked (s : Ed) (op : String) (savereg : Option Reg) :
    Glanced s (s.yankedStatus op savereg) := by
  unfold yankedStatus
  split
  · exact s.yankStatus_looked _ _ _
  · exact Glanced.refl s

theorem endCmdQ_looked (s : Ed) : Glanced s s.endCmdQ :=
  ⟨⟨rfl, .inl rfl, rfl, rfl, rfl, rfl, rfl⟩, ⟨rfl, fun _ => (by decide : 26 < Ureg),
    fun _ => .inl rfl⟩, .same rfl rfl⟩

theorem hitLoop_looked : ∀ {n : Nat} {s s' : Ed}, hitLoop n s = some s' → Glanced s s'
  | 0, _, _, h => by cases h
  | n + 1, s, s', h => by
    obtain ⟨⟨c, s₁⟩, h₁, h₂⟩ := Option.bind_eq_some_iff.mp h
    refine (getOneChar_looked h₁).trans ?_
    dsimp only at h₂
    split at h₂
    · cases h₂
      exact Glanced.refl _
    · exact hitLoop_looked h₂

theorem hitReturnWith_looked {showStatus : Ed → Option Ed}
    (hs : ∀ {t t' : Ed}, showStatus t = some t' → Glanced t t')
    (h : s.hitReturnWith showStatus = some s') : Glanced s s' := by
  obtain ⟨s₁, h₁, h₂⟩ := Option.bind_eq_some_iff.mp h
  exact (hitLoop_looked h₁).trans (s₁.refresh_looked.trans (hs h₂))

theorem showStatusLine_looked (h : s.showStatusLine = some s') : Glanced s s' := by
  unfold showStatusLine at h
  split at h
  · cases h
    exact Glanced.refl s
  · split at h
    · have h₀ : Glanced s { s with haveStatusMsg := 0 } :=
        .of_fields rfl rfl rfl rfl rfl rfl rfl rfl rfl
      exact h₀.trans (hitReturnWith_looked (fun {t t'} e => by cases e; exact Glanced.refl t) h)
    · cases h
      exact .of_fields rfl rfl rfl rfl rfl rfl rfl rfl rfl

theorem hitReturn_looked (h : s.hitReturn = some s') : Glanced s s' :=
  hitReturnWith_looked showStatusLine_looked h

theorem redraw_looked (h : s.redraw = some s') : Glanced s s' :=
  s.refresh_looked.trans (showStatusLine_looked h)

theorem indicateError_looked (h : s.indicateError = some s') : Glanced s s' := by
  have h₀ : Glanced s { s with cmdError := true } := .of_fields rfl rfl rfl rfl rfl rfl rfl rfl rfl
  unfold indicateError at h
  dsimp only at h
  split at h
  · obtain ⟨s₁, h₁, h₂⟩ := Option.bind_eq_some_iff.mp h
    exact h₀.trans ((redraw_looked h₁).trans (redraw_looked h₂))
  · cases h
    exact h₀

theorem showmatching_looked {p : Int} (h : s.showmatching p = some s') : Glanced s s' := by
  unfold showmatching at h
  split at h
  · exact indicateError_looked h
  · rename_i q _
    have h₁ := (looked_dot s q).trans (refresh_looked _)
    have h₂ := refresh_looked { Ed.refresh { s with dot := q } with dot := s.dot }
    cases h
    exact (h₁.trans (looked_dot _ _)).trans h₂

theorem checkContext_looked (s : Ed) (c : Int) : Glanced s (s.checkContext c) := by
  unfold checkContext
  split
  · exact .of_fields rfl rfl rfl rfl rfl rfl rfl rfl rfl
  · exact Glanced.refl s

theorem swapContext_looked (s : Ed) (p : Int) : Glanced s (s.swapContext p).2 := by
  unfold swapContext
  split
  · exact Glanced.refl s
  · split
    · exact .of_fields rfl rfl rfl rfl rfl rfl rfl rfl rfl
    · exact Glanced.refl s

/-! ## Counted loops -/

/-- What a round of a counted loop and the countdown preserve, the loop preserves. -/
theorem cmdLoop_keeps {σ : Type} {body : σ → Ed → Option (Bool × σ × Ed)} {P : σ → Ed → Prop}
    (round : ∀ {l s go l' s'}, P l s → body l s = some (go, l', s') → P l' s')
    (tick : ∀ {l s}, P l s → P l { s with cmdcnt := s.cmdcnt - 1 }) :
    ∀ {n : Nat} {l l' : σ} {s s' : Ed} {go : Bool},
      P l s → cmdLoop body n l s = some (go, l', s') → P l' s'
  | 0, _, _, _, _, _, hp, h => by
    cases h
    exact hp
  | n + 1, l, l', s, s', go, hp, h => by
    obtain ⟨⟨b, l₁, s₁⟩, h₁, h₂⟩ := Option.bind_eq_some_iff.mp h
    have hp₁ := round hp h₁
    dsimp only at h₂
    split at h₂
    · cases h₂
      exact hp₁
    · split at h₂
      · exact cmdLoop_keeps round tick (tick hp₁) h₂
      · cases h₂
        exact tick hp₁

/-- A body that never leaves the loop runs as often as the count says, or once. -/
theorem cmdLoop_counts {σ : Type} {body : σ → Ed → Option (Bool × σ × Ed)} {P : Nat → σ → Ed → Prop}
    (round : ∀ {i l s go l' s'}, P i l s → body l s = some (go, l', s') →
      go = true ∧ s'.cmdcnt = s.cmdcnt ∧ P (i + 1) l' { s' with cmdcnt := s'.cmdcnt - 1 }) :
    ∀ {n i : Nat} {l l' : σ} {s s' : Ed} {go : Bool}, s.rounds ≤ n →
      P i l s → cmdLoop body n l s = some (go, l', s') → P (i + s.rounds) l' s'
  | 0, i, l, l', s, s', go, hn, _, _ => by
    unfold rounds at hn
    split at hn <;> omega
  | n + 1, i, l, l', s, s', go, hn, hp, h => by
    obtain ⟨⟨b, l₁, s₁⟩, h₁, h₂⟩ := Option.bind_eq_some_iff.mp h
    obtain ⟨rfl, hcnt, hp₁⟩ := round hp h₁
    simp only [Bool.not_true, Bool.false_eq_true, if_false] at h₂
    by_cases hmore : s₁.cmdcnt - 1 > 0
    · have hs : s.rounds = ({ s₁ with cmdcnt := s₁.cmdcnt - 1 } : Ed).rounds + 1 := by
        unfold rounds
        rw [if_pos (by omega), if_pos hmore]
        simp only
        omega
      rw [if_pos hmore] at h₂
      have ih := cmdLoop_counts round (by omega) hp₁ h₂
      rw [hs, show i + (({ s₁ with cmdcnt := s₁.cmdcnt - 1 } : Ed).rounds + 1) =
        i + 1 + ({ s₁ with cmdcnt := s₁.cmdcnt - 1 } : Ed).rounds by omega]
      exact ih
    · have hs : s.rounds = 1 := by
        unfold rounds
        split <;> omega
      rw [if_neg hmore] at h₂
      cases h₂
      rw [hs]
      exact hp₁

/-- A counted loop of looks is a look. -/
theorem cmdLoop_looked {σ : Type} {body : σ → Ed → Option (Bool × σ × Ed)}
    (round : ∀ {l s go l' s'}, body l s = some (go, l', s') → Glanced s s')
    {n : Nat} {l l' : σ} {go : Bool} (h : cmdLoop body n l s = some (go, l', s')) :
    Glanced s s' :=
  cmdLoop_keeps (P := fun _ t => Glanced s t) (fun hp e => hp.trans (round e))
    (fun hp => hp.trans (looked_cmdcnt _ _)) (Glanced.refl s) h

theorem times_looked {body : Ed → Ed} (hb : ∀ t, Glanced t (body t))
    (h : s.times body = some s') : Glanced s s' := by
  obtain ⟨⟨go, l, s₁⟩, h₁, h₂⟩ := Option.map_eq_some_iff.mp h
  cases h₂
  refine cmdLoop_looked ?_ h₁
  intro l t go l' t' e
  cases e
  exact hb t

/-! ## Dot movement -/

theorem dotLeft_looked (s : Ed) : Glanced s s.dotLeft := by
  have h := Glanced.commit s
  unfold dotLeft
  dsimp only
  split
  · exact h.trans (looked_dot _ _)
  · exact h

theorem dotRight_looked (s : Ed) : Glanced s s.dotRight := by
  have h := Glanced.commit s
  unfold dotRight
  dsimp only
  split
  · exact h.trans (looked_dot _ _)
  · exact h

theorem dotBegin_looked (s : Ed) : Glanced s s.dotBegin := (Glanced.commit s).trans (looked_dot _ _)
theorem dotEnd_looked (s : Ed) : Glanced s s.dotEnd := (Glanced.commit s).trans (looked_dot _ _)
theorem dotNext_looked (s : Ed) : Glanced s s.dotNext := (Glanced.commit s).trans (looked_dot _ _)
theorem dotPrev_looked (s : Ed) : Glanced s s.dotPrev := (Glanced.commit s).trans (looked_dot _ _)
theorem dotSkipOverWs_looked (s : Ed) : Glanced s s.dotSkipOverWs := looked_dot _ _

theorem firstNonBlank_looked (s : Ed) : Glanced s s.firstNonBlank :=
  s.dotBegin_looked.trans (dotSkipOverWs_looked _)

theorem seekRound_looked {forward go : Bool} {q q' : Int}
    (h : seekRound forward q s = some (go, q', s')) : Glanced s s' := by
  unfold seekRound at h
  dsimp only at h
  split at h
  · obtain ⟨s₁, h₁, h₂⟩ := Option.map_eq_some_iff.mp h
    cases h₂
    exact indicateError_looked h₁
  · cases h
    exact Glanced.refl s

theorem dotToChar_looked {c : Int} (h : s.dotToChar c = some s') : Glanced s s' := by
  unfold dotToChar at h
  dsimp only at h
  split at h
  · cases h
    exact Glanced.refl s
  · obtain ⟨⟨found, q, s₁⟩, h₁, h₂⟩ := Option.bind_eq_some_iff.mp h
    have hl := cmdLoop_looked seekRound_looked h₁
    have hd : Glanced s { s₁ with dot := q } := hl.trans (looked_dot _ _)
    dsimp only at h₂
    split at h₂
    · cases h₂
      exact hl
    · split at h₂
      · cases h₂
        exact hd.trans (dotLeft_looked _)
      · split at h₂
        · cases h₂
          exact hd.trans (dotRight_looked _)
        · cases h₂
          exact hd

theorem dotScroll_looked (s : Ed) (cnt : Nat) (back : Bool) : Glanced s (s.dotScroll cnt back) := by
  have h := Glanced.commit s
  have above : ∀ t, Glanced s t →
      Glanced s (if t.dot < t.screenbegin then { t with dot := t.screenbegin } else t) := by
    intro t ht
    exact .ite (ht.trans (looked_dot _ _)) ht
  have below : ∀ t, Glanced s t →
      Glanced s (if t.dot > t.endScreen then { t with dot := t.beginLine t.endScreen } else t) := by
    intro t ht
    exact .ite (ht.trans (looked_dot _ _)) ht
  refine Glanced.trans (below _ (above _ (h.trans ?_))) (dotSkipOverWs_looked _)
  exact .of_fields rfl rfl rfl rfl rfl rfl rfl rfl rfl

theorem errorAt_looked {p q : Int} (h : s.errorAt p = some (q, s')) : Glanced s s' := by
  obtain ⟨t, ht, e⟩ := Option.map_eq_some_iff.mp h
  cases e
  exact indicateError_looked ht

theorem boundDot_looked {p q : Int} (h : s.boundDot p = some (q, s')) : Glanced s s' := by
  obtain ⟨⟨p₁, s₁⟩, h₁, h₂⟩ := Option.bind_eq_some_iff.mp h
  have hl : Glanced s s₁ := by
    split at h₁
    · exact errorAt_looked h₁
    · cases h₁
      exact Glanced.refl s
  dsimp only at h₂
  split at h₂
  · exact hl.trans (errorAt_looked h₂)
  · cases h₂
    exact hl

theorem boundHere_looked (h : s.boundHere = some s') : Glanced s s' := by
  obtain ⟨⟨d, s₁⟩, h₁, h₂⟩ := Option.bind_eq_some_iff.mp h
  cases h₂
  exact (boundDot_looked h₁).trans (looked_dot _ _)

/-! ## Reading counts and lines -/

theorem countDigits_looked : ∀ {n : Nat} {c cnt c' cnt' : Int} {s s' : Ed},
    countDigits n c cnt s = some (c', cnt', s') → Glanced s s'
  | 0, _, _, _, _, _, _, h => by cases h
  | n + 1, c, cnt, c', cnt', s, s', h => by
    unfold countDigits at h
    split at h
    · obtain ⟨⟨c₁, s₁⟩, h₁, h₂⟩ := Option.bind_eq_some_iff.mp h
      exact (getOneChar_looked h₁).trans (countDigits_looked h₂)
    · cases h
      exact Glanced.refl s

theorem getMotionChar_looked {c : Int} (h : s.getMotionChar = some (c, s')) : Glanced s s' := by
  obtain ⟨⟨c₁, s₁⟩, h₁, h₂⟩ := Option.bind_eq_some_iff.mp h
  refine (getOneChar_looked h₁).trans ?_
  dsimp only at h₂
  split at h₂
  · split at h₂
    · obtain ⟨⟨c₂, cnt, s₂⟩, h₃, h₄⟩ := Option.bind_eq_some_iff.mp h₂
      cases h₄
      exact (countDigits_looked h₃).trans (looked_cmdcnt _ _)
    · cases h₂
      exact looked_cmdcnt _ _
  · cases h₂
    exact Glanced.refl _

theorem inputLoop_looked : ∀ {n : Nat} {buf buf' : List UInt8} {s s' : Ed},
    inputLoop n buf s = some (buf', s') → Glanced s s'
  | 0, _, _, _, _, h => by cases h
  | n + 1, buf, buf', s, s', h => by
    unfold inputLoop at h
    split at h
    · obtain ⟨⟨c, s₁⟩, h₁, h₂⟩ := Option.bind_eq_some_iff.mp h
      refine (getOneChar_looked h₁).trans ?_
      dsimp only at h₂
      split at h₂
      · cases h₂
        exact Glanced.refl _
      · split at h₂
        · split at h₂
          · cases h₂
            exact Glanced.refl _
          · exact inputLoop_looked h₂
        · split at h₂ <;> exact inputLoop_looked h₂
    · cases h
      exact Glanced.refl s

theorem getInputLine_looked {prompt buf : List UInt8}
    (h : s.getInputLine prompt = some (buf, s')) : Glanced s s' := by
  obtain ⟨⟨b, s₁⟩, h₁, h₂⟩ := Option.bind_eq_some_iff.mp h
  cases h₂
  exact (inputLoop_looked h₁).trans (refresh_looked _)

/-! ## Motions -/

theorem lineRound_looked {down go : Bool} {q q' : Int}
    (h : lineRound down q s = some (go, q', s')) : Glanced s s' := by
  have round : ∀ (p stop : Int), (if p = stop then s.indicateError.map fun s => (false, q, s)
      else some (true, p, s)) = some (go, q', s') → Glanced s s' := by
    intro p stop h
    split at h
    · obtain ⟨s₁, h₁, h₂⟩ := Option.map_eq_some_iff.mp h
      cases h₂
      exact indicateError_looked h₁
    · cases h
      exact Glanced.refl s
  exact round _ _ h

theorem moveLines_looked {down ws : Bool} (h : s.moveLines down ws = some s') : Glanced s s' := by
  obtain ⟨⟨found, q, s₁⟩, h₁, h₂⟩ := Option.bind_eq_some_iff.mp h
  have hl := cmdLoop_looked lineRound_looked h₁
  have hd : Glanced s { s₁ with dot := q } := hl.trans (looked_dot _ _)
  dsimp only at h₂
  split at h₂
  · cases h₂
    exact hl
  · split at h₂
    · cases h₂
      exact hd.trans (dotSkipOverWs_looked _)
    · cases h₂
      exact hl.trans (.of_fields rfl rfl rfl rfl rfl rfl rfl rfl rfl)

theorem dollarLoop_looked : ∀ (n : Nat) (s : Ed), Glanced s (dollarLoop n s)
  | 0, s => Glanced.refl s
  | n + 1, s => by
    have h₀ : Glanced s { s with dot := s.endLine s.dot, cmdcnt := s.cmdcnt - 1 } :=
      .of_fields rfl rfl rfl rfl rfl rfl rfl rfl rfl
    unfold dollarLoop
    dsimp only
    split
    · exact h₀
    · exact h₀.trans ((dotNext_looked _).trans (dollarLoop_looked n _))

theorem dollar_looked (s : Ed) : Glanced s s.dollar :=
  (dollarLoop_looked _ _).trans (.of_fields rfl rfl rfl rfl rfl rfl rfl rfl rfl)

theorem jumpPair_looked {q : Int} (h : s.jumpPair q = some s') : Glanced s s' := by
  unfold jumpPair at h
  split at h
  · exact indicateError_looked h
  · cases h
    exact looked_dot _ _

theorem percent_looked (h : s.percent = some s') : Glanced s s' := by
  unfold percent at h
  generalize braceLoop s.toBuf (s.end_ - s.dot).toNat s.dot = r at h
  obtain ⟨found, q⟩ := r
  obtain ⟨s₁, h₁, h₂⟩ := Option.bind_eq_some_iff.mp h
  have hl : Glanced s s₁ := by
    split at h₁
    · exact jumpPair_looked h₁
    · cases h₁
      exact Glanced.refl s
  split at h₂
  · exact hl.trans (indicateError_looked h₂)
  · cases h₂
    exact hl

theorem paragraph_looked {down : Bool} (h : s.paragraph down = some s') : Glanced s s' := by
  obtain ⟨⟨found, l, s₁⟩, h₁, h₂⟩ := Option.bind_eq_some_iff.mp h
  have hl : Glanced s s₁ := by
    refine cmdLoop_looked ?_ h₁
    intro l t go l' t' e
    cases e
    exact looked_dot _ _
  cases h₂
  cases found
  · exact hl.trans (endCmdQ_looked _)
  · exact hl

theorem bigWord_looked (c : Int) (s : Ed) : Glanced s (bigWord c s) := by
  unfold bigWord
  generalize (if c = key 'B' then (-1 : Int) else 1) = dir
  have hs := Glanced.ite (p := c = key 'W' ∨ isspace (s.mem (s.dot + dir)))
    (looked_dot s (skipThing s.toBuf (skipThing s.toBuf s.dot 1 dir .toWs) 2 dir .overWs))
    (Glanced.refl s)
  exact .ite (hs.trans (looked_dot _ _)) hs

theorem skipWord_looked (s : Ed) (dir : Int) : Glanced s (s.skipWord dir) := by
  unfold skipWord
  split
  · exact looked_dot _ _
  · split
    · exact looked_dot _ _
    · exact Glanced.refl s

theorem wordRound_looked (c : Int) (s : Ed) : Glanced s (wordRound c s).2 := by
  unfold wordRound
  generalize (if c = key 'b' then (-1 : Int) else 1) = dir
  dsimp only
  split
  · exact Glanced.refl s
  · refine Glanced.trans ?_ (skipWord_looked _ _)
    split <;> exact looked_dot _ _

theorem smallWord_looked {c : Int} (h : s.smallWord c = some s') : Glanced s s' := by
  obtain ⟨⟨go, l, s₁⟩, h₁, h₂⟩ := Option.bind_eq_some_iff.mp h
  cases h₂
  refine cmdLoop_looked ?_ h₁
  intro l t go l' t' e
  cases e
  exact wordRound_looked c t

theorem nextWord_looked (s : Ed) : Glanced s s.nextWord := by
  have move : ∀ t, Glanced s t →
      Glanced s (if t.dot < t.end_ - 1 then { t with dot := t.dot + 1 } else t) := by
    intro t ht
    exact .ite (ht.trans (looked_dot _ _)) ht
  have skip : ∀ t, Glanced s t → Glanced s (if isspace (t.mem t.dot) then
      { t with dot := skipThing t.toBuf t.dot 2 1 .overWs } else t) := by
    intro t ht
    exact .ite (ht.trans (looked_dot _ _)) ht
  exact skip _ (move _ (s.skipWord_looked 1))

theorem iterate_looked {f : Ed → Ed} (hf : ∀ t, Glanced t (f t)) (n : Nat) (s : Ed) :
    Glanced s (f^[n] s) := by
  induction n generalizing s with
  | zero => exact Glanced.refl s
  | succ n ih => exact (hf s).trans (ih (f s))

theorem screenLine_looked (s : Ed) (start : Int) {step : Ed → Ed} (hs : ∀ t, Glanced t (step t)) :
    Glanced s (s.screenLine start step) := by
  have there : ∀ (n : Nat) (k : Int),
      Glanced s { step^[n] { s with dot := start } with cmdcnt := k }.firstNonBlank := by
    intro n k
    have h := (looked_dot s start).trans (iterate_looked hs n _)
    exact h.trans ((looked_cmdcnt _ k).trans (firstNonBlank_looked _))
  exact there _ _

theorem gotoLine_looked (s : Ed) : Glanced s s.gotoLine :=
  (looked_dot s _).trans (firstNonBlank_looked _)

theorem gotoLineKey_looked (h : s.gotoLineKey = some s') : Glanced s s' := by
  obtain ⟨⟨c, s₁⟩, h₁, h₂⟩ := Option.bind_eq_some_iff.mp h
  refine (getOneChar_looked h₁).trans ?_
  dsimp only at h₂
  split at h₂ <;> cases h₂
  · exact .of_fields rfl rfl rfl rfl rfl rfl rfl rfl rfl
  · exact (looked_cmdcnt _ _).trans (gotoLine_looked _)

theorem screenMiddle_looked (s : Ed) : Glanced s s.screenMiddle :=
  (looked_dot s _).trans (dotSkipOverWs_looked _)

theorem zCommand_looked (h : s.zCommand = some s') : Glanced s s' := by
  obtain ⟨⟨c, s₁⟩, h₁, h₂⟩ := Option.bind_eq_some_iff.mp h
  cases h₂
  have h₀ : Glanced s₁ { s₁ with screenbegin := s₁.beginLine s₁.dot } :=
    .of_fields rfl rfl rfl rfl rfl rfl rfl rfl rfl
  exact (getOneChar_looked h₁).trans (h₀.trans (dotScroll_looked _ _ _))

theorem searchRound_looked (forward : Bool) (s : Ed) : Glanced s (searchRound forward s) := by
  unfold searchRound
  dsimp only
  split
  · exact looked_dot _ _
  · split <;> exact .of_fields rfl rfl rfl rfl rfl rfl rfl rfl rfl

theorem searchIn_looked {forward : Bool} (h : s.searchIn forward = some s') : Glanced s s' := by
  unfold searchIn at h
  split at h
  · cases h
    exact statusLineBold_looked _ _
  · exact times_looked (searchRound_looked forward) h

theorem searchFor_looked {c : Int} (h : s.searchFor c = some s') : Glanced s s' := by
  obtain ⟨⟨q, s₁⟩, h₁, h₂⟩ := Option.bind_eq_some_iff.mp h
  refine (getInputLine_looked h₁).trans ?_
  dsimp only at h₂
  split at h₂
  · cases h₂
    exact Glanced.refl _
  · refine Glanced.trans ?_ (searchIn_looked h₂)
    split
    · exact Glanced.refl _
    · exact .of_fields rfl rfl rfl rfl rfl rfl rfl rfl rfl
  · refine Glanced.trans ?_ (searchIn_looked h₂)
    exact .of_fields rfl rfl rfl rfl rfl rfl rfl rfl rfl

/-- The letters name the first 26 registers. -/
theorem letterIndex_lt {c : Int} {r : Nat} (h : letterIndex c = some r) : r < 26 := by
  unfold letterIndex at h
  dsimp only at h
  split at h
  · cases h
    omega
  · cases h

theorem nameRegister_looked (h : s.nameRegister = some s') : Glanced s s' := by
  obtain ⟨⟨c, s₁⟩, h₁, h₂⟩ := Option.bind_eq_some_iff.mp h
  refine (getOneChar_looked h₁).trans ?_
  dsimp only at h₂
  split at h₂
  · rename_i r hr
    have hlt := letterIndex_lt hr
    cases h₂
    exact ⟨⟨rfl, .inl rfl, rfl, rfl, rfl, rfl, rfl⟩, ⟨rfl,
      fun _ => Nat.lt_trans hlt (by decide), fun _ => .inl rfl⟩, .same rfl rfl⟩
  · exact indicateError_looked h₂

theorem setMark_looked (h : s.setMark = some s') : Glanced s s' := by
  obtain ⟨⟨c, s₁⟩, h₁, h₂⟩ := Option.bind_eq_some_iff.mp h
  refine (getOneChar_looked h₁).trans ?_
  dsimp only at h₂
  split at h₂
  · cases h₂
    exact .of_fields rfl rfl rfl rfl rfl rfl rfl rfl rfl
  · exact indicateError_looked h₂

theorem gotoMark_looked {o o' : Int} (h : s.gotoMark o = some (o', s')) : Glanced s s' := by
  obtain ⟨⟨c, s₁⟩, h₁, h₂⟩ := Option.bind_eq_some_iff.mp h
  refine (getOneChar_looked h₁).trans ?_
  dsimp only at h₂
  split at h₂
  · split at h₂
    · split at h₂
      · cases h₂
        exact (looked_dot _ _).trans (firstNonBlank_looked _)
      · exact errorAt_looked h₂
    · exact errorAt_looked h₂
  · split at h₂
    · cases h₂
      exact (swapContext_looked _ _).trans ((looked_dot _ _).trans (firstNonBlank_looked _))
    · exact errorAt_looked h₂

/-- `.` loads the queue. -/
theorem repeatLast_looked (s : Ed) : Looked s s.repeatLast ∧ LineKept s s.repeatLast ∧
    s.repeatLast.env.keys = s.env.keys := by
  unfold repeatLast
  split
  · exact ⟨.refl s, .refl s, rfl⟩
  · dsimp only
    split <;> exact ⟨⟨rfl, .inl rfl, rfl, rfl, rfl, rfl, rfl⟩, .same rfl rfl, rfl⟩

/-- **The looking cases of the `switch` look.** -/
theorem look_looked {c : Int} {l : Label} (hl : l ≠ .dot) (h : s.look c l = some s') :
    Glanced s s' := by
  unfold look at h
  split at h
  case h_1 =>
    cases h
    exact (notImplemented_looked _ _).trans (endCmdQ_looked _)
  case h_2 => cases h; exact dotScroll_looked _ _ _
  case h_3 => cases h; exact dotScroll_looked _ _ _
  case h_4 => cases h; exact dotScroll_looked _ _ _
  case h_5 => cases h; exact dotScroll_looked _ _ _
  case h_6 => cases h; exact dotScroll_looked _ _ _
  case h_7 => cases h; exact dotScroll_looked _ _ _
  case h_8 => exact times_looked dotLeft_looked h
  case h_9 => exact times_looked dotRight_looked h
  case h_10 => exact moveLines_looked h
  case h_11 => exact moveLines_looked h
  case h_12 => exact moveLines_looked h
  case h_13 => exact moveLines_looked h
  case h_14 => exact redraw_looked h
  case h_15 => exact nameRegister_looked h
  case h_16 => exact setMark_looked h
  case h_17 => cases h; exact .of_fields rfl rfl rfl rfl rfl rfl rfl rfl rfl
  case h_18 => cases h; exact dollar_looked s
  case h_19 => exact percent_looked h
  case h_20 =>
    obtain ⟨⟨c₁, s₁⟩, h₁, h₂⟩ := Option.bind_eq_some_iff.mp h
    refine (getOneChar_looked h₁).trans (Glanced.trans ?_ (dotToChar_looked h₂))
    exact .of_fields rfl rfl rfl rfl rfl rfl rfl rfl rfl
  case h_21 => exact dotToChar_looked h
  case h_22 => exact absurd rfl hl
  case h_23 => exact searchIn_looked h
  case h_24 => exact searchFor_looked h
  case h_25 => exact searchIn_looked h
  case h_26 => exact paragraph_looked h
  case h_27 =>
    split at h <;> cases h
    · exact dotBegin_looked s
    · exact looked_cmdcnt _ _
  case h_28 => exact times_looked (bigWord_looked c) h
  case h_29 => exact gotoLineKey_looked h
  case h_30 => cases h; exact gotoLine_looked s
  case h_31 => cases h; exact screenLine_looked s _ dotNext_looked
  case h_32 => cases h; exact screenLine_looked s _ dotPrev_looked
  case h_33 => cases h; exact screenMiddle_looked s
  case h_34 => cases h; exact firstNonBlank_looked s
  case h_35 => exact smallWord_looked h
  case h_36 => exact times_looked nextWord_looked h
  case h_37 => exact zCommand_looked h
  case h_38 => cases h; exact looked_dot _ _
  case h_39 => cases h; exact dotBegin_looked s
  case h_40 => cases h; exact Glanced.refl s

/-- So they look at the text, `.` included. -/
theorem look_text {c : Int} {l : Label} (h : s.look c l = some s') : Looked s s' := by
  by_cases hl : l = .dot
  · subst hl
    cases h
    exact s.repeatLast_looked.1
  · exact (look_looked hl h).toLooked

end Ed

end Evim
