import Ewokos.Evim.Edits

/-!
# evim: every command is a sequence of primitive changes

The cases of the `switch`, the visual operators and the insert and replace modes as `Edits`, for
any inner call `motion` that is one itself.  `doCmd_edits` closes the recursion.
-/

set_option autoImplicit false

namespace Evim.Ed

open Cells

variable {s s' : Ed}

/-- A counted loop of edits is an edit. -/
theorem cmdLoop_edits {σ : Type} {body : σ → Ed → Option (Bool × σ × Ed)}
    (round : ∀ {l s go l' s'}, body l s = some (go, l', s') → Worked s s')
    {n : Nat} {l l' : σ} {go : Bool} (h : cmdLoop body n l s = some (go, l', s')) :
    Worked s s' :=
  cmdLoop_keeps (P := fun _ t => Worked s t) (fun hp e => hp.trans (round e))
    (fun hp => hp.trans (looked_cmdcnt _ _).worked) (Worked.refl s) h

/-! ## Shifting -/

theorem unindentLoop_edits (p : Int) :
    ∀ (n : Nat) (undo : Undo) (s : Ed), Worked s (unindentLoop p n undo s).2.2
  | 0, _, s => Worked.refl s
  | n + 1, undo, s => by
    unfold unindentLoop
    split
    · exact (Worked.delete s (by omega) undo).trans (unindentLoop_edits p n _ _)
    · exact Worked.refl s

theorem shiftLeft_edits (s : Ed) (p : Int) (undo : Undo) : Worked s (s.shiftLeft p undo) :=
  Worked.ite (Worked.delete s (by omega) undo)
    (Worked.ite (unindentLoop_edits p _ undo s) (Worked.refl s))

theorem shiftRight_edits {p q : Int} {undo : Undo} (h : s.shiftRight p undo = some (q, s')) :
    Worked s s' := by
  unfold shiftRight at h
  split at h
  · exact charInsert_edits h
  · cases h
    exact Worked.refl s

theorem shiftLines_edits (left : Bool) : ∀ {n : Nat} {p : Int} {undo : Undo} {s s' : Ed},
    shiftLines left n p undo s = some s' → Worked s s'
  | 0, _, _, _, _, h => by
    cases h
    exact Worked.refl _
  | n + 1, p, undo, s, s', h => by
    obtain ⟨s₁, h₁, h₂⟩ := Option.bind_eq_some_iff.mp h
    refine Worked.trans ?_ (shiftLines_edits left h₂)
    split at h₁
    · cases h₁
      exact s.shiftLeft_edits p undo
    · obtain ⟨⟨q, t⟩, h₃, e⟩ := Option.map_eq_some_iff.mp h₁
      cases e
      exact shiftRight_edits h₃

theorem visualUnindent_edits :
    ∀ (n : Nat) (p : Int) (undo : Undo) (s : Ed), Worked s (visualUnindent n p undo s).2
  | 0, _, _, s => Worked.refl s
  | n + 1, p, undo, s => by
    unfold visualUnindent
    split
    · exact (Worked.delete s (by omega) undo).trans (visualUnindent_edits n _ _ _)
    · exact Worked.refl s

theorem visualShift_edits {left : Bool} {p q : Int} {undo : Undo}
    (h : s.visualShift left p undo = some (q, s')) : Worked s s' := by
  unfold visualShift at h
  split at h
  · split at h
    · have h₁ := (Worked.delete s (p := p) (q := p) (by omega) undo)
      rw [Option.some.inj h] at h₁
      exact h₁
    · split at h
      · have h₁ := visualUnindent_edits s.tabstop.toNat p undo s
        rw [Option.some.inj h] at h₁
        exact h₁
      · cases h
        exact Worked.refl s
  · exact shiftRight_edits h

theorem visualLines_edits (left : Bool) : ∀ {n : Nat} {p : Int} {undo : Undo} {s s' : Ed},
    visualLines left n p undo s = some s' → Worked s s'
  | 0, _, _, _, _, h => by
    cases h
    exact Worked.refl _
  | n + 1, p, undo, s, s', h => by
    obtain ⟨⟨q, s₁⟩, h₁, h₂⟩ := Option.bind_eq_some_iff.mp h
    exact (visualShift_edits h₁).trans (visualLines_edits left h₂)

/-! ## Visual mode -/

theorem visualShiftLines_edits {left : Bool} {lo hi : Int}
    (h : s.visualShiftLines left lo hi = some s') : Worked s s' := by
  obtain ⟨s₁, h₁, e⟩ := Option.bind_eq_some_iff.mp h
  cases e
  exact (visualLines_edits left h₁).trans ((looked_dot _ _).trans (dotSkipOverWs_looked _)).worked

theorem visualYank_edits {c lo hi : Int} (h : s.visualYank c lo hi = some s') : Worked s s' := by
  obtain ⟨s₂, h₁, e⟩ := Option.bind_eq_some_iff.mp h
  have h₂ : Worked s s₂ := by
    have hy (b : BufType) (yf : Bool) : Worked s (s.yankDeleteDot lo hi b yf .allow) :=
      s.yankDeleteDot_edits lo hi b yf .allow
    rcases ite_eq_iff.mp h₁ with ⟨-, h₁⟩ | ⟨-, h₁⟩
    · cases h₁
      exact hy _ _
    · rcases ite_eq_iff.mp h₁ with ⟨-, h₁⟩ | ⟨-, h₁⟩
      · exact (hy _ _).trans (emptyLine_edits h₁)
      · cases h₁
        exact (hy _ _).trans (firstNonBlank_looked _).worked
  have h₃ (op : String) (r : Option Reg) : Worked s (s₂.yankedStatus op r) :=
    h₂.trans (s₂.yankedStatus_looked op r).worked
  rw [← Option.some.inj e]
  exact Worked.ite ((h₃ _ _).trans (startInsert_edits _)) (h₃ _ _)

theorem visualOperate_edits {c : Int} (h : s.visualOperate c = some s') : Worked s s' := by
  have h₀ : Worked s { s with viVisual := false } := Worked.still rfl rfl rfl rfl rfl rfl
  obtain ⟨s₁, h₁, e⟩ := Option.bind_eq_some_iff.mp h
  cases e
  refine h₀.trans (Worked.trans ?_ (endCmdQ_looked s₁).worked)
  rcases ite_eq_iff.mp h₁ with ⟨-, h₁⟩ | ⟨-, h₁⟩
  · exact visualShiftLines_edits h₁
  · exact visualYank_edits h₁

/-! ## Ranges -/

section Ranges

variable {motion : Int → Ed → Option Ed}
  (hm : ∀ {c : Int} {t t' : Ed}, motion c t = some t' → Served (c ≠ key '.') t t')

include hm

theorem rangeMotion_edits {p c cmd : Int} {b : Option BufType}
    (h : rangeMotion motion s p c cmd = some (b, s')) : Worked s s' := by
  -- none of the motions is `.`
  have hin {l : List UInt8} (hl : Evim.strchr l (key '.') = false)
      (hc : Evim.strchr l c = true) : c ≠ key '.' := by
    rintro rfl
    rw [hl] at hc
    cases hc
  unfold rangeMotion at h
  split at h
  · have h₀ := looked_cmdcnt s (s.cmdcnt - 1)
    dsimp only at h
    split at h
    · obtain ⟨s₁, h₁, e⟩ := Option.bind_eq_some_iff.mp h
      cases e
      exact h₀.worked.trans ((hm h₁).worked (by decide))
    · cases h
      exact h₀.worked
  · split at h
    · rename_i hc
      obtain ⟨s₁, h₁, e⟩ := Option.bind_eq_some_iff.mp h
      cases e
      exact (hm h₁).worked (hin (by decide) hc)
    · split at h
      · rename_i hc
        obtain ⟨s₁, h₁, e⟩ := Option.bind_eq_some_iff.mp h
        cases e
        exact ((hm h₁).worked (hin (by decide) hc)).trans (looked_dot _ _).worked
      · split at h
        · rename_i hc
          obtain ⟨s₁, h₁, e⟩ := Option.bind_eq_some_iff.mp h
          cases e
          exact (hm h₁).worked (hin (by decide) hc)
        · split at h
          · rename_i hc
            have hnot : c ≠ key '.' := by rcases hc with rfl | rfl <;> decide
            obtain ⟨s₁, h₁, e⟩ := Option.bind_eq_some_iff.mp h
            have h₂ := ((hm h₁).worked hnot).trans (Worked.ite (looked_dot s₁ (s₁.dot - 1)).worked
              (Worked.refl s₁) (p := (if s.cmdcnt = 0 then 1 else s.cmdcnt) = s₁.dot - p))
            cases e
            exact h₂
          · cases h
            exact Worked.refl s

theorem findRange_edits {cmd : Int} {r : Option (BufType × Int × Int)}
    (h : findRange motion s cmd = some (r, s')) : Worked s s' := by
  obtain ⟨⟨c, s₁⟩, h₁, h⟩ := Option.bind_eq_some_iff.mp h
  have hc : Worked s s₁ := by
    split at h₁
    · cases h₁
      exact Worked.refl s
    · exact (getMotionChar_looked h₁).worked
  obtain ⟨⟨b, s₂⟩, h₂, h⟩ := Option.bind_eq_some_iff.mp h
  refine hc.trans ((rangeMotion_edits hm h₂).trans ?_)
  cases b with
  | none =>
    obtain ⟨s₃, h₃, e⟩ := Option.map_eq_some_iff.mp h
    cases e
    split at h₃
    · exact (indicateError_looked h₃).worked
    · cases h₃
      exact Worked.refl _
  | some b =>
    cases h
    exact Worked.refl _

theorem shift_edits {c : Int} (h : s.shift motion c = some s') : Worked s s' := by
  obtain ⟨⟨r, s₁⟩, h₁, h⟩ := Option.bind_eq_some_iff.mp h
  refine (findRange_edits hm h₁).trans ?_
  cases r with
  | none =>
    cases h
    exact (endCmdQ_looked s₁).worked
  | some r =>
    obtain ⟨b, p, q⟩ := r
    obtain ⟨s₂, h₂, e⟩ := Option.bind_eq_some_iff.mp h
    cases e
    refine (shiftLines_edits _ h₂).trans ?_
    exact ((looked_dot s₂ _).trans ((dotSkipOverWs_looked _).trans (endCmdQ_looked _))).worked

theorem operate_edits {c : Int} (h : s.operate motion c = some s') : Worked s s' := by
  obtain ⟨⟨r, s₁⟩, h₁, h⟩ := Option.bind_eq_some_iff.mp h
  refine (findRange_edits hm h₁).trans ?_
  cases r with
  | none =>
    cases h
    exact (endCmdQ_looked s₁).worked
  | some r =>
    obtain ⟨b, p, q⟩ := r
    dsimp only at h
    generalize (if b = .whole then s₁.beginLine p else p) = p₁ at h
    generalize (if b = .whole then s₁.endLine q else q) = q₁ at h
    refine (s₁.yankDeleteDot_edits p₁ q₁ b (!(c = key 'y' ∨ c = key 'Y')) .allow).trans ?_
    generalize s₁.yankDeleteDot p₁ q₁ b (!(c = key 'y' ∨ c = key 'Y')) .allow = s₂ at h
    obtain ⟨s₃, h₃, h⟩ := Option.bind_eq_some_iff.mp h
    have h₄ : Worked s₂ s₃ := by
      split at h₃
      · cases h₃
        exact Worked.refl s₂
      · split at h₃
        · exact emptyLine_edits h₃
        · split at h₃
          · cases h₃
            exact (firstNonBlank_looked s₂).worked
          · cases h₃
            exact (looked_dot s₂ _).worked
    refine h₄.trans ?_
    split at h
    · cases h
      exact s₃.startInsert_edits
    · cases h
      exact ((s₃.yankedStatus_looked _ _).trans (endCmdQ_looked _)).worked

end Ranges

/-! ## Puts, joins and single chars -/

theorem putPlace_looked (s : Ed) (after : Bool) (p : List UInt8) :
    Glanced s (s.putPlace after p).2 := by
  unfold putPlace
  dsimp only
  split
  · split
    · exact dotBegin_looked s
    · split
      · exact looked_dot s _
      · exact dotNext_looked s
  · exact Glanced.ite (dotRight_looked s) (Glanced.refl s)

theorem put_edits {after : Bool} (h : s.put after = some s') : Worked s s' := by
  unfold put at h
  split at h
  · cases h
    exact (statusLineBold_looked _ _).worked
  · rename_i b _
    dsimp only at h
    have h₀ := s.putPlace_looked after b.body
    generalize s.putPlace after b.body = r at h h₀
    obtain ⟨cnt, s₁⟩ := r
    obtain ⟨⟨go, l, s₂⟩, h₁, e⟩ := Option.bind_eq_some_iff.mp h
    have h₂ : Worked s₁ s₂ := by
      refine cmdLoop_edits ?_ h₁
      intro l t go l' t' e
      cases e
      exact t.stringInsert_edits t.dot b.body l
    refine h₀.worked.trans (h₂.trans ?_)
    cases e
    refine (looked_dot s₂ (s₂.dot + cnt)).worked.trans ((dotSkipOverWs_looked _).worked.trans ?_)
    exact ((yankStatus_looked _ _ _ _).trans (endCmdQ_looked _)).worked

theorem restoreLine_edits (s : Ed) : Worked s s.restoreLine := by
  unfold restoreLine
  split
  · exact Worked.refl s
  · rename_i b _
    have hb := s.beginLine_le s.dot
    have he := s.le_endLine s.dot
    have h₁ := (Worked.delete s (p := s.beginLine s.dot) (q := s.endLine s.dot) (by omega) .allow)
    generalize s.textHoleDelete (s.beginLine s.dot) (s.endLine s.dot) .allow = r at h₁
    obtain ⟨p, s₁⟩ := r
    have h₂ := s₁.stringInsert_edits p b.body .chain
    dsimp only
    generalize s₁.stringInsert p b.body .chain = r at h₂
    obtain ⟨bias, s₂⟩ := r
    refine h₁.trans (h₂.trans ?_)
    refine ((looked_dot s₂ (p + bias)).trans (dotSkipOverWs_looked _)).worked.trans ?_
    exact (yankStatus_looked _ _ _ _).worked

theorem append_edits (s : Ed) (toEnd : Bool) : Worked s (s.append toEnd) := by
  unfold append
  have h₁ : Glanced s (if toEnd then s.dotEnd else s) := .ite (dotEnd_looked s) (Glanced.refl s)
  generalize (if toEnd then s.dotEnd else s) = s₁ at h₁
  dsimp only
  exact (h₁.trans (.ite (looked_dot _ _) (Glanced.refl _))).worked.trans (startInsert_edits _)

theorem deleteToEol_edits (s : Ed) (change : Bool) : Worked s (s.deleteToEol change) := by
  have h := s.yankDeleteDot_edits s.dot (s.dollarLine s.dot) .part true .allow
  exact Worked.ite (h.trans (startInsert_edits _)) (h.trans (endCmdQ_looked _).worked)

theorem joinBlanks_edits : ∀ {n : Nat} {s s' : Ed}, joinBlanks n s = some s' → Worked s s'
  | 0, s, s', h => by
    unfold joinBlanks at h
    split at h
    · cases h
    · cases h
      exact Worked.refl _
  | n + 1, s, s', h => by
    unfold joinBlanks at h
    split at h
    · exact (Worked.delete s (by omega) .chain).trans (joinBlanks_edits h)
    · cases h
      exact Worked.refl _

theorem joinRound_edits (h : s.joinRound = some s') : Worked s s' := by
  unfold joinRound at h
  refine (dotEnd_looked s).worked.trans ?_
  generalize s.dotEnd = t at h
  rcases ite_eq_iff.mp h with ⟨-, h⟩ | ⟨-, h⟩
  · refine (Worked.push t t.dot 1 .del).trans ?_
    generalize t.undoPush t.dot 1 .del = t₁ at h
    refine (Worked.write t₁ (store t₁.mem t₁.dot 32)).trans ?_
    refine (looked_dot _ (t₁.dot + 1)).worked.trans ?_
    exact (Worked.push _ (t₁.dot + 1 - 1) 1 .insChain).trans (joinBlanks_edits h)
  · cases h
    exact Worked.refl _

theorem join_edits (h : s.join = some s') : Worked s s' := by
  obtain ⟨⟨go, l, s₁⟩, h₁, e⟩ := Option.bind_eq_some_iff.mp h
  cases e
  refine Worked.trans ?_ (endCmdQ_looked s₁).worked
  refine cmdLoop_edits ?_ h₁
  intro l t go l' t' e
  obtain ⟨t₁, h₂, e⟩ := Option.bind_eq_some_iff.mp e
  cases e
  exact joinRound_edits h₂

theorem openLine_edits {above : Bool} (h : s.openLine above = some s') : Worked s s' := by
  unfold openLine at h
  have h₀ : Worked s (if above then { s.dotBegin with indentcol := -1 } else s.dotEnd) :=
    Worked.ite ((dotBegin_looked s).worked.trans (indentcol_edits _ _)) (dotEnd_looked s).worked
  generalize (if above then { s.dotBegin with indentcol := -1 } else s.dotEnd) = s₁ at h h₀
  obtain ⟨s₂, h₁, e⟩ := Option.bind_eq_some_iff.mp h
  refine h₀.trans ((charInsertDot_edits h₁).trans ?_)
  cases e
  exact (Worked.ite (dotPrev_looked s₂).worked (Worked.refl s₂)).trans (startInsert_edits _)

theorem deleteRound_edits (before : Bool) (undo : Undo) (s : Ed) :
    Worked s (deleteRound before undo s).2 := by
  unfold deleteRound
  generalize (if before then s.dot - 1 else s.dot) = d
  split
  · have h : Worked s (if before then { s with dot := s.dot - 1 } else s) :=
      Worked.ite (looked_dot s _).worked (Worked.refl s)
    exact h.trans (yankDeleteDot_edits _ _ _ _ _ _)
  · exact Worked.refl s

theorem deleteChars_edits {before : Bool} (h : s.deleteChars before = some s') : Worked s s' := by
  obtain ⟨⟨go, l, s₁⟩, h₁, e⟩ := Option.bind_eq_some_iff.mp h
  cases e
  refine Worked.trans ?_ (endCmdQ_looked s₁).worked
  refine cmdLoop_edits ?_ h₁
  intro l t go l' t' e
  cases e
  exact deleteRound_edits before l t

theorem replaceChars_edits (h : s.replaceChars = some s') : Worked s s' := by
  obtain ⟨⟨c₁, s₁⟩, h₁, h⟩ := Option.bind_eq_some_iff.mp h
  refine (getOneChar_looked h₁).worked.trans ?_
  rcases ite_eq_iff.mp h with ⟨-, h⟩ | ⟨-, h⟩
  · cases h
    exact (endCmdQ_looked s₁).worked
  · rcases ite_eq_iff.mp h with ⟨-, h⟩ | ⟨-, h⟩
    · obtain ⟨s₂, h₂, e⟩ := Option.map_eq_some_iff.mp h
      cases e
      exact ((indicateError_looked h₂).trans (endCmdQ_looked _)).worked
    · obtain ⟨⟨go, l, s₂⟩, h₂, e⟩ := Option.bind_eq_some_iff.mp h
      cases e
      refine Worked.trans ?_ ((dotLeft_looked s₂).trans (endCmdQ_looked _)).worked
      refine cmdLoop_edits ?_ h₂
      intro l t go l' t' e
      have hd := (Worked.delete t (p := t.dot) (q := t.dot) (by omega) l)
      unfold replaceRound at e
      generalize t.textHoleDelete t.dot t.dot l = r at e hd
      obtain ⟨d, t₁⟩ := r
      obtain ⟨t₂, h₃, e⟩ := Option.bind_eq_some_iff.mp e
      cases e
      exact hd.trans ((looked_dot t₁ d).worked.trans (charInsertDot_edits h₃))

theorem flipRound_edits (undo : UndoType) (s : Ed) : Worked s (flipRound undo s).2 := by
  unfold flipRound
  dsimp only
  split
  · refine (Worked.push s s.dot 1 undo).trans ?_
    generalize s.undoPush s.dot 1 undo = s₁
    refine Worked.trans ?_ (dotRight_looked _).worked
    exact (Worked.write s₁ _).trans (Worked.push _ s₁.dot 1 .insChain)
  · exact (dotRight_looked s).worked

theorem flipCase_edits (h : s.flipCase = some s') : Worked s s' := by
  obtain ⟨⟨go, l, s₁⟩, h₁, e⟩ := Option.bind_eq_some_iff.mp h
  cases e
  refine Worked.trans ?_ (endCmdQ_looked s₁).worked
  refine cmdLoop_edits ?_ h₁
  intro l t go l' t' e
  cases e
  exact flipRound_edits l t

theorem saveBeforeExit_edits (s : Ed) : Worked s s.saveBeforeExit := by
  unfold saveBeforeExit
  have h₁ := s.fileWrite_looked s.currentFilename s.text (s.end_ - 1)
  generalize s.fileWrite s.currentFilename s.text (s.end_ - 1) = r at h₁
  obtain ⟨cnt, s₁⟩ := r
  refine Worked.ite (h₁.worked.trans ?_) (Worked.still rfl rfl rfl rfl rfl rfl)
  refine Worked.ite (Worked.ite ?_ (Worked.refl s₁))
    (Worked.ite (Worked.still rfl rfl rfl rfl rfl rfl) (Worked.refl s₁))
  exact ((s₁.ask_looked (·.errno)).trans (statusLineBold_looked _ _)).worked

theorem writeAndExit_edits (h : s.writeAndExit = some s') : Worked s s' := by
  obtain ⟨⟨c₁, s₁⟩, h₁, h⟩ := Option.bind_eq_some_iff.mp h
  refine (getOneChar_looked h₁).worked.trans ?_
  rcases ite_eq_iff.mp h with ⟨-, h⟩ | ⟨-, h⟩
  · exact (indicateError_looked h).worked
  · have h₂ := s₁.saveBeforeExit_edits
    generalize s₁.saveBeforeExit = s₂ at h h₂
    rw [← Option.some.inj h]
    refine h₂.trans (Worked.ite ?_ (Worked.refl s₂))
    have hc : Worked s₂ { s₂ with editing := 1, modifiedCount := 0 } :=
      (Worked.clean s₂).trans (Worked.still rfl rfl rfl rfl rfl rfl)
    exact hc.trans (statusLineBold_looked _ _).worked

/-! ## The switch -/

/-- A key that is not `.` does not lead to it. -/
theorem caseOf_dot {c : Int} (h : caseOf c = .dot) : c = key '.' := by
  have hall : ∀ l ∈ labels, l.2 = .dot → l.1 = [key '.'] := by decide
  unfold caseOf at h
  cases hl : labels.find? fun l => l.1.contains c with
  | none =>
    rw [hl] at h
    cases h
  | some l =>
    rw [hl] at h
    have hkeys := hall l (List.mem_of_find?_eq_some hl) h
    have hc := List.find?_some hl
    rw [hkeys] at hc
    exact List.mem_singleton.mp (List.contains_iff_mem.mp hc)

theorem look_served {c : Int} {l : Label} (h : s.look c l = some s') : Served (l ≠ .dot) s s' := by
  by_cases hl : l = .dot
  · subst hl
    cases h
    obtain ⟨hlook, hline, hkeys⟩ := s.repeatLast_looked
    exact ⟨hlook.edits, hline, hkeys ▸ List.suffix_refl _, fun hp => absurd rfl hp,
      fun hf => by rw [hlook.buf]; exact hf⟩
  · exact (look_looked hl h).worked.served _

section Switch

variable {motion : Int → Ed → Option Ed}
  (hm : ∀ {c : Int} {t t' : Ed}, motion c t = some t' → Served (c ≠ key '.') t t')

include hm

theorem command_edits {c : Int} {l : Label} (h : s.command motion c l = some s') :
    Served (l ≠ .dot) s s' := by
  unfold command at h
  split at h
  case h_1 =>
    obtain ⟨s₁, h₁, e⟩ := Option.bind_eq_some_iff.mp h
    have h₂ : Worked s s₁ := by
      split at h₁
      · exact (indicateError_looked h₁).worked
      · cases h₁
        exact Worked.refl _
    have h₃ : Worked s₁ { s₁ with cmdMode := .command } := Worked.still rfl rfl rfl rfl rfl rfl
    cases e
    exact (h₂.trans (h₃.trans ((Glanced.commit _).trans (endCmdQ_looked _)).worked)).served _
  case h_2 => exact (put_edits h).served _
  case h_3 =>
    cases h
    exact (restoreLine_edits s).served _
  case h_4 =>
    cases h
    exact (undoPopFrom_edits _ s).served _
  case h_5 =>
    obtain ⟨⟨p, s₁⟩, h₁, h⟩ := Option.bind_eq_some_iff.mp h
    obtain ⟨s₂, h₂, h⟩ := Option.bind_eq_some_iff.mp h
    have h₃ := (colon_edits h₂).trans (showStatusLine_looked h).worked
    exact ((getInputLine_looked h₁).worked.trans h₃).served _
  case h_6 => exact (shift_edits hm h).served _
  case h_7 =>
    cases h
    exact (append_edits s _).served _
  case h_8 =>
    cases h
    exact (deleteToEol_edits s _).served _
  case h_9 =>
    cases h
    exact ((firstNonBlank_looked s).worked.trans (startInsert_edits _)).served _
  case h_10 =>
    cases h
    exact (startInsert_edits s).served _
  case h_11 => exact (join_edits h).served _
  case h_12 => exact (openLine_edits h).served _
  case h_13 =>
    cases h
    exact (startReplace_edits s).served _
  case h_14 =>
    cases h
    exact (Worked.ite (yankDeleteDot_edits s _ _ _ _ _) (Worked.refl s)).served _
  case h_15 => exact (deleteChars_edits h).served _
  case h_16 =>
    obtain ⟨s₁, h₁, e⟩ := Option.map_eq_some_iff.mp h
    cases e
    exact ((deleteChars_edits h₁).trans (startInsert_edits s₁)).served _
  case h_17 => exact (writeAndExit_edits h).served _
  case h_18 => exact (operate_edits hm h).served _
  case h_19 => exact (replaceChars_edits h).served _
  case h_20 => exact (flipCase_edits h).served _
  case h_21 => exact look_served h

theorem switch_edits {c o o' : Int} (h : s.switch motion c o = some (o', s')) :
    Served (c ≠ key '.') s s' := by
  unfold switch at h
  generalize hl : caseOf c = l at h
  have hdot (hc : c ≠ key '.') : l ≠ .dot := fun h => hc (caseOf_dot (hl.trans h))
  split at h
  · exact (gotoMark_looked h).worked.served _
  · obtain ⟨s₁, h₁, e⟩ := Option.map_eq_some_iff.mp h
    cases e
    exact (command_edits hm h₁).imp hdot

theorem keyCommand_edits {c o o' : Int} (h : s.keyCommand motion c o = some (o', s')) :
    Served (c ≠ key '.') s s' := by
  have h₀ : Worked s { s with viVisual := false } := Worked.still rfl rfl rfl rfl rfl rfl
  unfold keyCommand at h
  split at h
  · rcases ite_eq_iff.mp h with ⟨-, h⟩ | ⟨-, h⟩
    · cases h
      exact (h₀.trans (endCmdQ_looked _).worked).served _
    · rcases ite_eq_iff.mp h with ⟨-, h⟩ | ⟨-, h⟩
      · obtain ⟨s₁, h₁, e⟩ := Option.map_eq_some_iff.mp h
        cases e
        exact (visualOperate_edits h₁).served _
      · rcases ite_eq_iff.mp h with ⟨-, h⟩ | ⟨-, h⟩
        · exact .before h₀ (switch_edits hm h)
        · exact switch_edits hm h
  · exact switch_edits hm h

theorem dispatch_edits {c o o' : Int} (h : s.dispatch motion c o = some (o', s')) :
    Served (c ≠ key '.') s s' := by
  unfold dispatch at h
  split at h
  · exact keyCommand_edits hm h
  · split at h
    case h_1 =>
      rcases ite_eq_iff.mp h with ⟨-, h⟩ | ⟨-, h⟩
      · cases h
        exact (startInsert_edits s).served _
      · rcases ite_eq_iff.mp h with ⟨-, h⟩ | ⟨-, h⟩
        · obtain ⟨s₁, h₁, e⟩ := Option.map_eq_some_iff.mp h
          cases e
          exact ((startInsert_edits s).trans (insertKey_edits h₁)).served _
        · obtain ⟨s₁, h₁, e⟩ := Option.map_eq_some_iff.mp h
          cases e
          exact (replaceKey_edits h₁).served _
    case h_2 =>
      obtain ⟨s₁, h₁, e⟩ := Option.map_eq_some_iff.mp h
      cases e
      exact (insertKey_edits h₁).served _
    case h_3 => exact keyCommand_edits hm h

end Switch

/-! ## `do_cmd` -/

theorem refill_edits (h : s.refill = some s') : Worked s s' := by
  unfold refill at h
  split at h
  · obtain ⟨⟨q, s₁⟩, h₁, e⟩ := Option.map_eq_some_iff.mp h
    cases e
    exact (charInsert_edits h₁).trans (looked_dot s₁ _).worked
  · cases h
    exact Worked.refl s

theorem settle_looked (s : Ed) (c o : Int) : Glanced s (s.settle c o) := by
  unfold settle
  have h : Glanced s (if s.dot ≠ o then s.checkContext c else s) :=
    .ite (s.checkContext_looked c) (Glanced.refl s)
  generalize (if s.dot ≠ o then s.checkContext c else s) = t at h
  exact .ite (h.trans (looked_cmdcnt t 0)) h

theorem offNewline_looked (s : Ed) : Glanced s s.offNewline := .ite (looked_dot s _) (Glanced.refl s)

theorem epilogue_edits {c o : Int} (h : s.epilogue c o = some s') : Worked s s' := by
  obtain ⟨t, h₁, h⟩ := Option.bind_eq_some_iff.mp h
  obtain ⟨u, h₂, e⟩ := Option.bind_eq_some_iff.mp h
  cases e
  refine (refill_edits h₁).trans (Worked.trans ?_
    ((u.settle_looked c o).trans (offNewline_looked _)).worked)
  split at h₂
  · exact (boundHere_looked h₂).worked
  · cases h₂
    exact Worked.refl _

theorem doCmdWith_edits {motion : Int → Ed → Option Ed}
    (hm : ∀ {c : Int} {t t' : Ed}, motion c t = some t' → Served (c ≠ key '.') t t') {c : Int}
    (h : doCmdWith motion c s = some s') : Served (c ≠ key '.') s s' := by
  have h₀ : Glanced s { s with keepIndex := false, cmdError := false } :=
    .of_fields rfl rfl rfl rfl rfl rfl rfl rfl rfl
  obtain ⟨s₁, h₁, h⟩ := Option.bind_eq_some_iff.mp h
  obtain ⟨⟨o, s₂⟩, h₂, h⟩ := Option.bind_eq_some_iff.mp h
  refine .before (h₀.trans (showStatusLine_looked h₁)).worked ?_
  exact (dispatch_edits hm h₂).behind (epilogue_edits h)

/-- The `do_cmd` that `find_range` calls. -/
theorem motion_edits {c : Int} (h : doCmdWith (fun _ _ => none) c s = some s') :
    Served (c ≠ key '.') s s' := by
  refine doCmdWith_edits ?_ h
  intro c t t' h
  cases h

/-- **`do_cmd` is a sequence of primitive changes.**  Only `.` loads the queue. -/
theorem doCmd_edits {c : Int} (h : doCmd c s = some s') : Served (c ≠ key '.') s s' :=
  doCmdWith_edits motion_edits h

end Evim.Ed
