import Ewokos.Evim.AutoIndent
import Ewokos.Evim.Substitution

/-!
# evim: joining lines

`J` with any count, from the list of bytes from the cursor on.

* `joinBlanks_none_iff` — the inner loop has no result exactly when it never stops.
* `joinBlanks_bytes`, `joinBlanks_end` — it removes the blanks, or runs off the end of the text.
* `joinRound_rest` — one round of the outer loop, and what is left for the next ones.
* `join_iff` — when `J` finishes with a bounded number of objects on the undo stack.
-/

set_option autoImplicit false

namespace Evim

open Cells
open CString hiding strchr

/-! ## The rest of the text -/

/-- `n` joins from the cursor on reach a last line of nothing but blanks, without a newline. -/
def RunsOff (rest : List UInt8) (n : Nat) : Prop :=
  ∃ a ws, rest = a ++ NL :: ws ∧ ws ≠ [] ∧ (∀ c ∈ ws, isblank c = true) ∧ a.count NL < n

theorem count_newline_blanks {ws : List UInt8} (h : ∀ c ∈ ws, isblank c = true) :
    ws.count NL = 0 :=
  List.count_eq_zero_of_not_mem fun hmem => Buf.isblank_ne_newline (h NL hmem) rfl

theorem not_runsOff_of_noNL {rest : List UInt8} (h : NL ∉ rest) (n : Nat) : ¬ RunsOff rest n := by
  rintro ⟨a, ws, rfl, -⟩
  exact h (by simp)

theorem not_runsOff_of_newline {rest : List UInt8} (h : rest.getLast? = some NL) (n : Nat) :
    ¬ RunsOff rest n := by
  rintro ⟨a, ws, rfl, hne, hws, -⟩
  rw [List.getLast?_append_of_ne_nil _ (List.cons_ne_nil _ _), List.getLast?_cons_of_ne_nil hne] at h
  exact Buf.isblank_ne_newline (hws NL (List.mem_of_getLast? h)) rfl

theorem not_runsOff_of_short {rest : List UInt8} (h : rest.length ≤ 1) (n : Nat) :
    ¬ RunsOff rest n := by
  rintro ⟨a, ws, rfl, hne, -⟩
  have := List.length_pos_of_ne_nil hne
  simp only [List.length_append, List.length_cons] at h
  omega

/-- A join takes one line off. -/
theorem runsOff_join {mid ws post : List UInt8} {c : UInt8} {n : Nat} (hmid : NL ∉ mid)
    (hws : ∀ c ∈ ws, isblank c = true) (hc : isblank c = false) :
    RunsOff (mid ++ NL :: (ws ++ c :: post)) (n + 1) ↔ RunsOff (c :: post) n := by
  constructor
  · rintro ⟨a, vs, heq, hne, hvs, hcount⟩
    rcases List.append_eq_append_iff.mp heq with ⟨b, rfl, hb⟩ | ⟨b, rfl, hb⟩
    · -- the newline in front of `vs` is not the one that is joined
      cases b with
      | nil =>
        obtain ⟨-, rfl⟩ := List.cons.inj hb
        exact absurd (hvs c (by simp)) (by simp [hc])
      | cons x b =>
        obtain ⟨rfl, htail⟩ := List.cons.inj hb
        rcases List.append_eq_append_iff.mp htail with ⟨d, rfl, hd⟩ | ⟨d, rfl, hd⟩
        · refine ⟨d, vs, hd, hne, hvs, ?_⟩
          simp only [List.count_append, List.count_cons_self] at hcount
          omega
        · cases d with
          | nil =>
            refine ⟨[], vs, by simpa using hd.symm, hne, hvs, ?_⟩
            simp only [List.count_append, List.count_cons_self] at hcount
            simp only [List.count_nil]
            omega
          | cons y d =>
            obtain ⟨rfl, -⟩ := List.cons.inj hd
            exact absurd rfl (Buf.isblank_ne_newline (hws NL (by simp)))
    · cases b with
      | nil =>
        obtain ⟨-, rfl⟩ := List.cons.inj hb
        exact absurd (hvs c (by simp)) (by simp [hc])
      | cons x b =>
        obtain ⟨rfl, -⟩ := List.cons.inj hb
        exact absurd (by simp) hmid
  · rintro ⟨a, vs, heq, hne, hvs, hcount⟩
    refine ⟨mid ++ NL :: (ws ++ a), vs, by rw [heq]; simp, hne, hvs, ?_⟩
    have hzero := List.count_eq_zero_of_not_mem hmid
    have hblank := count_newline_blanks hws
    simp only [List.count_append, List.count_cons_self]
    omega

namespace Ed

variable {s t : Ed} {n : Nat}

/-! ## The blanks behind the newline -/

/-- One turn of the loop over leading white space. -/
def blankStep (s : Ed) : Ed := (s.textHoleDelete s.dot s.dot .chain).2

theorem joinBlanks_zero (s : Ed) :
    joinBlanks 0 s = if isblank (s.mem s.dot) then none else some s := rfl

theorem joinBlanks_succ (n : Nat) (s : Ed) :
    joinBlanks (n + 1) s =
      if isblank (s.mem s.dot) then joinBlanks n s.blankStep else some s := rfl

theorem joinBlanks_none : ∀ {n : Nat} {s : Ed},
    joinBlanks n s = none ↔ ∀ m ≤ n, isblank ((blankStep^[m] s).mem (blankStep^[m] s).dot) = true
  | 0, s => by
    unfold joinBlanks
    constructor
    · intro h m hm
      obtain rfl : m = 0 := by omega
      by_contra hno
      rw [if_neg (by simpa using hno)] at h
      cases h
    · intro h
      exact if_pos (h 0 (Nat.le_refl 0))
  | n + 1, s => by
    rw [joinBlanks_succ]
    by_cases hblank : isblank (s.mem s.dot) = true
    · rw [if_pos hblank, joinBlanks_none]
      constructor
      · rintro h (- | m) hm
        · exact hblank
        · exact h m (by omega)
      · intro h m hm
        exact h (m + 1) (by omega)
    · rw [if_neg hblank]
      refine iff_of_false (by simp) fun h => hblank (h 0 (Nat.zero_le _))

/-- Behind the end a deletion records itself and does nothing. -/
theorem blankStep_behind (h : s.end_ ≤ s.dot) :
    s.blankStep.toBuf = s.toBuf ∧ s.blankStep.dot = s.dot := by
  obtain ⟨u, hu⟩ : ∃ u, s.undoPushDelete s.dot (s.dot - s.dot + 1).toNat .chain =
      { s with toUndos := u } := ⟨_, s.undoPushDelete_eq s.dot _ .chain⟩
  simp only [blankStep, textHoleDelete, Int.lt_irrefl, if_false, hu]
  split
  · exact ⟨rfl, rfl⟩
  · rw [if_pos (.inr h)]
    exact ⟨rfl, rfl⟩

theorem blankStep_dot (h₀ : s.text ≤ s.dot) : s.blankStep.dot = s.dot := by
  rcases Int.lt_or_le s.dot s.end_ with hlt | hle
  · unfold blankStep
    rw [textHoleDelete_state s h₀ (Int.le_refl _) hlt]
  · exact (blankStep_behind hle).2

theorem blankStep_undoStack (s : Ed) :
    s.blankStep.undoStack.length = s.undoStack.length + 1 ∧ s.blankStep.undoQ = s.undoQ ∧
      s.blankStep.cmdcnt = s.cmdcnt := by
  unfold blankStep
  rcases textHoleDelete_cases s s.dot s.dot .chain with h | ⟨m, e, -, -, h⟩
  · rw [h]
    exact ⟨rfl, rfl, rfl⟩
  · rw [h]
    exact ⟨rfl, rfl, rfl⟩

/-- A turn inside the text. -/
theorem blankStep_inside (h₀ : s.text ≤ s.dot) (h₁ : s.dot < s.end_) :
    s.blankStep.text = s.text ∧ s.blankStep.end_ = s.end_ - 1 := by
  unfold blankStep
  rw [textHoleDelete_state s h₀ (Int.le_refl _) h₁]
  exact ⟨rfl, by simp only; omega⟩

theorem iterate_behind : ∀ (m : Nat) {s : Ed}, s.end_ ≤ s.dot →
    (blankStep^[m] s).toBuf = s.toBuf ∧ (blankStep^[m] s).dot = s.dot
  | 0, _, _ => ⟨rfl, rfl⟩
  | m + 1, s, h => by
    obtain ⟨hbuf, hdot⟩ := blankStep_behind h
    obtain ⟨ihb, ihd⟩ := iterate_behind m (s := s.blankStep)
      (by rw [hdot, congrArg Buf.end_ hbuf]; exact h)
    exact ⟨ihb.trans hbuf, ihd.trans hdot⟩

theorem iterate_inside : ∀ {n : Nat} {s : Ed}, s.text ≤ s.dot → s.end_ = s.dot + n →
    (blankStep^[n] s).end_ = (blankStep^[n] s).dot
  | 0, s, _, h => by
    exact h.trans (Int.add_zero _)
  | n + 1, s, h₀, h => by
    obtain ⟨htext, hend⟩ := blankStep_inside h₀ (by omega)
    have hdot := blankStep_dot h₀
    exact iterate_inside (s := s.blankStep) (by omega) (by omega)

/-- The loop has no result exactly when it never stops: from the end on, every turn finds the same
byte. -/
theorem joinBlanks_none_iff (h₀ : s.text ≤ s.dot) (h₁ : s.dot ≤ s.end_) :
    joinBlanks (s.end_ - s.dot).toNat s = none ↔
      ∀ m, isblank ((blankStep^[m] s).mem (blankStep^[m] s).dot) = true := by
  rw [joinBlanks_none]
  refine ⟨fun h m => ?_, fun h m _ => h m⟩
  rcases Nat.le_total m (s.end_ - s.dot).toNat with hle | hge
  · exact h m hle
  · obtain ⟨k, rfl⟩ := Nat.exists_eq_add_of_le' hge
    have hend := iterate_inside (n := (s.end_ - s.dot).toNat) h₀ (by omega)
    obtain ⟨hbuf, hdot⟩ := iterate_behind k (Int.le_of_eq hend)
    rw [Function.iterate_add_apply, congrArg Buf.mem hbuf, hdot]
    exact h _ (Nat.le_refl _)

section Blanks

variable {pre post : List UInt8} {c : UInt8}

theorem blankStep_bytes (hf : s.Fits) (h : s.bytes = pre ++ c :: post)
    (hdot : s.dot = s.text + pre.length) :
    s.blankStep.Fits ∧ s.blankStep.bytes = pre ++ post ∧
      s.blankStep.dot = s.blankStep.text + pre.length := by
  have hlen := s.length_bytes
  rw [h, List.length_append, List.length_cons] at hlen
  obtain ⟨htext, -⟩ := blankStep_inside (s := s) (by omega) (by omega)
  obtain ⟨hfits, hbytes⟩ := textHoleDelete_byte s hf h .chain
  rw [← hdot] at hfits hbytes
  exact ⟨hfits, hbytes, by rw [blankStep_dot (by omega), htext, hdot]⟩

theorem mem_dot (h : s.bytes = pre ++ c :: post) (hdot : s.dot = s.text + pre.length) :
    s.mem s.dot = c := by
  rw [hdot]
  exact Buf.mem_of_append h

/-- The blanks in front of another byte are removed, with one object each. -/
theorem joinBlanks_bytes (hc : isblank c = false) : ∀ {ws : List UInt8} {s : Ed} {n : Nat},
    (∀ c ∈ ws, isblank c = true) → s.Fits → s.bytes = pre ++ (ws ++ c :: post) →
      s.dot = s.text + pre.length → ws.length ≤ n →
      ∃ t, joinBlanks n s = some t ∧ t.Fits ∧ t.bytes = pre ++ c :: post ∧
        t.dot = t.text + pre.length ∧ t.undoStack.length = s.undoStack.length + ws.length ∧
        t.undoQ = s.undoQ ∧ t.cmdcnt = s.cmdcnt
  | [], s, n, _, hf, h, hdot, _ => by
    refine ⟨s, ?_, hf, h, hdot, rfl, rfl, rfl⟩
    have hstop : ¬ isblank (s.mem s.dot) = true := by
      rw [mem_dot h hdot, hc]
      exact Bool.false_ne_true
    cases n with
    | zero => exact if_neg hstop
    | succ n => rw [joinBlanks_succ, if_neg hstop]
  | w :: ws, s, n + 1, hws, hf, h, hdot, hn => by
    obtain ⟨hf₁, h₁, hdot₁⟩ := blankStep_bytes hf h hdot
    obtain ⟨hstack, hq, hcnt⟩ := s.blankStep_undoStack
    obtain ⟨t, ht, hft, hbytes, hdott, hstackt, hqt, hcntt⟩ := joinBlanks_bytes hc
      (fun c hc => hws c (List.mem_cons_of_mem _ hc)) hf₁ h₁ hdot₁ (Nat.le_of_succ_le_succ hn)
    refine ⟨t, ?_, hft, hbytes, hdott, ?_, hqt.trans hq, hcntt.trans hcnt⟩
    · rw [joinBlanks_succ, if_pos (by rw [mem_dot h hdot]; exact hws w List.mem_cons_self), ht]
    · rw [hstackt, hstack, List.length_cons]
      omega

/-- At the end of the text the byte of the last deletion stays in the cell. -/
theorem joinBlanks_end {ws : List UInt8} (hne : ws ≠ []) (hws : ∀ c ∈ ws, isblank c = true)
    (hf : s.Fits) (h : s.bytes = pre ++ ws) (hdot : s.dot = s.text + pre.length) :
    joinBlanks ws.length s = none := by
  induction ws generalizing s with
  | nil => exact absurd rfl hne
  | cons w ws ih =>
    have hblank : isblank (s.mem s.dot) = true := by
      rw [mem_dot h hdot]
      exact hws w List.mem_cons_self
    rw [List.length_cons, joinBlanks_succ, if_pos hblank]
    obtain ⟨hf₁, h₁, hdot₁⟩ := blankStep_bytes hf h hdot
    cases ws with
    | nil =>
      have hlen := s.length_bytes
      rw [h, List.length_append, List.length_singleton] at hlen
      have hkept : s.blankStep.mem = s.mem := by
        unfold blankStep
        rw [textHoleDelete_state s (by omega) (Int.le_refl _) (by omega)]
        exact if_pos (by omega)
      rw [List.length_nil, joinBlanks_zero, hkept, blankStep_dot (by omega), if_pos hblank]
    | cons v ws =>
      exact ih (List.cons_ne_nil v ws) (fun c hc => hws c (List.mem_cons_of_mem _ hc)) hf₁ h₁ hdot₁

end Blanks

/-! ## One round -/

/-- Replace the newline by a space, for the undo stack a deletion and an insertion. -/
def newlineToSpace (s : Ed) : Ed :=
  let s := s.undoPush s.dot 1 .del
  let s := { s with mem := store s.mem s.dot 32, dot := s.dot + 1 }
  s.undoPush (s.dot - 1) 1 .insChain

theorem joinRound_eq (s : Ed) :
    s.joinRound = if s.dotEnd.dot < s.dotEnd.end_ - 1 then
        joinBlanks (s.dotEnd.newlineToSpace.end_ - s.dotEnd.newlineToSpace.dot).toNat
          s.dotEnd.newlineToSpace
      else some s.dotEnd := rfl

section Round

variable {pre mid ws post : List UInt8} {c : UInt8}

theorem newlineToSpace_bytes (hf : s.Fits) (h : s.bytes = pre ++ c :: post)
    (hdot : s.dot = s.text + pre.length) :
    s.newlineToSpace.Fits ∧ s.newlineToSpace.bytes = pre ++ [32] ++ post ∧
      s.newlineToSpace.dot = s.newlineToSpace.text + ((pre ++ [32]).length : Nat) := by
  refine ⟨⟨hf.text_le_end, hf.lt_size⟩, ?_, ?_⟩
  · have hset : s.newlineToSpace.bytes = s.bytes.set pre.length 32 := by
      have hstore := slice_store s.mem s.text (k := pre.length) (n := (s.end_ - s.text).toNat) 32
      rw [← hdot] at hstore
      exact hstore
    rw [hset, h, List.set_append_right _ _ (Nat.le_refl _), Nat.sub_self, List.append_assoc]
    rfl
  · rw [List.length_append, List.length_singleton]
    change s.dot + 1 = s.text + _
    omega

/-- The end of the cursor line is the end of the text: nothing to join. -/
theorem joinRound_last (h : s.endLine s.dot = s.end_ - 1) : s.joinRound = some s.dotEnd := by
  have hdot : s.dotEnd.dot = s.endLine s.dot := by
    unfold dotEnd
    rw [undoQueueCommit_eq]
  have hend : s.dotEnd.end_ = s.end_ := by
    unfold dotEnd
    rw [undoQueueCommit_eq]
  rw [joinRound_eq, if_neg (by omega)]

/-- The newline is a space, and two objects are on the stack. -/
theorem joinRound_pushed (hf : s.Fits) (hq : s.undoQ = 0)
    (h : s.bytes = pre ++ mid ++ NL :: post) (hdot : s.dot = s.text + pre.length)
    (hmid : NL ∉ mid) (hpost : post ≠ []) :
    ∃ u, s.joinRound = joinBlanks post.length u ∧ u.Fits ∧ u.bytes = (pre ++ mid ++ [32]) ++ post ∧
      u.dot = u.text + ((pre ++ mid ++ [32]).length : Nat) ∧
      u.undoStack.length = s.undoStack.length + 2 ∧ u.undoQ = 0 ∧ u.cmdcnt = s.cmdcnt := by
  have hlen := s.length_bytes
  have hpos := List.length_pos_of_ne_nil hpost
  rw [h] at hlen
  simp only [List.length_append, List.length_cons] at hlen
  have hnl : s.dotEnd = { s with dot := s.text + ((pre ++ mid).length : Nat) } := by
    unfold dotEnd
    rw [undoQueueCommit_of_empty hq]
    dsimp only
    rw [hdot, Buf.endLine_of_bytes h hmid, List.length_append, Int.natCast_add, Int.add_assoc]
  obtain ⟨hfit, hbytes, hat⟩ := newlineToSpace_bytes (s := s.dotEnd) (by rw [hnl]; exact hf)
    (by rw [hnl]; exact h) (by rw [hnl])
  have hlen' := s.dotEnd.newlineToSpace.length_bytes
  rw [hbytes, List.length_append] at hlen'
  refine ⟨_, ?_, hfit, hbytes, hat, ?_, ?_, ?_⟩
  · rw [joinRound_eq, if_pos]
    · congr 1
      omega
    · rw [hnl]
      simp only [List.length_append]
      omega
  · rw [hnl]
    rfl
  · rw [hnl]
    exact hq
  · rw [hnl]
    rfl

end Round

/-! ## The rounds -/

/-- The text from the cursor on. -/
def rest (s : Ed) : List UInt8 := s.bytes.drop (s.dot - s.text).toNat

/-- Objects on the undo stack, bytes, and two for each newline: a join leaves the sum as it is. -/
def balance (s : Ed) : Nat := s.undoStack.length + s.bytes.length + 2 * s.bytes.count NL

/-- The cursor is in the text, and nothing is queued. -/
structure JoinReady (s : Ed) : Prop where
  fits : s.Fits
  text_le_dot : s.text ≤ s.dot
  dot_lt_end : s.dot < s.end_
  undoQ : s.undoQ = 0

theorem JoinReady.bytes (h : s.JoinReady) :
    ∃ pre, s.bytes = pre ++ s.rest ∧ s.dot = s.text + pre.length := by
  have hlen := s.length_bytes
  have h₀ := h.text_le_dot
  have h₁ := h.dot_lt_end
  refine ⟨s.bytes.take (s.dot - s.text).toNat, (List.take_append_drop ..).symm, ?_⟩
  rw [List.length_take]
  omega

/-- The last line from the cursor on. -/
theorem JoinReady.last (h : s.JoinReady) (hlast : s.endLine s.dot = s.end_ - 1) :
    ∃ t, s.joinRound = some t ∧ t.JoinReady ∧ t.cmdcnt = s.cmdcnt ∧ t.balance = s.balance ∧
      ∀ n, ¬ RunsOff t.rest n := by
  have h₀ := h.text_le_dot
  have h₁ := h.dot_lt_end
  have hlen := s.length_bytes
  have hend : s.dotEnd = { s with dot := s.end_ - 1 } := by
    unfold dotEnd
    rw [undoQueueCommit_of_empty h.undoQ]
    dsimp only
    rw [hlast]
  refine ⟨s.dotEnd, joinRound_last hlast, ?_, ?_, ?_, fun n => not_runsOff_of_short ?_ n⟩
  · rw [hend]
    exact ⟨h.fits, by simp only; omega, by simp only; omega, h.undoQ⟩
  · rw [hend]
  · rw [hend]
    rfl
  · rw [hend]
    unfold rest
    rw [List.length_drop]
    simp only
    omega

/-- One round, and what the next ones find. -/
theorem joinRound_rest (h : s.JoinReady) :
    (s.joinRound = none ∧ ∀ n, RunsOff s.rest (n + 1)) ∨
      ∃ t, s.joinRound = some t ∧ t.JoinReady ∧ t.cmdcnt = s.cmdcnt ∧ t.balance = s.balance ∧
        ∀ n, RunsOff s.rest (n + 1) ↔ RunsOff t.rest n := by
  obtain ⟨pre, hpre, hdot⟩ := h.bytes
  have hlen := s.length_bytes
  have h₁ := h.dot_lt_end
  by_cases hnl : NL ∈ s.rest
  · obtain ⟨mid, r, hrest, hmid⟩ := List.eq_append_cons_of_mem hnl
    have hbytes : s.bytes = pre ++ mid ++ NL :: r := by rw [hpre, hrest, List.append_assoc]
    by_cases hr : r = []
    · -- the newline at the end of the text
      subst hr
      have hlast : s.endLine s.dot = s.end_ - 1 := by
        rw [hdot, Buf.endLine_of_bytes hbytes hmid]
        rw [hbytes] at hlen
        simp only [List.length_append, List.length_singleton] at hlen
        omega
      obtain ⟨t, ht, hjoins, hcnt, hbal, hno⟩ := h.last hlast
      refine .inr ⟨t, ht, hjoins, hcnt, hbal, fun n => iff_of_false ?_ (hno n)⟩
      exact not_runsOff_of_newline (by rw [hrest]; simp) _
    · obtain ⟨u, hu, hfu, hbu, hdu, hsu, hqu, hcu⟩ := joinRound_pushed h.fits h.undoQ hbytes hdot hmid hr
      rw [hu]
      obtain ⟨ws, post, rfl, hws, hpost⟩ : ∃ ws post, r = ws ++ post ∧
          (∀ c ∈ ws, isblank c = true) ∧ ∀ c ∈ post.head?, isblank c = false := by
        refine ⟨r.takeWhile isblank, r.dropWhile isblank, List.takeWhile_append_dropWhile.symm,
          fun c hc => List.mem_takeWhile_imp hc, fun c hc => ?_⟩
        have hstop := List.head?_dropWhile_not isblank r
        rwa [hc] at hstop
      cases post with
      | nil =>
        -- the loop runs off the end
        rw [List.append_nil] at hr hbu hu ⊢
        refine .inl ⟨joinBlanks_end hr hws hfu hbu hdu, fun n => ⟨mid, ws, ?_, hr, hws, ?_⟩⟩
        · rw [hrest, List.append_nil]
        · rw [List.count_eq_zero_of_not_mem hmid]
          exact Nat.zero_lt_succ n
      | cons c post =>
        have hc := hpost c rfl
        obtain ⟨t, ht, hft, hbt, hdt, hst, hqt, hct⟩ := joinBlanks_bytes hc hws hfu hbu hdu
          (n := (ws ++ c :: post).length) (by rw [List.length_append]; omega)
        have hlent := t.length_bytes
        rw [hbt] at hlent
        simp only [List.length_append, List.length_cons, List.length_nil] at hlent hdt
        refine .inr ⟨t, ht, ⟨hft, by omega, by omega, hqt.trans hqu⟩, hct.trans hcu, ?_, fun n => ?_⟩
        · unfold balance
          rw [hst, hsu, hbt, hbytes]
          have hm := List.count_eq_zero_of_not_mem hmid
          have hw := count_newline_blanks hws
          simp only [List.length_append, List.length_cons, List.length_nil, List.count_append,
            List.count_cons_self, hm, hw]
          have h32 : [(32 : UInt8)].count NL = 0 := by decide
          omega
        · have htrest : t.rest = c :: post := by
            unfold rest
            rw [hbt]
            refine List.drop_left' ?_
            simp only [List.length_append, List.length_cons, List.length_nil]
            omega
          rw [hrest, htrest]
          exact runsOff_join hmid hws hc
  · -- the last line has no newline
    have hlast : s.endLine s.dot = s.end_ - 1 := by
      refine (s.endLine_stop h₁).resolve_left fun hmem => hnl ?_
      have hge := s.le_endLine s.dot
      have hlt := s.endLine_lt h₁
      refine List.mem_of_getElem? (i := (s.endLine s.dot - s.dot).toNat) ?_
      unfold rest
      rw [List.getElem?_drop, List.getElem?_eq_getElem (by omega), Buf.getElem_bytes (by omega),
        ← hmem]
      congr 2
      omega
    obtain ⟨t, ht, hjoins, hcnt, hbal, hno⟩ := h.last hlast
    exact .inr ⟨t, ht, hjoins, hcnt, hbal, fun n => iff_of_false (not_runsOff_of_noNL hnl _) (hno n)⟩

/-- The outer loop of `J`. -/
def joinLoop (n : Nat) (s : Ed) : Option (Bool × Unit × Ed) :=
  cmdLoop (fun _ s => do
    let s ← s.joinRound
    some (true, (), s)) n () s

theorem join_eq (s : Ed) : s.join = (s.joinLoop s.rounds).map fun r => r.2.2.endCmdQ := by
  unfold join joinLoop
  rw [Option.map_eq_bind]
  rfl

theorem joinLoop_succ (n : Nat) (s : Ed) :
    s.joinLoop (n + 1) = s.joinRound.bind fun t =>
      if t.cmdcnt - 1 > 0 then ({ t with cmdcnt := t.cmdcnt - 1 } : Ed).joinLoop n
      else some (true, (), { t with cmdcnt := t.cmdcnt - 1 }) := by
  unfold joinLoop
  rw [cmdLoop]
  simp only [Option.bind_eq_bind, Option.bind_assoc, Option.bind_some, Bool.not_true,
    Bool.false_eq_true, if_false]

/-- A count of joins stops unless it runs off the end, with the balance as it was. -/
theorem joinLoop_balance : ∀ {n : Nat} {s : Ed}, s.rounds = n → s.JoinReady →
    (RunsOff s.rest n ∧ s.joinLoop n = none) ∨
      (¬ RunsOff s.rest n ∧ ∃ r, s.joinLoop n = some r ∧ r.2.2.balance = s.balance)
  | 0, s, hn, _ => by
    unfold rounds at hn
    split at hn <;> omega
  | n + 1, s, hn, h => by
    rw [joinLoop_succ]
    rcases joinRound_rest h with ⟨hnone, hoff⟩ | ⟨t, ht, hready, hcnt, hbal, hoff⟩
    · exact .inl ⟨hoff n, by rw [hnone]; rfl⟩
    · rw [ht, Option.bind_some, hoff n]
      by_cases hmore : t.cmdcnt - 1 > 0
      · rw [if_pos hmore]
        have hrounds : ({ t with cmdcnt := t.cmdcnt - 1 } : Ed).rounds = n := by
          unfold rounds at hn ⊢
          rw [if_pos (by omega)] at hn
          rw [if_pos hmore]
          simp only
          omega
        rcases joinLoop_balance hrounds ⟨hready.fits, hready.text_le_dot, hready.dot_lt_end,
          hready.undoQ⟩ with hl | ⟨hno, r, hr, hrbal⟩
        · exact .inl hl
        · exact .inr ⟨hno, r, hr, hrbal.trans hbal⟩
      · rw [if_neg hmore]
        have hzero : n = 0 := by
          unfold rounds at hn
          split at hn <;> omega
        refine .inr ⟨?_, _, rfl, hbal⟩
        rintro ⟨a, ws, -, -, -, hcount⟩
        omega

/-- What is queued when `J` starts is committed first. -/
theorem join_commit (s : Ed) : s.join = s.undoQueueCommit.join := by
  have hdot : s.undoQueueCommit.dotEnd = s.dotEnd := by
    have htwice := undoQueueCommit_of_empty s.undoQueueCommit_undoQ
    unfold dotEnd
    rw [htwice]
  have hround : s.undoQueueCommit.joinRound = s.joinRound := by
    rw [joinRound_eq, joinRound_eq, hdot]
  have hcnt : s.undoQueueCommit.rounds = s.rounds := by rw [undoQueueCommit_eq]; rfl
  obtain ⟨n, hn⟩ : ∃ n, s.rounds = n + 1 := by
    unfold rounds
    split
    · exact ⟨s.cmdcnt.toNat - 1, by omega⟩
    · exact ⟨0, rfl⟩
  rw [join_eq, join_eq, hcnt, hn, joinLoop_succ, joinLoop_succ, hround]

/-- At most one object for each byte removed and two for each line joined. -/
def PushesWithin (s t : Ed) : Prop :=
  (t.undoStack.length : Int) - s.undoStack.length ≤
    (s.bytes.length - t.bytes.length) + 2 * (s.bytes.count NL - t.bytes.count NL)

theorem pushesWithin_iff (s t : Ed) : PushesWithin s t ↔ t.balance ≤ s.balance := by
  unfold PushesWithin balance
  omega

/-- `J` finishes within the bound exactly when nothing is queued and its count does not reach a last
line of nothing but blanks that has no newline. -/
theorem join_iff (hf : s.Fits) (h₀ : s.text ≤ s.dot) (h₁ : s.dot < s.end_) :
    (∃ t, s.join = some t ∧ PushesWithin s t) ↔ s.undoQ = 0 ∧ ¬ RunsOff s.rest s.rounds := by
  by_cases hq : s.undoQ = 0
  · rcases joinLoop_balance rfl ⟨hf, h₀, h₁, hq⟩ with ⟨hoff, hnone⟩ | ⟨hno, r, hr, hbal⟩
    · refine iff_of_false ?_ (fun h => h.2 hoff)
      rintro ⟨t, ht, -⟩
      rw [join_eq, hnone] at ht
      cases ht
    · refine iff_of_true ⟨r.2.2.endCmdQ, ?_, ?_⟩ ⟨hq, hno⟩
      · rw [join_eq, hr]
        rfl
      · rw [pushesWithin_iff]
        exact Nat.le_of_eq hbal
  · -- the commit is one object more
    refine iff_of_false ?_ (fun h => hq h.1)
    rintro ⟨t, ht, hwithin⟩
    rw [pushesWithin_iff] at hwithin
    rw [join_commit, join_eq] at ht
    have hready : s.undoQueueCommit.JoinReady := by
      refine ⟨?_, ?_, ?_, s.undoQueueCommit_undoQ⟩
      · rw [undoQueueCommit_eq]
        exact hf
      · rw [undoQueueCommit_eq]
        exact h₀
      · rw [undoQueueCommit_eq]
        exact h₁
    have hmore : s.undoQueueCommit.balance = s.balance + 1 := by
      unfold balance undoQueueCommit
      rw [if_pos (by omega)]
      simp only [pushObject, List.length_cons]
      omega
    rcases joinLoop_balance rfl hready with ⟨-, hnone⟩ | ⟨-, r, hr, hbal⟩
    · rw [hnone] at ht
      cases ht
    · rw [hr] at ht
      have hend : t.balance = r.2.2.balance := by
        rw [← Option.some.inj ht]
        rfl
      omega

/-- Two lines, the second one indented. -/
theorem join_indented :
    ∃ t, (EditOp.holding [97, NL, 9, 98, NL]).join = some t ∧
      PushesWithin (EditOp.holding [97, NL, 9, 98, NL]) t := by
  refine (join_iff ⟨by decide, by decide⟩ (by decide) (by decide)).mpr ⟨rfl, ?_⟩
  exact not_runsOff_of_newline (by decide) _

/-- A last line of one blank, without a newline: the loop does not stop. -/
theorem join_runs_off :
    ¬ ∀ s : Ed, s.Fits → s.text ≤ s.dot → s.dot < s.end_ → s.undoQ = 0 →
      ∃ t, s.join = some t ∧ PushesWithin s t := by
  intro h
  obtain ⟨t, ht, -⟩ := h (EditOp.holding [97, NL, 32]) ⟨by decide, by decide⟩ (by decide) (by decide) rfl
  have hnone : (EditOp.holding [97, NL, 32]).join.isNone := by decide +kernel
  rw [ht] at hnone
  cases hnone

end Ed

end Evim
