import Ewokos.Evim.UndoExact
import Ewokos.Evim.Command

/-!
# evim: positions in a block that moves

`text_hole_make` is the only function that makes `text[]` larger, and `realloc` may put the
larger block anywhere.  A pointer is an address, its position the offset from `text`.

* `textHoleMake_samePlaces_iff` — `dot`, `screenbegin`, the marks and the anchor of the selection
  are rebased; `undo_queue_spos` is not.
* `linePointerKept_iff` — nor is the line pointer of the loop of `>`, which drops what
  `char_insert` returns.
* `popObject_restores_iff` — nor is `u_start` in `undo_pop`.

Each of them goes wrong exactly when the block moves there: `growth_keeps_positions_iff`.
-/

set_option autoImplicit false

namespace Evim

open Cells
open CString hiding strchr

namespace Ed

variable {s t : Ed} {p : Int}

/-- Room for `n` more bytes moves the block: it has to grow, and `realloc` puts it elsewhere. -/
def Moves (s : Ed) (n : Int) : Prop :=
  0 < n ∧ s.text + s.textSize ≤ s.end_ + n ∧ s.env.moves s.env.tick ≠ 0

instance (s : Ed) (n : Int) : Decidable (s.Moves n) := inferInstanceAs (Decidable (_ ∧ _ ∧ _))

/-- The globals that point into the text are at the offsets they had, as far as they are used
again, and so is the position of the queued edit in the object of a commit. -/
structure SamePlaces (s t : Ed) : Prop where
  dot : t.dot - t.text = s.dot - s.text
  screenbegin : t.screenbegin - t.text = s.screenbegin - s.text
  mark : ∀ i, (t.mark i).map (· - t.text) = (s.mark i).map (· - s.text)
  viVisualAnchor : t.viVisualAnchor.map (· - t.text) = s.viVisualAnchor.map (· - s.text)
  undoQueueSpos : 0 < s.undoQ → t.undoQueueSpos - t.text = s.undoQueueSpos - s.text
  committed : t.undoQueueCommit.undoStack.map (·.start) = s.undoQueueCommit.undoStack.map (·.start)

/-! ## `text_hole_make` -/

/-- How far room for `n` more bytes moves the block. -/
def shiftOf (s : Ed) (n : Int) : Int :=
  if 0 < n ∧ s.text + s.textSize ≤ s.end_ + n then s.env.moves s.env.tick else 0

theorem shiftOf_iff (s : Ed) (n : Int) : s.shiftOf n = 0 ↔ ¬s.Moves n := by
  unfold shiftOf Moves
  split <;> rename_i h
  · constructor
    · intro h₁ h₂
      exact h₂.2.2 h₁
    · intro h₁
      by_contra h₂
      exact h₁ ⟨h.1, h.2, h₂⟩
  · exact iff_of_true rfl fun h₁ => h ⟨h₁.1, h₁.2.1⟩

theorem textHoleMake_bias (s : Ed) (p n : Int) : (s.textHoleMake p n).1 = s.shiftOf n := by
  unfold textHoleMake shiftOf
  by_cases hn : n ≤ 0
  · rw [if_pos hn, if_neg (by omega)]
  · rw [if_neg hn]
    by_cases hg : s.end_ + n ≥ s.text + s.textSize
    · rw [if_pos (by omega : 0 < n ∧ s.text + s.textSize ≤ s.end_ + n)]
      dsimp only
      rw [if_pos hg]
      rfl
    · rw [if_neg (by omega : ¬(0 < n ∧ s.text + s.textSize ≤ s.end_ + n))]
      dsimp only
      rw [if_neg hg]

/-- Everything that points into the text is moved with it, but for `undo_queue_spos`. -/
theorem textHoleMake_rebased (s : Ed) (p n : Int) :
    (s.textHoleMake p n).2.dot = s.dot + (s.textHoleMake p n).1 ∧
      (s.textHoleMake p n).2.screenbegin = s.screenbegin + (s.textHoleMake p n).1 ∧
      (s.textHoleMake p n).2.mark = (fun i => (s.mark i).map (· + (s.textHoleMake p n).1)) ∧
      (s.textHoleMake p n).2.viVisualAnchor =
        s.viVisualAnchor.map (· + (s.textHoleMake p n).1) := by
  unfold textHoleMake
  split
  · simp
  · dsimp only
    split
    · exact ⟨rfl, rfl, rfl, rfl⟩
    · simp

/-- A pointer moved with the text is at the same offset. -/
theorem map_rebased (q : Option Int) (a b : Int) :
    (q.map (· + b)).map (· - (a + b)) = q.map (· - a) := by
  cases q with
  | none => rfl
  | some q =>
    simp only [Option.map_some, Option.some.injEq]
    omega

/-- What a commit pushes. -/
theorem undoQueueCommit_starts (s : Ed) : s.undoQueueCommit.undoStack.map (·.start) =
    if 0 < s.undoQ then (s.undoQueueSpos - s.text) :: s.undoStack.map (·.start)
    else s.undoStack.map (·.start) := by
  unfold undoQueueCommit
  by_cases h : 0 < s.undoQ
  · rw [if_pos h, if_pos h]
    rfl
  · rw [if_neg h, if_neg h]

/-- **Every global is at the offset it had, unless the block moves while an edit is queued.** -/
theorem textHoleMake_samePlaces_iff (s : Ed) (p n : Int) :
    SamePlaces s (s.textHoleMake p n).2 ↔ ¬(s.Moves n ∧ 0 < s.undoQ) := by
  have htext := s.textHoleMake_text p n
  have hundo := s.textHoleMake_toUndos p n
  have hbias := s.shiftOf_iff n
  rw [← s.textHoleMake_bias p n] at hbias
  obtain ⟨hdot, hscreen, hmark, hanchor⟩ := s.textHoleMake_rebased p n
  have hspos := congrArg Undos.undoQueueSpos hundo
  have hq := congrArg Undos.undoQ hundo
  have hstack := congrArg Undos.undoStack hundo
  generalize s.textHoleMake p n = r at *
  obtain ⟨bias, t⟩ := r
  dsimp only at *
  constructor
  · rintro h ⟨hm, hpos⟩
    have hqueue := h.undoQueueSpos hpos
    rw [hspos, htext] at hqueue
    exact hbias.mp (by omega) hm
  · intro h
    have hqueue : 0 < s.undoQ → t.undoQueueSpos - t.text = s.undoQueueSpos - s.text := by
      intro hpos
      have : bias = 0 := hbias.mpr fun hm => h ⟨hm, hpos⟩
      rw [hspos, htext]
      omega
    refine ⟨by omega, by omega, ?_, ?_, hqueue, ?_⟩
    · intro i
      rw [hmark, htext]
      exact map_rebased _ _ _
    · rw [hanchor, htext]
      exact map_rebased _ _ _
    · rw [undoQueueCommit_starts, undoQueueCommit_starts, hq, hstack]
      split <;> rename_i hpos
      · rw [hqueue hpos]
      · rfl

/-! ## The line loop of `>` -/

/-- How many bytes `>` inserts on the line at `p`. -/
def shiftWidth (s : Ed) (p : Int) : Int :=
  if p = s.endLine p then 0
  else if s.expandtab then s.nextTabstop (s.getColumn p) - s.getColumn p + 1
  else 1

theorem textHoleMake_options (s : Ed) (p n : Int) :
    (s.textHoleMake p n).2.toOptions = s.toOptions := by
  unfold textHoleMake
  split
  · rfl
  · dsimp only
    split <;> rfl

/-- A block that has grown has room again. -/
theorem textHoleMake_grown {n : Int} (p : Int) (h₀ : 0 < n) (h : s.text + s.textSize ≤ s.end_ + n) :
    (s.textHoleMake p n).2.textSize = s.end_ + n - s.text + 10240 := by
  unfold textHoleMake
  rw [if_neg (by omega)]
  dsimp only
  rw [if_pos h]
  simp only [growText]
  omega

/-- `k` blanks move the block once at most. -/
theorem expandLoop_text (undo : Undo) : ∀ (k : Nat) (s : Ed) (p : Int), k ≤ 10240 →
    (expandLoop undo k s p).2.toOptions = s.toOptions ∧
      (expandLoop undo k s p).2.text = s.text + s.shiftOf k
  | 0, s, _, _ => ⟨rfl, by rw [shiftOf, if_neg (by omega), Int.add_zero]; rfl⟩
  | k + 1, s, p, hk => by
    have hs := s.undoPushInsert_eq p 1 undo
    unfold expandLoop
    dsimp only
    generalize s.undoPushInsert p 1 undo = u at hs
    obtain ⟨htext, hend, hsize, henv⟩ : u.text = s.text ∧ u.end_ = s.end_ ∧
        u.textSize = s.textSize ∧ u.env = s.env := by
      rw [hs]
      exact ⟨rfl, rfl, rfl, rfl⟩
    have hopts : u.toOptions = s.toOptions := by rw [hs]
    have hopts₁ := u.textHoleMake_options p 1
    have htext₁ := u.textHoleMake_text p 1
    have hend₁ := u.textHoleMake_end p 1
    have hbias₁ := u.textHoleMake_bias p 1
    have ih := expandLoop_text undo k (u.stupidInsert p 32).2
      (p + 1 + (u.stupidInsert p 32).1) (by omega)
    refine ⟨ih.1.trans (hopts₁.trans hopts), ih.2.trans ?_⟩
    show (u.textHoleMake p 1).2.text + (u.textHoleMake p 1).2.shiftOf k = s.text + s.shiftOf (k + 1)
    unfold shiftOf at *
    by_cases hgrow : s.text + s.textSize ≤ s.end_ + 1
    · -- it grows now, and what is left fits
      have hsize₁ := u.textHoleMake_grown p Int.one_pos (by omega)
      rw [if_pos (by omega)] at hbias₁
      rw [if_neg (by push_cast at hend₁; omega), if_pos (by omega), htext₁, hbias₁, htext, henv]
      omega
    · obtain ⟨-, h₁, h₂, h₃⟩ := u.textHoleMake_noGrow (p := p) (n := 1) (by push_cast; omega)
      push_cast at h₁ h₂ h₃ hend₁
      rw [if_neg (by omega)] at hbias₁
      rw [h₁, h₂, h₃, hend₁, hbias₁, htext, hsize, henv, hend]
      by_cases hk₀ : 0 < (k : Int) ∧ s.text + s.textSize ≤ s.end_ + 1 + 0 + k
      · rw [if_pos hk₀, if_pos (by omega)]
      · rw [if_neg hk₀, if_neg (by omega)]

/-- Inserting a tab as it is. -/
theorem insertPlain_tab (s : Ed) (p : Int) (undo : Undo) : s.insertPlain p 9 undo =
    some (p + 1 + (s.stupidInsert p 9).1, { (s.stupidInsert p 9).2 with indentcol := 0 }) := by
  have hcr : ¬(9 : UInt8) = 13 := by decide
  have hnl : ¬(9 : UInt8) = NL := by decide
  have hpair : ¬strchr (str ")]" ++ [125]) (9 : UInt8).toNat = true := by decide
  unfold insertPlain
  dsimp only
  rw [if_neg hcr, if_neg hnl, if_neg fun hm => hpair hm.2]
  simp only [Option.bind_eq_bind, Option.bind_some]
  rw [if_neg fun hm => hnl hm.2]

/-- The blanks of an expanded tab. -/
theorem expandTab_text (hts : 1 ≤ s.tabstop ∧ s.tabstop ≤ MAX_TABSTOP) (p : Int) (undo : Undo) :
    (s.expandTab p undo).2.toOptions = s.toOptions ∧ (s.expandTab p undo).2.text =
      s.text + s.shiftOf (s.nextTabstop (s.getColumn p) - s.getColumn p + 1) := by
  have h₀ : 0 ≤ s.getColumn p % s.tabstop := Int.emod_nonneg _ (by omega)
  have h₁ : s.getColumn p % s.tabstop < s.tabstop := Int.emod_lt_of_pos _ (by omega)
  have h₂ : s.nextTabstop (s.getColumn p) - s.getColumn p + 1 =
      s.tabstop - s.getColumn p % s.tabstop := by
    unfold nextTabstop
    omega
  unfold MAX_TABSTOP at hts
  unfold expandTab
  dsimp only
  rw [h₂]
  have h := expandLoop_text undo (s.tabstop - s.getColumn p % s.tabstop).toNat s p (by omega)
  rw [Int.toNat_of_nonneg (by omega)] at h
  exact h

/-- `>` always inserts its tab, and moves the block when room for the bytes does. -/
theorem shiftRight_spec (hts : 1 ≤ s.tabstop ∧ s.tabstop ≤ MAX_TABSTOP) (p : Int) (undo : Undo) :
    ∃ q t, s.shiftRight p undo = some (q, t) ∧ t.toOptions = s.toOptions ∧
      t.text = s.text + s.shiftOf (s.shiftWidth p) := by
  unfold shiftRight shiftWidth
  by_cases hp : p = s.endLine p
  · rw [if_neg (not_not.mpr hp), if_pos hp]
    exact ⟨p, s, rfl, rfl, (Int.add_zero _).symm⟩
  · rw [if_pos hp, if_neg hp]
    unfold charInsert
    dsimp only
    rw [if_neg (by decide), if_neg (by decide), if_neg (by decide)]
    by_cases hx : s.expandtab = true
    · rw [if_pos ⟨rfl, hx⟩, if_pos hx]
      exact ⟨_, _, rfl, expandTab_text hts p undo⟩
    · rw [if_neg fun hm => hx hm.2, if_neg (by decide), if_neg hx, insertPlain_tab]
      refine ⟨_, _, rfl, s.textHoleMake_options p 1, ?_⟩
      rw [← textHoleMake_bias]
      exact s.textHoleMake_text p 1

/-- The line pointer of the loop of `>` is at the offset it had behind each insertion. -/
def LinePointerKept : Nat → Int → Undo → Ed → Prop
  | 0, _, _, _ => True
  | n + 1, p, undo, s => ∀ q t, s.shiftRight p undo = some (q, t) →
      p - t.text = p - s.text ∧ LinePointerKept n (t.nextLine p) .chain t

/-- The block stays where it is in every round of the loop. -/
def LinesStay : Nat → Int → Undo → Ed → Prop
  | 0, _, _, _ => True
  | n + 1, p, undo, s => ¬s.Moves (s.shiftWidth p) ∧ ∀ q t, s.shiftRight p undo = some (q, t) →
      LinesStay n (t.nextLine p) .chain t

/-- **The line pointer is kept exactly when no round moves the block.** -/
theorem linePointerKept_iff : ∀ (n : Nat) (p : Int) (undo : Undo) (s : Ed),
    1 ≤ s.tabstop ∧ s.tabstop ≤ MAX_TABSTOP → (LinePointerKept n p undo s ↔ LinesStay n p undo s)
  | 0, _, _, _, _ => Iff.rfl
  | n + 1, p, undo, s, hts => by
    obtain ⟨q, t, hr, hopts, htext⟩ := shiftRight_spec hts p undo
    have ht : 1 ≤ t.tabstop ∧ t.tabstop ≤ MAX_TABSTOP := by
      rw [congrArg Options.tabstop hopts]
      exact hts
    have ih := linePointerKept_iff n (t.nextLine p) .chain t ht
    have hround : p - t.text = p - s.text ↔ ¬s.Moves (s.shiftWidth p) := by
      rw [← shiftOf_iff, htext]
      omega
    unfold LinePointerKept LinesStay
    rw [hr]
    constructor
    · intro h
      have h₁ := h q t rfl
      refine ⟨hround.mp h₁.1, ?_⟩
      rintro q' t' ⟨⟩
      exact ih.mp h₁.2
    · rintro ⟨hstay, h⟩ q' t' ⟨⟩
      exact ⟨hround.mpr hstay, ih.mpr (h q t rfl)⟩

/-! ## `undo_pop` -/

variable {e : UndoObject} {rest : List UndoObject}

/-- What one level of `undo_pop` leaves of a deletion. -/
theorem popObject_restored (he : e.uType = .del ∨ e.uType = .delChain) :
    (s.popObject e rest).toBuf = { (s.textHoleMake (s.text + e.start) e.length).2.toBuf with
      mem := memcpy (s.textHoleMake (s.text + e.start) e.length).2.mem (s.text + e.start)
        e.undoText } := by
  rw [popObject_buf]
  unfold undoApply
  rcases he with he | he <;> rw [he] <;> rfl

/-- **A deletion is restored exactly when its room does not move the block.** -/
theorem popObject_restores_iff (hf : s.Fits) (he : e.uType = .del ∨ e.uType = .delChain) :
    ((s.text + e.start) - (s.popObject e rest).text = e.start ∧
      (0 ≤ e.start → e.start ≤ s.bytes.length → e.undoText.length = e.length →
        (s.popObject e rest).bytes =
          s.bytes.take e.start.toNat ++ e.undoText ++ s.bytes.drop e.start.toNat)) ↔
      ¬s.Moves e.length := by
  have htext : (s.popObject e rest).text = s.text + s.shiftOf e.length := by
    rw [show (s.popObject e rest).text = _ from congrArg Buf.text (popObject_restored he),
      textHoleMake_text, textHoleMake_bias]
  rw [htext, ← shiftOf_iff]
  constructor
  · rintro ⟨h, -⟩
    omega
  · intro h
    refine ⟨by omega, fun h₀ h₁ h₂ => ?_⟩
    rw [popObject_restored he]
    exact restore_bytes hf h₀ (by omega) h₂ ((textHoleMake_bias ..).trans h)

/-! ## Growth -/

/-- **Growth keeps every position, but for the three that it forgets**: the position of the queued
edit, the line pointer of `>` and `u_start` keep theirs exactly when the block does not move
there. -/
theorem growth_keeps_positions_iff (hf : s.Fits) (hts : 1 ≤ s.tabstop ∧ s.tabstop ≤ MAX_TABSTOP) :
    (∀ p n, p + (s.textHoleMake p n).1 - (s.textHoleMake p n).2.text = p - s.text ∧
      (SamePlaces s (s.textHoleMake p n).2 ↔ ¬(s.Moves n ∧ 0 < s.undoQ))) ∧
    (∀ n p undo, LinePointerKept n p undo s ↔ LinesStay n p undo s) ∧
    (∀ e rest, e.uType = .del ∨ e.uType = .delChain →
      ((s.text + e.start - (s.popObject e rest).text = e.start ∧
        (0 ≤ e.start → e.start ≤ s.bytes.length → e.undoText.length = e.length →
          (s.popObject e rest).bytes =
            s.bytes.take e.start.toNat ++ e.undoText ++ s.bytes.drop e.start.toNat)) ↔
        ¬s.Moves e.length)) := by
  refine ⟨fun p n => ⟨?_, s.textHoleMake_samePlaces_iff p n⟩,
    fun n p undo => linePointerKept_iff n p undo s hts, fun e rest he => popObject_restores_iff hf he⟩
  rw [textHoleMake_text]
  omega

/-- A file of 10239 bytes, in the lines `x`, `x` and one long line; the next `realloc` moves
the block down. -/
def crowded : Ed :=
  { Ed.zeroed { Env.still with keys := [⟨key '>', false⟩], moves := fun _ => -32768 } with
    mem := fun i => if i = 65537 ∨ i = 65539 ∨ i = 75774 then NL else 120
    text := 65536
    end_ := 75775
    textSize := 10240
    dot := 65536
    screenbegin := 65536
    rows := 24
    columns := 80
    tabstop := 8
    undoQueueState := .empty }

/-- The next byte moves the block of `crowded`, which forgets nothing as long as none is queued. -/
theorem growth_keeps_positions_crowded :
    crowded.Moves 1 ∧ SamePlaces crowded (crowded.textHoleMake 65536 1).2 := by
  have h := growth_keeps_positions_iff (s := crowded) ⟨by decide, by decide⟩ (by decide)
  exact ⟨by decide, (h.1 65536 1).2.mpr (by decide)⟩

/-- `2>>` in `crowded`: the first line is shifted, the block moves, and the loop loses the second
line. -/
theorem second_line_lost :
    ¬LinePointerKept 2 65536 .allow crowded ∧
      (doCmd (key '>') { crowded with cmdcnt := 2 }).map (fun t => slice t.mem t.text 5) =
        some (str "\tx\nx\n") := by
  refine ⟨fun h => ?_, by decide +kernel⟩
  have hmove : ∀ r ∈ crowded.shiftRight 65536 .allow, 65536 - r.2.text ≠ 65536 - crowded.text := by
    decide +kernel
  obtain ⟨q, t, hr, -⟩ := shiftRight_spec (s := crowded) (by decide) 65536 .allow
  exact hmove (q, t) hr (h q t hr).1

end Ed

end Evim
