import Ewokos.Evim.Display
import Ewokos.Evim.Selection

/-!
# evim: the highlight on the terminal

The selection as the terminal sees it, without a syntax mode: what the loop of `edit_file` of
`bin/evim/vim_main.c` invalidates behind a command, and the cells in reverse video.

* `draw_highlit_iff` — one call: the reverse cells are those of the selection exactly when each
  change of the highlight lies between two touched columns of its row.
* `highlitAll_iff` — a whole run.
-/

set_option autoImplicit false

namespace Evim

open Cells Ed
open CString hiding strchr

namespace Ed

/-! ## The selection -/

/-- The two ends of the selection, if there is one. -/
def selection (s : Ed) : Option (Int × Int) :=
  if s.viVisual then
    let anchor := s.viVisualAnchor.getD 0
    some (if anchor < s.dot then (anchor, s.dot) else (s.dot, anchor))
  else none

/-- Row `li` shows a byte of the selection in column `k`. -/
def Lit (s : Ed) (li k : Nat) : Prop :=
  let t := s.syncCursor s.dot
  ∃ r ∈ s.selection, t.Selected r.1 r.2 (t.rowStart t.screenbegin li) k

/-- Column `k` of row `li` is in the mask of the selection. -/
def lit (s : Ed) (li k : Nat) : Bool := (s.shownMask li).elim false (· (k : Int))

/-- The spans that the loop of `edit_file` invalidates around a command. -/
def spans (before after : Ed) : List (Int × Int) :=
  match after.selection with
  | some r => if before.selection ≠ some r then before.selection.toList ++ [r] else []
  -- the selection just ended
  | none => before.selection.toList

/-- What the loop of `edit_file` does to the virtual screen before it calls `refresh`. -/
def invalidate (before after : Ed) (screen : Memory UInt8) : Memory UInt8 :=
  (spans before after).foldl (fun screen r => after.visualInvalidateSpan r.1 r.2 screen) screen

/-- The loop invalidates column `k` of row `li`. -/
def Poisoned (before after : Ed) (li k : Nat) : Prop :=
  ∃ r ∈ spans before after, after.Poisons r.1 r.2 (after.nextLine^[li] after.screenbegin) k

instance (before after : Ed) (li k : Nat) : Decidable (Poisoned before after li k) :=
  inferInstanceAs (Decidable (∃ r ∈ spans before after, _))

variable {s : Ed}

theorem selection_le {r : Int × Int} (h : s.selection = some r) : r.1 ≤ r.2 := by
  unfold selection at h
  dsimp only at h
  split at h
  · obtain rfl := Option.some.inj h
    split <;> dsimp only <;> omega
  · cases h

theorem spans_le {before after : Ed} {r : Int × Int} (h : r ∈ spans before after) : r.1 ≤ r.2 := by
  unfold spans at h
  split at h
  · rename_i r' hr'
    split at h
    · rcases List.mem_append.mp h with h | h
      · exact selection_le (Option.mem_toList.mp h)
      · rw [List.mem_singleton.mp h]
        exact selection_le hr'
    · cases h
  · exact selection_le (Option.mem_toList.mp h)

/-- The mask is that of the selection. -/
theorem lit_iff (ht : 1 ≤ s.tabstop) (li : Nat) {k : Nat} (hk : k < s.columns) :
    s.lit li k = true ↔ s.Lit li k := by
  obtain ⟨-, htab, hcolumns, -, -, hdot, hvis⟩ := syncCursor_same s s.dot
  have hanchor : (s.syncCursor s.dot).viVisualAnchor = s.viVisualAnchor := by
    rw [syncCursor_position]
  have hmask : ∀ lo hi tp, (s.syncCursor s.dot).visualSpanMask tp lo hi k = true ↔
      (s.syncCursor s.dot).Selected lo hi tp k :=
    fun lo hi tp => visualSpanMask_iff (by omega) lo hi tp (by omega)
  unfold lit Ed.shownMask Terminal.selMask Lit selection
  dsimp only
  rw [hvis]
  cases s.viVisual with
  | false => simp
  | true =>
    simp only [if_true, Option.elim_some, Option.mem_def, Option.some.injEq, exists_eq_left']
    unfold visualLineMask
    rw [hdot, hanchor]
    rcases Int.lt_trichotomy s.dot (s.viVisualAnchor.getD 0) with h | h | h
    · rw [if_pos h, if_neg (by omega)]
      exact hmask _ _ _
    · rw [if_neg (by omega), if_neg (by omega), ← h]
      exact hmask _ _ _
    · rw [if_neg (by omega), if_pos h]
      exact hmask _ _ _

/-- What the loop leaves in a row of the virtual screen. -/
theorem invalidate_row (before after : Ed) (screen : Memory UInt8) {li : Nat}
    (hli : li < after.rows - 1) {k : Nat} (hk : k < after.columns) :
    invalidate before after screen (li * after.columns + k) =
      if Poisoned before after li k then 255 else screen (li * after.columns + k) := by
  have hfold : ∀ (l : List (Int × Int)) (screen : Memory UInt8), (∀ r ∈ l, r.1 ≤ r.2) →
      l.foldl (fun screen r => after.visualInvalidateSpan r.1 r.2 screen) screen
        (li * after.columns + k) =
      if ∃ r ∈ l, after.Poisons r.1 r.2 (after.nextLine^[li] after.screenbegin) k then 255
      else screen (li * after.columns + k) := by
    intro l
    induction l with
    | nil => simp
    | cons r l ih =>
      intro screen hl
      rw [List.foldl_cons, ih _ fun x hx => hl x (List.mem_cons_of_mem _ hx),
        visualInvalidateSpan_row (hl r (List.mem_cons_self ..)) screen hli hk]
      by_cases hr : after.Poisons r.1 r.2 (after.nextLine^[li] after.screenbegin) k
      · simp [hr]
      · have hcons : (∃ x ∈ r :: l, after.Poisons x.1 x.2 (after.nextLine^[li] after.screenbegin) k) ↔
            ∃ x ∈ l, after.Poisons x.1 x.2 (after.nextLine^[li] after.screenbegin) k := by
          simp [hr]
        rw [if_neg hr, if_congr hcons rfl rfl]
  exact hfold _ screen fun r hr => spans_le hr

end Ed

/-! ## One row -/

variable {α : Type} {T : Terminal α}

/-- The terminal tells reverse video from plain text. -/
theorem standout_inj (hrev : T.sgr T.plain escBoldText ≠ T.plain) {a b : Bool} :
    T.standout a = T.standout b ↔ a = b := by
  have hne : T.standout true ≠ T.standout false := hrev
  cases a <;> cases b
  · simp
  · simp [hne.symm]
  · simp [hne]
  · simp

/-- **One row.**  Its reverse cells are those of the new mask exactly when the row is written as a
whole, or each change of the highlight is between two differences. -/
theorem row_lit_iff (hrev : T.sgr T.plain escBoldText ≠ T.plain) {columns : Nat}
    (line : List UInt8) (sp : Int → UInt8) (now : Nat → Bool) {old : Int → UInt8 × α}
    {was : Nat → Bool} (full offsetChanged : Bool)
    (hold : ∀ k : Nat, k < columns → (old k).2 = T.standout (was k)) :
    (∀ k : Nat, k < columns →
      (Terminal.rowCells line (fun _ k => T.standout (now k)) old
        (rowSlice columns full offsetChanged line sp) k).2 = T.standout (now k)) ↔
    full = true ∨ (offsetChanged = true ∧ ∀ i : Nat, i < columns → ¬Differs columns line sp i) ∨
      ∀ k : Nat, k < columns → was k = now k ∨
        ((∃ i : Nat, i < k + 1 ∧ Differs columns line sp i) ∧
          ∃ j : Nat, j < columns ∧ k ≤ j ∧ Differs columns line sp j) := by
  have hwhole : ∀ k : Nat, k < columns → (Terminal.rowCells line (fun _ k => T.standout (now k)) old
      (some (0, (columns : Int) - 1)) k).2 = T.standout (now k) := by
    intro k hk
    unfold Terminal.rowCells
    dsimp only
    rw [if_pos (by omega), Int.toNat_natCast]
  cases full with
  | true =>
    rw [rowSlice_full]
    exact iff_of_true hwhole (.inl rfl)
  | false =>
    rw [or_iff_right Bool.false_ne_true]
    by_cases hd : ∃ k, Differs columns line sp k
    · obtain ⟨k₀, hk₀⟩ := hd
      obtain ⟨cs, ce, hslice, hcs, hce, hall⟩ := rowSlice_diff offsetChanged hk₀
      obtain ⟨i, rfl⟩ := Int.eq_ofNat_of_zero_le hcs.1
      obtain ⟨j, rfl⟩ := Int.eq_ofNat_of_zero_le hce.1
      have hi := hcs.2.1
      have hj := hce.2.1
      rw [hslice, or_iff_right fun h => h.2 i (by omega) hcs]
      refine forall_congr' fun k => forall_congr' fun hk => ?_
      unfold Terminal.rowCells
      dsimp only
      by_cases hin : i ≤ k ∧ k ≤ j
      · rw [if_pos (by omega), Int.toNat_natCast]
        exact iff_of_true rfl (.inr ⟨⟨i, by omega, hcs⟩, j, by omega, hin.2, hce⟩)
      · rw [if_neg (by omega), hold k hk, standout_inj hrev]
        refine (or_iff_left ?_).symm
        rintro ⟨⟨h, hh, hdh⟩, h', -, hh', hdh'⟩
        have h₁ := (hall h hdh).1
        have h₂ := (hall h' hdh').2
        omega
    · have hno : ∀ k, ¬Differs columns line sp k := fun k hk => hd ⟨k, hk⟩
      rw [rowSlice_same hno]
      cases offsetChanged with
      | true => exact iff_of_true hwhole (.inl ⟨rfl, fun i _ => hno i⟩)
      | false =>
        rw [or_iff_right fun h => Bool.false_ne_true h.1]
        refine forall_congr' fun k => forall_congr' fun hk => ?_
        show (old k).2 = _ ↔ _
        rw [hold k hk, standout_inj hrev]
        exact (or_iff_left fun ⟨⟨i, _, hi⟩, _⟩ => hno i hi).symm

/-! ## One call -/

/-- What a call has drawn: the rows, their highlight, the offset, and the top of the screen if there
was a selection. -/
structure Shot where
  chars : Nat → List UInt8
  lit : Nat → Nat → Bool
  offset : Int
  top : Option Int

def Ed.shot (s : Ed) : Shot where
  chars := s.rowText
  lit := s.lit
  offset := (s.syncCursor s.dot).offset
  top := if s.viVisual then some (s.syncCursor s.dot).screenbegin else none

/-- The screen is cleared. -/
def Shot.clear (columns : Nat) (x : Shot) : Shot :=
  { x with
    chars := fun _ => List.replicate columns 32
    lit := fun _ _ => false }

/-- A call that draws the editor: a `redraw`, a `refresh(false)` inside a command, and the one of
the loop of `edit_file` behind a command. -/
inductive Draw where
  | redraw (full : Bool) (s : Ed)
  | refresh (s : Ed)
  | round (before after : Ed)

/-- The editor that is drawn. -/
def Draw.ed : Draw → Ed
  | .redraw _ s => s
  | .refresh s => s
  | .round _ after => after

/-- Column `i` of row `li` differs from the virtual screen, or is poisoned. -/
def Touched (x : Shot) (poison : Nat → Nat → Prop) (s : Ed) (li i : Nat) : Prop :=
  poison li i ∨ (x.chars li).getD i 0 ≠ (s.rowText li).getD i 0

/-- Each change of the highlight lies between two touched columns of its row, where the screen is
not written as a whole for a scrolled selection, or the row for a scrolled line. -/
def HighlightKept (x : Shot) (poison : Nat → Nat → Prop) (s : Ed) : Prop :=
  let t := s.syncCursor s.dot
  (s.viVisual = true ∧ some t.screenbegin ≠ x.top) ∨ ∀ li < s.rows - 1,
    (t.offset ≠ x.offset ∧ ∀ i < s.columns, ¬Touched x poison s li i) ∨
    ∀ k < s.columns, x.lit li k = s.lit li k ∨
      ((∃ i < k + 1, Touched x poison s li i) ∧ ∃ j < s.columns, k ≤ j ∧ Touched x poison s li j)

instance (x : Shot) (poison : Nat → Nat → Prop) [∀ li k, Decidable (poison li k)] (s : Ed)
    (li i : Nat) : Decidable (Touched x poison s li i) :=
  inferInstanceAs (Decidable (_ ∨ _))

instance (x : Shot) (poison : Nat → Nat → Prop) [∀ li k, Decidable (poison li k)] (s : Ed) :
    Decidable (HighlightKept x poison s) :=
  inferInstanceAs (Decidable ((s.viVisual = true ∧ some (s.syncCursor s.dot).screenbegin ≠ x.top) ∨
    ∀ li < s.rows - 1, _))

namespace Display

variable (T) in
/-- One call. -/
def draw (d : Display α) : Draw → Display α
  | .redraw full s => d.redraw T .none full s
  | .refresh s => d.refresh T .none false s
  | .round before after =>
    let screen := invalidate before after d.view.screen
    refresh T .none false after { d with view := { d.view with screen := screen } }

variable (T) in
/-- A text cell is in reverse video if and only if it belongs to the selection. -/
def Highlit (d : Display α) (s : Ed) : Prop :=
  ∀ li < s.rows - 1, ∀ k < s.columns,
    (d.cells li (k : Nat)).2 = T.sgr T.plain escBoldText ↔ s.Lit li k

variable (T) in
/-- The display is what the call has drawn. -/
structure Shows (rows columns : Nat) (d : Display α) (x : Shot) : Prop where
  chars : ∀ li < rows - 1, ∀ k < columns,
    d.view.screen (li * columns + (k : Nat)) = (x.chars li).getD k 0
  lit : ∀ li < rows - 1, ∀ k < columns, (d.cells li (k : Nat)).2 = T.standout (x.lit li k)
  offset : d.view.refreshOldOffset = x.offset
  top : d.view.visLastScreenbegin = x.top

variable {d : Display α} {x : Shot} {s : Ed}

theorem Shows.clear {rows columns : Nat} (h : d.Shows T rows columns x) :
    (d.clear T).Shows T rows columns (x.clear columns) where
  chars := by
    intro li hli k hk
    simp [Display.clear, Shot.clear, hk]
  lit := fun _ _ _ _ => rfl
  offset := h.offset
  top := h.top

/-- Where the cells are those of some highlight, the reverse ones are the selection's exactly when
it is the highlight. -/
theorem highlit_iff (hrev : T.sgr T.plain escBoldText ≠ T.plain) (ht : 1 ≤ s.tabstop)
    (h : ∀ li < s.rows - 1, ∀ k < s.columns, ∃ b, (d.cells li (k : Nat)).2 = T.standout b) :
    d.Highlit T s ↔
      ∀ li < s.rows - 1, ∀ k < s.columns, (d.cells li (k : Nat)).2 = T.standout (s.lit li k) := by
  refine forall_congr' fun li => forall_congr' fun hli => forall_congr' fun k =>
    forall_congr' fun hk => ?_
  obtain ⟨b, hb⟩ := h li hli k hk
  have hb' : (d.cells li (k : Nat)).2 = T.sgr T.plain escBoldText ↔ b = true := by
    rw [hb]
    exact standout_inj hrev (b := true)
  rw [← lit_iff ht li hk, hb', hb, standout_inj hrev]
  exact Bool.eq_iff_iff.symm

/-- A `refresh` of a screen on which columns were poisoned. -/
theorem refresh_highlit_iff (hrev : T.sgr T.plain escBoldText ≠ T.plain) (hc : 1 ≤ s.columns)
    (ht : 1 ≤ s.tabstop) (poison : Nat → Nat → Prop) [∀ li k, Decidable (poison li k)]
    (screen : Memory UInt8) (hd : d.Shows T s.rows s.columns x)
    (hscreen : ∀ li < s.rows - 1, ∀ k < s.columns, screen (li * s.columns + (k : Nat)) =
      if poison li k then 255 else d.view.screen (li * s.columns + (k : Nat))) (redraws : Bool) :
    let d' := refresh T .none redraws s { d with view := { d.view with screen := screen } }
    (d'.Highlit T s ↔ redraws = true ∨ HighlightKept x poison s) ∧
      (d'.Highlit T s → d'.Shows T s.rows s.columns s.shot) := by
  intro d'
  generalize hfull : (redraws ||
    (s.viVisual && some (s.syncCursor s.dot).screenbegin != d.view.visLastScreenbegin)) = full
  generalize hoff : ((s.syncCursor s.dot).offset != d.view.refreshOldOffset) = offsetChanged
  have hcells : ∀ li < s.rows - 1, ∀ k : Nat, d'.cells li k =
      Terminal.rowCells (s.shownLine li) (fun _ k => T.standout (s.lit li k)) (d.cells li)
        (rowSlice s.columns full offsetChanged (s.shownLine li)
          fun k => screen (li * s.columns + k)) k := by
    intro li hli k
    rw [← hfull, ← hoff]
    exact refresh_cells (Terminal.writeSlice_standout (T := T) s.columns s.viVisual) hc redraws hli k
  have hdiff : ∀ {li : Nat}, li < s.rows - 1 → ∀ {i : Nat}, i < s.columns →
      (Differs s.columns (s.shownLine li) (fun k => screen (li * s.columns + k)) i ↔
        Touched x poison s li i) := by
    intro li hli i hi
    have hlen := Nat.lt_of_lt_of_le hi (columns_le_shownLine s li)
    have hascii : (s.shownLine li).getD i 0 < 128 := by
      rw [List.getD_eq_getElem _ _ hlen]
      exact formatLine_ascii (List.getElem_mem hlen)
    have hrow : (s.rowText li).getD i 0 = (s.shownLine li).getD i 0 := by
      simp [Ed.rowText, hi]
    unfold Differs Touched
    dsimp only
    rw [hscreen li hli i hi, hrow, hd.chars li hli i hi, Int.toNat_natCast]
    by_cases hp : poison li i
    · have hne : (s.shownLine li).getD i 0 ≠ 255 := by
        intro e
        rw [e] at hascii
        exact absurd hascii (by decide)
      rw [if_pos hp]
      exact iff_of_true ⟨by omega, by omega, hne⟩ (.inl hp)
    · rw [if_neg hp, or_iff_right hp]
      exact ⟨fun h => h.2.2.symm, fun h => ⟨by omega, by omega, h.symm⟩⟩
  have hlooks : ∀ li < s.rows - 1, ∀ k < s.columns, ∃ b,
      (d'.cells li (k : Nat)).2 = T.standout b := by
    intro li hli k hk
    rw [hcells li hli k]
    unfold Terminal.rowCells
    split
    · split
      · exact ⟨_, rfl⟩
      · exact ⟨_, hd.lit li hli k hk⟩
    · exact ⟨_, hd.lit li hli k hk⟩
  have hrow : ∀ li < s.rows - 1, ((∀ k < s.columns,
      (d'.cells li (k : Nat)).2 = T.standout (s.lit li k)) ↔
      full = true ∨ (((s.syncCursor s.dot).offset ≠ x.offset ∧
        ∀ i < s.columns, ¬Touched x poison s li i) ∨ ∀ k < s.columns, x.lit li k = s.lit li k ∨
        ((∃ i < k + 1, Touched x poison s li i) ∧
          ∃ j < s.columns, k ≤ j ∧ Touched x poison s li j))) := by
    intro li hli
    have hoffset : offsetChanged = true ↔ (s.syncCursor s.dot).offset ≠ x.offset := by
      rw [← hoff, bne_iff_ne, hd.offset]
    have hcover : ∀ k < s.columns, (((∃ i < k + 1, Touched x poison s li i) ∧
        ∃ j < s.columns, k ≤ j ∧ Touched x poison s li j) ↔
        (∃ i : Nat, i < k + 1 ∧
          Differs s.columns (s.shownLine li) (fun k => screen (li * s.columns + k)) i) ∧
        ∃ j : Nat, j < s.columns ∧ k ≤ j ∧
          Differs s.columns (s.shownLine li) (fun k => screen (li * s.columns + k)) j) := by
      intro k hk
      refine and_congr (exists_congr fun i => and_congr_right fun hi => ?_)
        (exists_congr fun j => and_congr_right fun hj => and_congr_right fun _ => ?_)
      · exact (hdiff hli (by omega)).symm
      · exact (hdiff hli hj).symm
    have hrow := row_lit_iff hrev (s.shownLine li) (fun k => screen (li * s.columns + k)) (s.lit li)
      full offsetChanged (hd.lit li hli)
    simp only [hcells li hli]
    refine hrow.trans (or_congr Iff.rfl (or_congr (and_congr hoffset ?_) ?_))
    · exact forall_congr' fun i => forall_congr' fun hi => not_congr (hdiff hli hi)
    · exact forall_congr' fun k => forall_congr' fun hk => or_congr Iff.rfl (hcover k hk).symm
  have hiff := highlit_iff hrev ht hlooks
  refine ⟨hiff.trans ?_, fun h => ?_⟩
  · have hwhole : full = true ↔ redraws = true ∨
        (s.viVisual = true ∧ some (s.syncCursor s.dot).screenbegin ≠ x.top) := by
      rw [← hfull, Bool.or_eq_true, Bool.and_eq_true, bne_iff_ne, hd.top]
    unfold HighlightKept
    dsimp only
    rw [← or_assoc, ← hwhole]
    by_cases h : full = true
    · exact iff_of_true (fun li hli => (hrow li hli).mpr (.inl h)) (.inl h)
    · rw [or_iff_right h]
      exact forall_congr' fun li => forall_congr' fun hli => (hrow li hli).trans (or_iff_right h)
  · have hvis : (s.syncCursor s.dot).viVisual = s.viVisual :=
      (syncCursor_same s s.dot).2.2.2.2.2.2
    have htop : d'.view.visLastScreenbegin = s.shot.top := by
      show (if (s.syncCursor s.dot).viVisual then some (s.syncCursor s.dot).screenbegin else none) = _
      rw [hvis]
      rfl
    refine ⟨fun li hli k hk => ?_, hiff.mp h, rfl, htop⟩
    have hchars := refresh_chars (T := T) (m := .none)
      (d := { d with view := { d.view with screen := screen } }) hc redraws hli hk
    refine hchars.trans ?_
    simp [Ed.shot, Ed.rowText, hk]

/-! ## Runs -/

/-- The highlight is kept by one call. -/
def KeepsHighlight (x : Shot) : Draw → Prop
  | .redraw full s => full = true ∨ HighlightKept (x.clear s.columns) (fun _ _ => False) s
  | .refresh s => HighlightKept x (fun _ _ => False) s
  | .round before after => HighlightKept x (Poisoned before after) after

instance (x : Shot) : ∀ c, Decidable (KeepsHighlight x c)
  | .redraw full s =>
    inferInstanceAs (Decidable (full = true ∨ HighlightKept (x.clear s.columns) (fun _ _ => False) s))
  | .refresh s => inferInstanceAs (Decidable (HighlightKept x (fun _ _ => False) s))
  | .round before after => inferInstanceAs (Decidable (HighlightKept x (Poisoned before after) after))

/-- One call keeps the highlight exactly when it leaves it right. -/
theorem draw_highlit_iff (hrev : T.sgr T.plain escBoldText ≠ T.plain) (c : Draw)
    (hc : 1 ≤ c.ed.columns) (ht : 1 ≤ c.ed.tabstop) (hd : d.Shows T c.ed.rows c.ed.columns x) :
    ((d.draw T c).Highlit T c.ed ↔ KeepsHighlight x c) ∧
      ((d.draw T c).Highlit T c.ed → (d.draw T c).Shows T c.ed.rows c.ed.columns c.ed.shot) := by
  cases c with
  | redraw full s =>
    exact refresh_highlit_iff hrev hc ht (fun _ _ => False) (fun _ => 32) hd.clear
      (fun _ _ _ _ => rfl) full
  | refresh s =>
    have h := refresh_highlit_iff hrev hc ht (fun _ _ => False) d.view.screen hd
      (fun _ _ _ _ => rfl) false
    exact ⟨h.1.trans (or_iff_right Bool.false_ne_true), h.2⟩
  | round before after =>
    have h := refresh_highlit_iff hrev hc ht (Poisoned before after) _ hd
      (fun li hli k hk => invalidate_row before after d.view.screen hli hk) false
    exact ⟨h.1.trans (or_iff_right Bool.false_ne_true), h.2⟩

variable (T) in
/-- After each call of the run the reverse cells are those of the selection. -/
def HighlitAll : Display α → List Draw → Prop
  | _, [] => True
  | d, c :: run => (d.draw T c).Highlit T c.ed ∧ HighlitAll (d.draw T c) run

/-- Each call of the run keeps the highlight. -/
def KeepsHighlightAll : Shot → List Draw → Prop
  | _, [] => True
  | x, c :: run => KeepsHighlight x c ∧ KeepsHighlightAll c.ed.shot run

instance decidableKeepsHighlightAll : ∀ (x : Shot) (run : List Draw),
    Decidable (KeepsHighlightAll x run)
  | _, [] => inferInstanceAs (Decidable True)
  | x, c :: run =>
    let _ := decidableKeepsHighlightAll c.ed.shot run
    inferInstanceAs (Decidable (KeepsHighlight x c ∧ KeepsHighlightAll c.ed.shot run))

/-- The run behind a call that left the highlight right. -/
theorem highlitAll_iff_of_shows (hrev : T.sgr T.plain escBoldText ≠ T.plain) {rows columns : Nat}
    (hc : 1 ≤ columns) : ∀ (run : List Draw) (d : Display α) (x : Shot),
    (∀ c ∈ run, c.ed.rows = rows ∧ c.ed.columns = columns ∧ 1 ≤ c.ed.tabstop) →
    d.Shows T rows columns x → (HighlitAll T d run ↔ KeepsHighlightAll x run)
  | [], _, _, _, _ => Iff.rfl
  | c :: run, d, x, hrun, hd => by
    obtain ⟨hrows, hcolumns, ht⟩ := hrun c (List.mem_cons_self ..)
    subst hrows hcolumns
    obtain ⟨hiff, hshows⟩ := draw_highlit_iff hrev c hc ht hd
    unfold HighlitAll KeepsHighlightAll
    rw [← hiff]
    refine and_congr_right fun h => ?_
    exact highlitAll_iff_of_shows hrev hc run _ _ (fun c' hc' => hrun c' (List.mem_cons_of_mem _ hc'))
      (hshows h)

/-- What the first `redraw` finds. -/
def start (d : Display α) : Shot where
  chars _ := []
  lit _ _ := false
  offset := d.view.refreshOldOffset
  top := d.view.visLastScreenbegin

/-- **Runs.**  Along a run of the editor, from its first `redraw` on, the cells in reverse video are
those of the selection after each call exactly when each call keeps the highlight. -/
theorem highlitAll_iff (hrev : T.sgr T.plain escBoldText ≠ T.plain) {rows columns : Nat}
    (hc : 1 ≤ columns) (d : Display α) (full : Bool) (first : Ed) (run : List Draw)
    (hrun : ∀ c ∈ .redraw full first :: run,
      c.ed.rows = rows ∧ c.ed.columns = columns ∧ 1 ≤ c.ed.tabstop) :
    HighlitAll T d (.redraw full first :: run) ↔
      KeepsHighlightAll d.start (.redraw full first :: run) := by
  have hd : (d.clear T).Shows T rows columns (d.start.clear columns) := by
    refine ⟨fun li hli k hk => ?_, fun _ _ _ _ => rfl, rfl, rfl⟩
    simp [clear, Shot.clear, hk]
  have h := highlitAll_iff_of_shows hrev hc (.redraw full first :: run) (d.clear T) _ hrun hd
  -- the first call looks neither at the cells nor at the rows before it
  have hcolumns : first.columns = columns := (hrun _ (List.mem_cons_self ..)).2.1
  subst hcolumns
  exact h

end Display

/-! ## A selection of blanks -/

/-- A selection from `anchor` to `dot` in two lines, in a window of 3 rows and 12 columns. -/
def Ed.selecting (l l' : List UInt8) (anchor dot : Int) : Ed :=
  { showing (l ++ NL :: l' ++ [NL]) with
    textSize := 100
    rows := 4
    columns := 12
    dot := dot
    viVisual := true
    viVisualAnchor := some anchor }

namespace Display

/-- Without a selection no cell is in reverse video. -/
theorem not_highlit {d : Display α} {s : Ed} (li k : Nat) (hsel : s.selection = none)
    (hli : li < s.rows - 1) (hk : k < s.columns)
    (hcell : (d.cells li (k : Nat)).2 = T.sgr T.plain escBoldText) : ¬d.Highlit T s := by
  intro h
  obtain ⟨r, hr, -⟩ := (h li hli k hk).mp hcell
  cases hsel.symm.trans hr

/-- The selection grows by one char. -/
theorem highlitAll_grows :
    let s := selecting (str "abcd") (str "efgh") 1 2
    HighlitAll ansi (fresh s) [.redraw true s, .round s.refresh (s.typed (chr 'l'))] := by
  intro s
  have hrun : ∀ c ∈ [Draw.redraw true s, .round s.refresh (s.typed (chr 'l'))],
      c.ed.rows = 4 ∧ c.ed.columns = 12 ∧ 1 ≤ c.ed.tabstop := by decide +kernel
  apply (highlitAll_iff (by decide) (by decide) (fresh s) true s _ hrun).mpr
  decide +kernel

/-- The selected blanks at the end of a line are deleted: the span is invalidated in the line that
is left and in the next one, so that two of the blanks are not written again. -/
theorem blanks_stay_lit :
    let s := selecting (str "a   ") (str "bbbb") 1 3
    doCmd (chr 'x').toNat s.refresh = some (s.typed (chr 'x')) ∧
      ¬HighlitAll ansi (fresh s) [.redraw true s, .round s.refresh (s.typed (chr 'x'))] := by
  intro s
  constructor
  · obtain ⟨s', hs'⟩ := Option.isSome_iff_exists.mp
      (show (doCmd (chr 'x').toNat s.refresh).isSome by decide +kernel)
    rw [typed, hs']
    rfl
  · rintro ⟨-, h, -⟩
    exact not_highlit 0 2 (by decide +kernel) (by decide +kernel) (by decide +kernel)
      (by decide +kernel) h

end Display

end Evim
