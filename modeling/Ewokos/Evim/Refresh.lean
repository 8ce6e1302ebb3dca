import Ewokos.Evim.Onscreen

/-!
# evim: the virtual screen

`refresh` of `bin/evim/vim_term.c` with the selection masks, over the virtual screen `screen[]`.

* `rowSlice` — the columns of one row that are repainted, if any: the difference scans and the
  forced redraws.
* `refreshRows`, `View.refresh` — the rows of the screen, and the function.
* `rowSlice_spec` — a row that is not repainted is as it should be, and a slice covers every
  difference.

Main result: `refresh_exact`.
-/

set_option autoImplicit false

namespace Evim

open Cells

/-- The editor, the virtual screen, and what `refresh` remembers of its last call. -/
structure View where
  ed : Ed
  screen : Memory UInt8
  visLastScreenbegin : Option Int
  refreshOldOffset : Int

/-- A call of `syntax_write_slice`: the row, the formatted line, its columns `cs` to `ce`, and the
selection mask. -/
structure Slice where
  row : Nat
  out : List UInt8
  cs : Int
  ce : Int
  sel : Option (Int → Bool)

namespace Ed

/-! ## The selection masks -/

/-- `vis_advance`. -/
def visAdvance (s : Ed) (c : UInt8) (co : Int) : Int :=
  if c = 9 then s.nextTabstop co
  else if 128 ≤ c ∧ !isAsciionly c.toNat then co + 1
  else if c < 32 ∨ c = 127 then co + 2
  else co + 1

/-- The loop of `visual_span_mask`: the columns from `co` on that are selected. -/
def spanLoop (s : Ed) (lo hi : Int) : Nat → Int → Int → (Int → Bool) → (Int → Bool)
  | 0, _, _, sel => sel
  | fuel + 1, p, co, sel =>
    if p < s.end_ then
      let inside : Bool := p ≥ lo ∧ p ≤ hi
      if s.mem p = NL then
        -- a selected newline shows one phantom cell past EOL
        fun sc => sel sc || (inside && sc == co - s.offset && 0 ≤ sc && sc < s.columns)
      else
        let next := s.visAdvance (s.mem p) co
        spanLoop s lo hi fuel (p + 1) next fun sc =>
          sel sc || (inside && co - s.offset ≤ sc && sc < next - s.offset && 0 ≤ sc &&
            sc < s.columns)
    else sel

/-- `visual_span_mask`. -/
def visualSpanMask (s : Ed) (lineStart lo hi : Int) : Int → Bool :=
  s.spanLoop lo hi (s.end_ - lineStart).toNat lineStart 0 fun _ => false

/-- `visual_line_mask`. -/
def visualLineMask (s : Ed) (lineStart : Int) : Int → Bool :=
  let anchor := s.viVisualAnchor.getD 0
  if s.dot < anchor then s.visualSpanMask lineStart s.dot anchor
  else s.visualSpanMask lineStart anchor s.dot

/-! ## One row -/

/-- The forward scan: whether a difference was found, and `cs`. -/
def scanForward (out : List UInt8) (sp : Int → UInt8) (ce : Int) : Nat → Int → Bool × Int
  | 0, cs => (false, cs)
  | fuel + 1, cs =>
    if cs ≤ ce then
      if out.getD cs.toNat 0 ≠ sp cs then (true, cs) else scanForward out sp ce fuel (cs + 1)
    else (false, cs)

/-- The backward scan: whether a difference was found, and `ce`. -/
def scanBackward (out : List UInt8) (sp : Int → UInt8) (cs : Int) : Nat → Int → Bool × Int
  | 0, ce => (false, ce)
  | fuel + 1, ce =>
    if ce ≥ cs then
      if out.getD ce.toNat 0 ≠ sp ce then (true, ce) else scanBackward out sp cs fuel (ce - 1)
    else (false, ce)

/-- The columns of a row that are repainted. -/
def rowSlice (columns : Nat) (full offsetChanged : Bool) (out : List UInt8) (sp : Int → UInt8) :
    Option (Int × Int) :=
  let (changed, cs, ce) : Bool × Int × Int :=
    if full then (true, 0, columns - 1)
    else
      let (changed, cs) := scanForward out sp (columns - 1) columns 0
      let (changed', ce) := scanBackward out sp cs columns (columns - 1)
      -- if horz offset has changed, force a redraw
      (changed || changed' || offsetChanged, cs, ce)
  -- a sanity check of columns indexes; the second comparison is unsigned
  let cs := if cs < 0 then 0 else cs
  let ce : Int := if ce < 0 ∨ ce > columns - 1 then columns - 1 else ce
  let (cs, ce) : Int × Int := if cs > ce then (0, columns - 1) else (cs, ce)
  if changed then some (cs, ce) else none

/-! ## The rows -/

/-- The start of the line behind the one at `tp`. -/
def rowSkip (s : Ed) (tp : Int) : Int :=
  if tp < s.end_ then (memchr s.mem tp NL (s.end_ - tp).toNat).getD (s.end_ - 1) + 1 else tp

/-- Where the line of row `li` starts. -/
def rowStart (s : Ed) (tp : Int) : Nat → Int
  | 0 => tp
  | li + 1 => s.rowSkip (rowStart s tp li)

/-- The loop of `refresh` over the rows from `li` on. -/
def refreshRows (s : Ed) (full offsetChanged : Bool) :
    Nat → Nat → Int → Memory UInt8 → Memory UInt8 × List Slice
  | 0, _, _, screen => (screen, [])
  | n + 1, li, tp, screen =>
    let out := s.formatLine tp
    let sel := if s.viVisual then some (s.visualLineMask tp) else none
    let start : Int := li * s.columns
    match rowSlice s.columns full offsetChanged out (fun k => screen (start + k)) with
    | none => refreshRows s full offsetChanged n (li + 1) (s.rowSkip tp) screen
    | some (cs, ce) =>
      let copied := (out.drop cs.toNat).take (ce - cs + 1).toNat
      let (screen, slices) := refreshRows s full offsetChanged n (li + 1) (s.rowSkip tp)
        (memcpy screen (start + cs) copied)
      (screen, ⟨li, out, cs, ce, sel⟩ :: slices)

end Ed

/-- `refresh`, with the slices it writes. -/
def View.refresh (v : View) (full : Bool) : View × List Slice :=
  let s := v.ed.syncCursor v.ed.dot
  let full := full || (s.viVisual && some s.screenbegin != v.visLastScreenbegin)
  let (screen, slices) := s.refreshRows full (s.offset != v.refreshOldOffset) (s.rows - 1) 0
    s.screenbegin v.screen
  ({ ed := v.ed.refresh
     screen := screen
     visLastScreenbegin := if s.viVisual then some s.screenbegin else none
     refreshOldOffset := s.offset }, slices)

namespace Ed

/-! ## What is repainted -/

variable {columns : Nat} {full offsetChanged : Bool} {out : List UInt8} {sp : Int → UInt8}

/-- The forward scan stops at the first difference, or behind the last column. -/
theorem scanForward_spec (out : List UInt8) (sp : Int → UInt8) : ∀ (fuel : Nat) (cs ce : Int),
    ce - cs < fuel → cs ≤ ce + 1 →
    ∃ changed c, scanForward out sp ce fuel cs = (changed, c) ∧ cs ≤ c ∧ c ≤ ce + 1 ∧
      (∀ k, cs ≤ k → k < c → out.getD k.toNat 0 = sp k) ∧ (changed = true ↔ c ≤ ce) ∧
      (c ≤ ce → out.getD c.toNat 0 ≠ sp c)
  | 0, cs, ce, hf, h => by
    refine ⟨false, cs, rfl, Int.le_refl cs, h, fun k h₁ h₂ => by omega, ⟨fun hr => ?_, ?_⟩, ?_⟩
    · cases hr
    · omega
    · omega
  | fuel + 1, cs, ce, hf, h => by
    unfold scanForward
    by_cases hle : cs ≤ ce
    · rw [if_pos hle]
      by_cases hd : out.getD cs.toNat 0 ≠ sp cs
      · rw [if_pos hd]
        exact ⟨true, cs, rfl, Int.le_refl cs, h, fun k h₁ h₂ => by omega,
          ⟨fun _ => hle, fun _ => rfl⟩, fun _ => hd⟩
      · rw [if_neg hd]
        obtain ⟨changed, c, he, h₁, h₂, h₃, h₄, h₅⟩ := scanForward_spec out sp fuel
          (cs + 1) ce (by omega) (by omega)
        refine ⟨changed, c, he, by omega, h₂, fun k hk hk' => ?_, h₄, h₅⟩
        rcases Int.lt_or_eq_of_le hk with hk | rfl
        · exact h₃ k (by omega) hk'
        · exact not_not.mp hd
    · rw [if_neg hle]
      refine ⟨false, cs, rfl, Int.le_refl cs, h, fun k h₁ h₂ => by omega, ⟨fun hr => ?_, ?_⟩, ?_⟩
      · cases hr
      · exact fun hr => absurd hr hle
      · exact fun hr => absurd hr hle

/-- The backward scan stops at the last difference, or before the first column. -/
theorem scanBackward_spec (out : List UInt8) (sp : Int → UInt8) : ∀ (fuel : Nat) (cs ce : Int),
    ce - cs < fuel →
    ∃ changed c, scanBackward out sp cs fuel ce = (changed, c) ∧ c ≤ ce ∧
      (∀ k, c < k → k ≤ ce → out.getD k.toNat 0 = sp k) ∧ (changed = true ↔ cs ≤ c) ∧
      (cs ≤ c → out.getD c.toNat 0 ≠ sp c)
  | 0, cs, ce, hf => by
    refine ⟨false, ce, rfl, Int.le_refl ce, fun k h₁ h₂ => by omega, ⟨fun hr => ?_, ?_⟩, ?_⟩
    · cases hr
    · omega
    · omega
  | fuel + 1, cs, ce, hf => by
    unfold scanBackward
    by_cases hle : ce ≥ cs
    · rw [if_pos hle]
      by_cases hd : out.getD ce.toNat 0 ≠ sp ce
      · rw [if_pos hd]
        exact ⟨true, ce, rfl, Int.le_refl ce, fun k h₁ h₂ => by omega,
          ⟨fun _ => hle, fun _ => rfl⟩, fun _ => hd⟩
      · rw [if_neg hd]
        obtain ⟨changed, c, he, h₁, h₂, h₃, h₄⟩ := scanBackward_spec out sp fuel cs
          (ce - 1) (by omega)
        refine ⟨changed, c, he, by omega, fun k hk hk' => ?_, h₃, h₄⟩
        rcases Int.lt_or_eq_of_le hk' with hk' | rfl
        · exact h₂ k hk (by omega)
        · exact not_not.mp hd
    · rw [if_neg hle]
      refine ⟨false, ce, rfl, Int.le_refl ce, fun k h₁ h₂ => by omega, ⟨fun hr => ?_, ?_⟩, ?_⟩
      · cases hr
      · exact fun hr => absurd hr hle
      · exact fun hr => absurd hr hle

/-- The chars of the row that differ from the virtual screen. -/
def Differs (columns : Nat) (out : List UInt8) (sp : Int → UInt8) (k : Int) : Prop :=
  0 ≤ k ∧ k < columns ∧ out.getD k.toNat 0 ≠ sp k

/-- A forced redraw repaints the whole row. -/
theorem rowSlice_full :
    rowSlice columns true offsetChanged out sp = some (0, (columns : Int) - 1) := by
  unfold rowSlice
  dsimp only
  rw [if_pos rfl]
  dsimp only
  rw [if_neg (Int.lt_irrefl 0), ite_self, ite_self]
  rfl

/-- A row without a difference is repainted as a whole if the offset has changed, and not at all if
it has not. -/
theorem rowSlice_same (h : ∀ k, ¬Differs columns out sp k) :
    rowSlice columns false offsetChanged out sp =
      if offsetChanged then some (0, (columns : Int) - 1) else none := by
  obtain ⟨changed, cs, he, h₁, h₂, -, h₄, h₅⟩ := scanForward_spec out sp columns 0
    ((columns : Int) - 1) (by omega) (by omega)
  obtain ⟨changed', ce, he', h₁', -, h₃', h₄'⟩ := scanBackward_spec out sp columns cs
    ((columns : Int) - 1) (by omega)
  have hcs : ¬cs ≤ (columns : Int) - 1 := fun hle => h cs ⟨h₁, by omega, h₅ hle⟩
  have hce : ¬cs ≤ ce := by omega
  have hf : changed = false := by
    rw [← Bool.not_eq_true, h₄]
    exact hcs
  have hf' : changed' = false := by
    rw [← Bool.not_eq_true, h₃']
    exact hce
  unfold rowSlice
  dsimp only
  rw [if_neg Bool.false_ne_true, he]
  dsimp only
  rw [he', hf, hf']
  dsimp only
  rw [if_neg (show ¬cs < 0 by omega)]
  have hgt : cs > if ce < 0 ∨ ce > (columns : Int) - 1 then (columns : Int) - 1 else ce := by
    split <;> omega
  rw [if_pos hgt]
  rfl

/-- A row with differences is repainted from the first to the last of them. -/
theorem rowSlice_diff (offsetChanged : Bool) {k : Int} (h : Differs columns out sp k) :
    ∃ cs ce, rowSlice columns false offsetChanged out sp = some (cs, ce) ∧
      Differs columns out sp cs ∧ Differs columns out sp ce ∧
      ∀ k, Differs columns out sp k → cs ≤ k ∧ k ≤ ce := by
  obtain ⟨changed, cs, he, h₁, h₂, h₃, h₄, h₅⟩ := scanForward_spec out sp columns 0
    ((columns : Int) - 1) (by omega) (by omega)
  obtain ⟨changed', ce, he', h₁', h₂', h₃', h₄'⟩ := scanBackward_spec out sp columns cs
    ((columns : Int) - 1) (by omega)
  have hcover : ∀ k, Differs columns out sp k → cs ≤ k ∧ k ≤ ce := by
    rintro k ⟨hk₁, hk₂, hne⟩
    constructor
    · by_contra hlt
      exact hne (h₃ k hk₁ (by omega))
    · by_contra hlt
      exact hne (h₂' k (by omega) (by omega))
  obtain ⟨hlow, hhigh⟩ := hcover k h
  have hk := h.2.1
  refine ⟨cs, ce, ?_, ⟨h₁, by omega, h₅ (by omega)⟩, ⟨by omega, by omega, h₄' (by omega)⟩, hcover⟩
  have ht : changed = true := h₄.mpr (by omega)
  unfold rowSlice
  dsimp only
  rw [if_neg Bool.false_ne_true, he]
  dsimp only
  rw [he', ht]
  dsimp only
  rw [if_neg (show ¬cs < 0 by omega), if_neg (show ¬(ce < 0 ∨ ce > (columns : Int) - 1) by omega),
    if_neg (show ¬cs > ce by omega)]
  rfl

/-! ## All rows -/

/-- The cells of row `li`, from column `k` on, are where no later row is. -/
theorem row_disjoint {columns : Nat} {li lj : Nat} {k m : Int} (h : li < lj) (hk : k < columns)
    (hm : 0 ≤ m) : (li : Int) * columns + k < lj * columns + m := by
  have : ((li : Int) + 1) * columns ≤ lj * columns :=
    Int.mul_le_mul_of_nonneg_right (by omega) (by omega)
  have hd : ((li : Int) + 1) * columns = li * columns + columns := by ring
  omega

/-- The slice of a row is part of it and has every difference. -/
theorem rowSlice_spec (hc : 1 ≤ columns) {cs ce : Int}
    (h : rowSlice columns full offsetChanged out sp = some (cs, ce)) :
    0 ≤ cs ∧ cs ≤ ce ∧ ce < columns ∧ ∀ k, Differs columns out sp k → cs ≤ k ∧ k ≤ ce := by
  have hall : some ((0 : Int), (columns : Int) - 1) = some (cs, ce) → 0 ≤ cs ∧ cs ≤ ce ∧
      ce < columns ∧ ∀ k, Differs columns out sp k → cs ≤ k ∧ k ≤ ce := by
    intro e
    cases e
    refine ⟨Int.le_refl 0, by omega, by omega, fun k hk => ⟨hk.1, ?_⟩⟩
    have := hk.2.1
    omega
  cases full with
  | true => exact hall (rowSlice_full.symm.trans h)
  | false =>
    by_cases hd : ∃ k, Differs columns out sp k
    · obtain ⟨k, hk⟩ := hd
      obtain ⟨cs', ce', he, hcs, hce, hspec⟩ := rowSlice_diff offsetChanged hk
      cases he.symm.trans h
      exact ⟨hcs.1, (hspec cs hcs).2, hce.2.1, hspec⟩
    · rw [rowSlice_same fun k hk => hd ⟨k, hk⟩] at h
      split at h
      · exact hall h
      · cases h

/-- A row that is not repainted has no difference. -/
theorem rowSlice_none (h : rowSlice columns full offsetChanged out sp = none) (k : Int) :
    ¬Differs columns out sp k := by
  intro hk
  cases full with
  | true => cases rowSlice_full.symm.trans h
  | false =>
    obtain ⟨cs, ce, he, -⟩ := rowSlice_diff offsetChanged hk
    cases he.symm.trans h

/-- The scans look at the columns of the row only. -/
theorem scanForward_congr {sp' : Int → UInt8} (h : ∀ k : Int, 0 ≤ k → k < columns → sp k = sp' k) :
    ∀ (fuel : Nat) (cs : Int), 0 ≤ cs → scanForward out sp (columns - 1) fuel cs =
      scanForward out sp' (columns - 1) fuel cs
  | 0, _, _ => rfl
  | fuel + 1, cs, hcs => by
    rw [scanForward, scanForward, scanForward_congr h fuel (cs + 1) (by omega)]
    split
    · rw [h cs hcs (by omega)]
    · rfl

theorem scanBackward_congr {sp' : Int → UInt8} (h : ∀ k : Int, 0 ≤ k → k < columns → sp k = sp' k)
    {cs : Int} (hcs : 0 ≤ cs) : ∀ (fuel : Nat) (ce : Int), ce < columns →
      scanBackward out sp cs fuel ce = scanBackward out sp' cs fuel ce
  | 0, _, _ => rfl
  | fuel + 1, ce, hce => by
    rw [scanBackward, scanBackward, scanBackward_congr h hcs fuel (ce - 1) (by omega)]
    split
    · rw [h ce (by omega) hce]
    · rfl

theorem rowSlice_congr {sp' : Int → UInt8} (h : ∀ k : Int, 0 ≤ k → k < columns → sp k = sp' k) :
    rowSlice columns full offsetChanged out sp = rowSlice columns full offsetChanged out sp' := by
  obtain ⟨changed, cs, he, hcs, -⟩ := scanForward_spec out sp' columns 0 ((columns : Int) - 1)
    (by omega) (by omega)
  unfold rowSlice
  rw [scanForward_congr h columns 0 (Int.le_refl 0), he]
  dsimp only
  rw [scanBackward_congr h hcs columns _ (by omega)]

theorem rowStart_skip (s : Ed) (tp : Int) : ∀ li, s.rowStart (s.rowSkip tp) li =
    s.rowStart tp (li + 1)
  | 0 => rfl
  | li + 1 => by
    rw [rowStart, rowStart_skip s tp li]
    rfl

/-- The virtual screen in row `li`. -/
def screenRow (s : Ed) (screen : Memory UInt8) (li : Nat) : Int → UInt8 :=
  fun k => screen (li * s.columns + k)

/-- What the copy of a slice leaves in the rows. -/
theorem copy_slice (s : Ed) (screen : Memory UInt8) (li : Nat) {out : List UInt8} {cs ce : Int}
    (h₀ : 0 ≤ cs) (h₁ : cs ≤ ce) (h₂ : ce < s.columns) (hout : s.columns ≤ out.length) :
    let screen' := memcpy screen (li * s.columns + cs)
      ((out.drop cs.toNat).take (ce - cs + 1).toNat)
    (∀ k : Int, 0 ≤ k → k < s.columns → s.screenRow screen' li k =
      if cs ≤ k ∧ k ≤ ce then out.getD k.toNat 0 else s.screenRow screen li k) ∧
    ∀ lj ≠ li, ∀ k : Int, 0 ≤ k → k < s.columns → s.screenRow screen' lj k = s.screenRow screen lj k := by
  intro screen'
  have hlen : ((out.drop cs.toNat).take (ce - cs + 1).toNat).length = (ce - cs + 1).toNat := by
    rw [List.length_take, List.length_drop]
    omega
  constructor
  · intro k hk₀ hk₁
    unfold screenRow
    split
    · rename_i hin
      have h := memcpy_in screen (li * s.columns + cs)
        ((out.drop cs.toNat).take (ce - cs + 1).toNat) (k - cs).toNat (by rw [hlen]; omega)
      rw [show (li : Int) * s.columns + cs + ((k - cs).toNat : Int) = li * s.columns + k by omega,
        List.getElem_take, List.getElem_drop] at h
      refine h.trans ?_
      rw [List.getD_eq_getElem?_getD, List.getElem?_eq_getElem (by omega), Option.getD_some]
      congr 1
      omega
    · rename_i hout
      exact memcpy_out screen _ (by rw [hlen]; omega)
  · intro lj hne k hk₀ hk₁
    unfold screenRow
    refine memcpy_out screen _ ?_
    rw [hlen]
    rcases Nat.lt_or_gt_of_ne hne with hlt | hlt
    · left
      have := row_disjoint hlt hk₁ h₀
      omega
    · right
      have := row_disjoint (m := k) hlt h₂ hk₀
      omega

/-- The rows above are left alone. -/
theorem refreshRows_above (s : Ed) (hc : 1 ≤ s.columns) (full offsetChanged : Bool) :
    ∀ {n li : Nat} {tp : Int} {screen : Memory UInt8} {lj : Nat} {k : Int}, lj < li → 0 ≤ k →
      k < s.columns → s.screenRow (s.refreshRows full offsetChanged n li tp screen).1 lj k =
        s.screenRow screen lj k
  | 0, _, _, _, _, _, _, _, _ => rfl
  | n + 1, li, tp, screen, lj, k, h, hk₀, hk₁ => by
    unfold refreshRows
    dsimp only
    split
    · exact refreshRows_above s hc full offsetChanged (by omega) hk₀ hk₁
    · rename_i cs ce hr
      obtain ⟨h₁, h₂, h₃, -⟩ := rowSlice_spec hc hr
      have hcopy := (copy_slice s screen li h₁ h₂ h₃ (s.columns_le_formatLine tp)).2 lj (by omega)
        k hk₀ hk₁
      exact (refreshRows_above s hc full offsetChanged (by omega) hk₀ hk₁).trans hcopy

/-- Behind the loop every row of the virtual screen is the line drawn in it. -/
theorem refreshRows_exact (s : Ed) (hc : 1 ≤ s.columns) (full offsetChanged : Bool) :
    ∀ {n li : Nat} {tp : Int} {screen : Memory UInt8} {j : Nat} {k : Int}, j < n → 0 ≤ k →
      k < s.columns → s.screenRow (s.refreshRows full offsetChanged n li tp screen).1 (li + j) k =
        (s.formatLine (s.rowStart tp j)).getD k.toNat 0
  | 0, _, _, _, _, _, h, _, _ => absurd h (Nat.not_lt_zero _)
  | n + 1, li, tp, screen, j, k, h, hk₀, hk₁ => by
    unfold refreshRows
    dsimp only
    cases j with
    | zero =>
      -- the row itself: what is not copied was right before
      split
      · rename_i hr
        refine (refreshRows_above s hc full offsetChanged (by omega) hk₀ hk₁).trans ?_
        exact (not_not.mp fun hne => rowSlice_none hr k ⟨hk₀, hk₁, hne⟩).symm
      · rename_i cs ce hr
        obtain ⟨h₁, h₂, h₃, h₄⟩ := rowSlice_spec hc hr
        refine (refreshRows_above s hc full offsetChanged (by omega) hk₀ hk₁).trans ?_
        rw [Nat.add_zero, (copy_slice s screen li h₁ h₂ h₃ (s.columns_le_formatLine tp)).1 k hk₀ hk₁]
        split
        · rfl
        · rename_i hn
          exact (not_not.mp fun hne => hn (h₄ k ⟨hk₀, hk₁, hne⟩)).symm
    | succ j =>
      rw [show li + (j + 1) = li + 1 + j by omega, ← rowStart_skip]
      split
      · exact refreshRows_exact s hc full offsetChanged (by omega) hk₀ hk₁
      · exact refreshRows_exact s hc full offsetChanged (by omega) hk₀ hk₁

/-- Every difference of a row is in a slice that is written. -/
theorem refreshRows_covers (s : Ed) (hc : 1 ≤ s.columns) (full offsetChanged : Bool) :
    ∀ {n li : Nat} {tp : Int} {screen : Memory UInt8} {j : Nat} {k : Int}, j < n →
      Differs s.columns (s.formatLine (s.rowStart tp j)) (s.screenRow screen (li + j)) k →
      ∃ w ∈ (s.refreshRows full offsetChanged n li tp screen).2, w.row = li + j ∧
        w.out = s.formatLine (s.rowStart tp j) ∧ w.cs ≤ k ∧ k ≤ w.ce
  | 0, _, _, _, _, _, h, _ => absurd h (Nat.not_lt_zero _)
  | n + 1, li, tp, screen, j, k, h, hd => by
    unfold refreshRows
    dsimp only
    cases j with
    | zero =>
      split
      · rename_i hr
        exact absurd hd (rowSlice_none hr k)
      · rename_i cs ce hr
        obtain ⟨h₁, h₂⟩ := (rowSlice_spec hc hr).2.2.2 k hd
        exact ⟨_, List.mem_cons_self, rfl, rfl, h₁, h₂⟩
    | succ j =>
      rw [show li + (j + 1) = li + 1 + j by omega, ← rowStart_skip] at hd ⊢
      split
      · exact refreshRows_covers s hc full offsetChanged (by omega) hd
      · rename_i cs ce hr
        obtain ⟨h₁, h₂, h₃, -⟩ := rowSlice_spec hc hr
        have hcopy := (copy_slice s screen li h₁ h₂ h₃ (s.columns_le_formatLine tp)).2
          (li + 1 + j) (by omega) k hd.1 hd.2.1
        obtain ⟨w, hw, hrest⟩ := refreshRows_covers s hc full offsetChanged (j := j) (n := n)
          (by omega) ⟨hd.1, hd.2.1, fun e => hd.2.2 (e.trans hcopy)⟩
        exact ⟨w, List.mem_cons_of_mem _ hw, hrest⟩

/-- Rows without a difference are not written. -/
theorem refreshRows_same (s : Ed) : ∀ {n li : Nat} {tp : Int} {screen : Memory UInt8},
    (∀ j < n, ∀ k, ¬Differs s.columns (s.formatLine (s.rowStart tp j))
      (s.screenRow screen (li + j)) k) →
    (s.refreshRows false false n li tp screen).2 = []
  | 0, _, _, _, _ => rfl
  | n + 1, li, tp, screen, h => by
    unfold refreshRows
    dsimp only
    have h₀ : rowSlice s.columns false false (s.formatLine tp)
        (fun k => screen (li * s.columns + k)) = none := rowSlice_same fun k => h 0 (by omega) k
    rw [h₀]
    refine refreshRows_same s fun j hj k => ?_
    have := h (j + 1) (by omega) k
    rwa [show li + (j + 1) = li + 1 + j by omega, ← rowStart_skip] at this

/-! ## The same state again -/

/-- Two states that draw the same lines. -/
structure SameLines (s s' : Ed) : Prop where
  buf : s'.toBuf = s.toBuf
  tabstop : s'.tabstop = s.tabstop
  columns : s'.columns = s.columns
  offset : s'.offset = s.offset

variable {s s' : Ed}

theorem draw_congr (h : SameLines s s') (d : Drawing) (p : Int) : s'.draw d p = s.draw d p := by
  have hcells : ∀ co, s'.byteCells p co = s.byteCells p co := by
    intro co
    unfold byteCells
    rw [h.buf, h.tabstop]
  have hdiscard : ∀ d, s'.discard d = s.discard d := by
    intro d
    unfold Ed.discard
    rw [h.tabstop]
  unfold draw
  dsimp only
  rw [hcells, hdiscard, h.buf]

theorem formatLoop_congr (h : SameLines s s') : ∀ (fuel : Nat) (src : Int) (c : UInt8)
    (d : Drawing), s'.formatLoop fuel src c d = s.formatLoop fuel src c d
  | 0, _, _, _ => rfl
  | fuel + 1, src, c, d => by
    have hdiscard : ∀ d, s'.discard d = s.discard d := by
      intro d
      unfold Ed.discard
      rw [h.tabstop]
    rw [formatLoop, formatLoop, formatLoop_congr h fuel, formatLoop_congr h fuel,
      draw_congr h, hdiscard, h.buf, h.tabstop, h.columns]

theorem formatLine_congr (h : SameLines s s') (src : Int) : s'.formatLine src = s.formatLine src := by
  simp only [formatLine, formatCells, formatLoop_congr h, h.buf, h.columns, h.offset]

theorem rowStart_congr (h : s'.toBuf = s.toBuf) (tp : Int) :
    ∀ li, s'.rowStart tp li = s.rowStart tp li
  | 0 => rfl
  | li + 1 => by
    simp only [rowStart, rowSkip, rowStart_congr h tp li, h]

/-- `sync_cursor` in the state it has left moves neither the screen nor the offset. -/
theorem syncCursor_again {d : Int} (h₀ : s.text ≤ d) (h₁ : d < s.end_) (hr : 2 ≤ s.rows)
    (hc : 1 ≤ s.columns) (htop : s.text ≤ s.screenbegin) (hnl : s.mem (s.end_ - 1) = NL)
    (index : Option Int) :
    let t : Ed := { s.syncCursor d with cindex := index }
    (t.syncCursor d).screenbegin = t.screenbegin ∧ (t.syncCursor d).offset = t.offset := by
  intro t
  obtain ⟨hbuf, htab, hcolumns, hrows, hmode, -⟩ := syncCursor_same s d
  replace hbuf : t.toBuf = s.toBuf := hbuf
  replace hrows : t.rows = s.rows := hrows
  replace hcolumns : t.columns = s.columns := hcolumns
  have hcol : t.cursorColumn d = s.cursorColumn d := by
    unfold cursorColumn
    rw [colLoop_congr hbuf htab hmode, hbuf]
  obtain ⟨hsb, hoff, -⟩ := syncCursor_settled h₀ h₁ hr htop
  replace hsb : t.screenbegin = (s.scrolled d).screenbegin := hsb
  replace hoff : t.offset = _ := hoff
  have hon := scrolled_onScreen h₀ h₁ hr htop
  have hterm : s.mem (s.endLine d) = NL := by
    rcases s.endLine_stop h₁ with e | e
    · exact e
    · rw [e]
      exact hnl
  rw [if_pos hterm, ← hsb] at hon
  have hb := Buf.LineStart.beginLine s.toBuf h₀
  have hlt : s.beginLine d < s.end_ := Int.lt_of_le_of_lt (s.beginLine_le d) h₁
  -- the line is on the screen, so there is nothing to scroll
  have hstay : t.scrolled d = t := by
    have hend := (endScreen_lt (s := t) (b := s.beginLine d) (hbuf ▸ hb) (hbuf ▸ hlt) hon.le
      (hbuf ▸ hon.text_le)).not.mpr (by
        have := hon.rows
        rw [hbuf, hrows]
        omega)
    have hle := hon.le
    unfold scrolled
    dsimp only
    rw [hbuf, if_neg (by omega), if_neg hend]
  obtain ⟨hsb', hoff', -⟩ := syncCursor_settled (s := t) (d := d) (hbuf ▸ h₀) (hbuf ▸ h₁)
    (hrows ▸ hr) (hbuf ▸ hon.text_le)
  refine ⟨by rw [hsb', hstay], ?_⟩
  rw [hoff', hcol, hbuf]
  by_cases htab₀ : d = s.beginLine d ∧ s.mem d = 9
  · rw [if_pos htab₀] at hoff ⊢
    exact hoff.symm
  · rw [if_neg htab₀] at hoff ⊢
    obtain ⟨h₂, h₃⟩ := shownOffset_shows hc (s.cursorColumn d)
    rw [← hoff, ← hcolumns] at h₃
    rw [← hoff] at h₂
    exact shownOffset_eq h₂ h₃

theorem refresh_cindex (s : Ed) : ∃ index, s.refresh = { s.syncCursor s.dot with cindex := index } := by
  unfold refresh
  dsimp only
  split
  · exact ⟨(s.syncCursor s.dot).cindex, rfl⟩
  · exact ⟨_, rfl⟩

/-- The line that `refresh` draws in row `li`. -/
def shownLine (s : Ed) (li : Nat) : List UInt8 :=
  let t := s.syncCursor s.dot
  t.formatLine (t.rowStart t.screenbegin li)

/-- The state that `refresh` leaves is drawn in the same way. -/
theorem refresh_again (h₀ : s.text ≤ s.dot) (h₁ : s.dot < s.end_) (hr : 2 ≤ s.rows)
    (hc : 1 ≤ s.columns) (htop : s.text ≤ s.screenbegin) (hnl : s.mem (s.end_ - 1) = NL) :
    let t := s.syncCursor s.dot
    let u := s.refresh.syncCursor s.refresh.dot
    SameLines t u ∧ u.screenbegin = t.screenbegin ∧ u.rows = t.rows ∧ u.viVisual = t.viVisual := by
  intro t u
  obtain ⟨index, hindex⟩ := refresh_cindex s
  obtain ⟨htop', hoff'⟩ := syncCursor_again h₀ h₁ hr hc htop hnl index
  have hdot : s.refresh.dot = s.dot := by
    rw [hindex]
    exact (syncCursor_same s s.dot).2.2.2.2.2.1
  have hu : u = ({ t with cindex := index } : Ed).syncCursor s.dot := by
    show s.refresh.syncCursor s.refresh.dot = _
    rw [hdot, hindex]
  obtain ⟨hbuf, htab, hcolumns, hrows, -, -, hvis⟩ := syncCursor_same
    ({ t with cindex := index } : Ed) s.dot
  rw [hu]
  exact ⟨⟨hbuf, htab, hcolumns, hoff'⟩, htop', hrows, hvis⟩

theorem shownLine_refresh (h₀ : s.text ≤ s.dot) (h₁ : s.dot < s.end_) (hr : 2 ≤ s.rows)
    (hc : 1 ≤ s.columns) (htop : s.text ≤ s.screenbegin) (hnl : s.mem (s.end_ - 1) = NL)
    (li : Nat) : s.refresh.shownLine li = s.shownLine li := by
  obtain ⟨hsame, htop', -⟩ := refresh_again h₀ h₁ hr hc htop hnl
  unfold shownLine
  dsimp only
  rw [formatLine_congr hsame, rowStart_congr hsame.buf, htop']

end Ed

open Ed

/-- A `refresh` of the state and the screen that a `refresh` has left writes nothing. -/
theorem refresh_settled {v : View} {full : Bool} :
    let s := v.ed.syncCursor v.ed.dot
    let r := v.refresh full
    let u := r.1.ed.syncCursor r.1.ed.dot
    SameLines s u → u.screenbegin = s.screenbegin → u.viVisual = s.viVisual →
    (∀ j < u.rows - 1, ∀ k : Int, 0 ≤ k → k < s.columns → s.screenRow r.1.screen j k =
      (s.formatLine (s.rowStart s.screenbegin j)).getD k.toNat 0) →
    (r.1.refresh false).2 = [] := by
  intro s r u hsame htop hvis hexact
  have hfull : (false || (u.viVisual && some u.screenbegin != r.1.visLastScreenbegin)) = false := by
    have hlast : r.1.visLastScreenbegin = if s.viVisual then some s.screenbegin else none := rfl
    rw [hlast, hvis, htop]
    cases hv : s.viVisual with
    | false => rfl
    | true => simp
  have hoffset : (u.offset != r.1.refreshOldOffset) = false := by
    have hold : r.1.refreshOldOffset = s.offset := rfl
    rw [hold, hsame.offset]
    simp
  have hsecond : (r.1.refresh false).2 = (u.refreshRows
      (false || (u.viVisual && some u.screenbegin != r.1.visLastScreenbegin))
      (u.offset != r.1.refreshOldOffset) (u.rows - 1) 0 u.screenbegin r.1.screen).2 := rfl
  rw [hsecond, hfull, hoffset]
  refine refreshRows_same u fun j hj k hd => ?_
  obtain ⟨hk₀, hk₁, hne⟩ := hd
  rw [Nat.zero_add] at hne
  apply hne
  rw [formatLine_congr hsame, rowStart_congr hsame.buf, htop]
  have h := hexact j hj k hk₀ (hsame.columns ▸ hk₁)
  rw [← h]
  show _ = r.1.screen (j * u.columns + k)
  rw [hsame.columns]
  rfl

/-- **The virtual screen is exact.**  Behind a `refresh` every row of `screen[]` is what
`format_line` draws for its line, every column that differed before is in a slice that was written,
and another `refresh` of the same state writes nothing. -/
theorem refresh_exact (v : View) (full : Bool) (h₀ : v.ed.text ≤ v.ed.dot)
    (h₁ : v.ed.dot < v.ed.end_) (hnl : v.ed.mem (v.ed.end_ - 1) = NL) (hr : 2 ≤ v.ed.rows)
    (hc : 2 ≤ v.ed.columns) (htop : v.ed.text ≤ v.ed.screenbegin) :
    let r := v.refresh full
    let line := fun li => r.1.ed.formatLine (r.1.ed.rowStart r.1.ed.screenbegin li)
    (∀ li < v.ed.rows - 1, ∀ k : Int, 0 ≤ k → k < v.ed.columns →
      r.1.screen (li * v.ed.columns + k) = (line li).getD k.toNat 0) ∧
    (∀ li < v.ed.rows - 1, ∀ k : Int, 0 ≤ k → k < v.ed.columns →
      v.screen (li * v.ed.columns + k) ≠ (line li).getD k.toNat 0 →
      ∃ w ∈ r.2, w.row = li ∧ w.out = line li ∧ w.cs ≤ k ∧ k ≤ w.ce) ∧
    (r.1.refresh false).2 = [] := by
  intro r line
  obtain ⟨index, hindex⟩ := refresh_cindex v.ed
  obtain ⟨-, -, hcolumns, hrows, -⟩ := syncCursor_same v.ed v.ed.dot
  -- the state that was drawn, and the one that is left
  let s := v.ed.syncCursor v.ed.dot
  have he : r.1.ed = { s with cindex := index } := hindex
  have hline : ∀ li, line li = v.ed.shownLine li := by
    intro li
    have hsame : SameLines s r.1.ed := by
      rw [he]
      exact ⟨rfl, rfl, rfl, rfl⟩
    have htop : r.1.ed.screenbegin = s.screenbegin := by rw [he]
    show r.1.ed.formatLine (r.1.ed.rowStart r.1.ed.screenbegin li) = _
    rw [formatLine_congr hsame, rowStart_congr hsame.buf, htop]
    rfl
  replace hcolumns : s.columns = v.ed.columns := hcolumns
  replace hrows : s.rows = v.ed.rows := hrows
  have hexact : ∀ li < v.ed.rows - 1, ∀ k : Int, 0 ≤ k → k < v.ed.columns →
      r.1.screen (li * v.ed.columns + k) = (line li).getD k.toNat 0 := by
    intro li hli k hk₀ hk₁
    rw [hline, ← hcolumns]
    have h : s.screenRow r.1.screen (0 + li) k = _ := refreshRows_exact s (by omega)
      (full || (s.viVisual && some s.screenbegin != v.visLastScreenbegin))
      (s.offset != v.refreshOldOffset) (show li < s.rows - 1 by omega) hk₀ (by omega)
    rw [Nat.zero_add] at h
    exact h
  refine ⟨hexact, fun li hli k hk₀ hk₁ hne => ?_, ?_⟩
  · rw [hline] at hne ⊢
    have hd : Differs s.columns (s.formatLine (s.rowStart s.screenbegin li))
        (s.screenRow v.screen (0 + li)) k := by
      rw [Nat.zero_add]
      refine ⟨hk₀, by omega, fun h => hne ?_⟩
      rw [← hcolumns]
      exact h.symm
    obtain ⟨w, hw, hrow, hrest⟩ := refreshRows_covers s (by omega)
      (full || (s.viVisual && some s.screenbegin != v.visLastScreenbegin))
      (s.offset != v.refreshOldOffset) (n := s.rows - 1) (by omega) hd
    exact ⟨w, hw, by omega, hrest⟩
  · -- the state and the screen are those of the first call, so no row differs
    obtain ⟨hsame, htop', hrows', hvis⟩ := refresh_again h₀ h₁ hr (by omega) htop hnl
    refine refresh_settled (v := v) hsame htop' hvis fun j hj k hk₀ hk₁ => ?_
    replace hj : j < v.ed.rows - 1 := by
      rw [← hrows, ← hrows']
      exact hj
    replace hk₁ : k < v.ed.columns := hcolumns ▸ hk₁
    have h := hexact j hj k hk₀ hk₁
    rw [hline, ← hcolumns] at h
    exact h

/-- An `a` drawn on a blank virtual screen. -/
theorem refresh_exact_blank :
    let r := (View.mk (showing [97, NL]) (fun _ => 32) none 0).refresh false
    r.1.screen 0 = 97 ∧ (r.1.refresh false).2 = [] := by
  obtain ⟨v, hv⟩ : ∃ v, View.mk (showing [97, NL]) (fun _ => 32) none 0 = v := ⟨_, rfl⟩
  have hed : v.ed = showing [97, NL] := by rw [← hv]
  rw [hv]
  obtain ⟨hexact, -, h⟩ := refresh_exact v false (by rw [hed]; decide) (by rw [hed]; decide)
    (by rw [hed]; decide) (by rw [hed]; decide) (by rw [hed]; decide) (by rw [hed]; decide)
  refine ⟨?_, h⟩
  have h₀ := hexact 0 (by rw [hed]; decide) 0 (le_refl 0) (by rw [hed]; decide)
  simp only [Nat.cast_zero, Int.zero_mul, Int.zero_add] at h₀
  rw [h₀, ← hv]
  decide +kernel

end Evim
