import Ewokos.Evim.Refresh
import Ewokos.Evim.Syntax

/-!
# evim: what the terminal shows

`syntax_write_slice` of `bin/evim/vim_syntax.c`, the escape sequences and chars it puts out, and a
terminal that keeps each written cell with the graphic rendition of that moment.

* `writeLoop_cells` — what a slice leaves in the cells, and that it ends with the plain rendition.
* `refreshRows_cells` — what `refresh` leaves in the cells.
* `rowCells_iff` — a row shows its chars in their colors exactly when the colors outlive the change
  of the row (`LooksKept`).
-/

set_option autoImplicit false

namespace Evim

open Cells
open CString hiding strchr

/-! ## `syntax_write_slice` -/

/-- A piece of the output. -/
inductive Out where
  | sequence (bytes : List UInt8)
  | char (c : UInt8)
  deriving DecidableEq, Repr

/-- `ESC_NORM_TEXT`. -/
def escNormText : List UInt8 := 27 :: str "[m"

/-- `ESC_BOLD_TEXT`. -/
def escBoldText : List UInt8 := 27 :: str "[7m"

/-- The loop of `syntax_write_slice` over `n` columns from `i` on.  `cur` is `none` for -1. -/
def writeLoop (colored : Option (List Color)) (vline : List UInt8) (sel : Option (Int → Bool)) :
    Nat → Nat → Option Color → Bool → List Out
  | 0, _, cur, curSel =>
    if curSel ∨ (cur ≠ none ∧ cur ≠ some .default) then [.sequence escNormText] else []
  | n + 1, i, cur, curSel =>
    let s := sel.elim false (· i)
    -- reset color along with standout, and force color re-emit
    let (standout, cur) : List Out × Option Color :=
      if s ≠ curSel then
        (.sequence escNormText :: (if s then [.sequence escBoldText] else []), none)
      else ([], cur)
    let (color, cur) : List Out × Option Color :=
      match colored with
      | some col =>
        if !s ∧ cur ≠ some (col.getD i .default) then
          ([.sequence (sgrSeq (col.getD i .default))], some (col.getD i .default))
        else ([], cur)
      | none => ([], cur)
    standout ++ color ++ .char (vline.getD i 0) :: writeLoop colored vline sel n (i + 1) cur s

/-- `syntax_write_slice`. -/
def syntaxWriteSlice (m : SyntaxMode) (columns : Nat) (vline : List UInt8) (first last : Int)
    (sel : Option (Int → Bool)) : List Out :=
  let last := if last ≥ columns then (columns : Int) - 1 else last
  if last < first then []
  else
    writeLoop (lineColors m (vline.take columns)) vline sel (last - first + 1).toNat first.toNat
      none false

/-! ## The terminal -/

/-- How a terminal takes graphic renditions; `ESC[m` resets them. -/
structure Terminal (α : Type) where
  plain : α
  sgr : α → List UInt8 → α
  sgr_norm : ∀ a, sgr a escNormText = plain

/-- The cells of the terminal, by row and column: the char and its rendition. -/
abbrev Screenful (α : Type) := Nat → Int → UInt8 × α

namespace Terminal

variable {α : Type} (T : Terminal α)

/-- The terminal takes the output with the cursor in `row` and `col` and the rendition `a`. -/
def feed (row : Nat) : List Out → Int → α → Screenful α → Screenful α × α
  | [], _, a, cells => (cells, a)
  | .sequence b :: out, col, a, cells => feed row out col (T.sgr a b) cells
  | .char c :: out, col, a, cells =>
    feed row out (col + 1) a fun li k => if li = row ∧ k = col then (c, a) else cells li k

/-- One call of `syntax_write_slice`, with the cursor placed before it. -/
def writeSlice (m : SyntaxMode) (columns : Nat) (x : Screenful α × α) (w : Slice) :
    Screenful α × α :=
  T.feed w.row (syntaxWriteSlice m columns w.out w.cs w.ce w.sel) w.cs x.2 x.1

/-- The color and the rendition behind column `i`, from those before it. -/
def penStep (colored : Option (List Color)) (pen : Option Color × α) (i : Nat) :
    Option Color × α :=
  match colored with
  | some col =>
    if pen.1 = some (col.getD i .default) then pen
    else (some (col.getD i .default), T.sgr pen.2 (sgrSeq (col.getD i .default)))
  | none => pen

/-- The color and the rendition behind the columns from `first` up to `k`. -/
def penAt (colored : Option (List Color)) (pen : Option Color × α) (first k : Nat) :
    Option Color × α :=
  (List.range' first (k + 1 - first)).foldl (T.penStep colored) pen

/-- The rendition of column `k` in a slice that is written from `first` on. -/
def look (colored : Option (List Color)) (first k : Nat) : α :=
  (T.penAt colored (none, T.plain) first k).2

/-- Without a color, or with the default one, the rendition is plain. -/
def PenOk (pen : Option Color × α) : Prop :=
  pen.1 = none ∨ pen.1 = some .default → pen.2 = T.plain

variable {T}

theorem penStep_ok {colored : Option (List Color)} {pen : Option Color × α} (h : T.PenOk pen)
    (i : Nat) : T.PenOk (T.penStep colored pen i) := by
  unfold penStep
  cases colored with
  | none => exact h
  | some col =>
    dsimp only
    split
    · exact h
    · intro hc
      rcases hc with hc | hc
      · cases hc
      · rw [Option.some.inj hc]
        exact T.sgr_norm pen.2

variable (T) in
/-- The rendition of a char in reverse video, or not. -/
def standout (selected : Bool) : α := if selected then T.sgr T.plain escBoldText else T.plain

variable (T) in
/-- The color and the rendition behind column `i`, and whether it is selected, from those before
it. -/
def columnStep (colored : Option (List Color)) (sel : Option (Int → Bool))
    (pen : (Option Color × α) × Bool) (i : Nat) : (Option Color × α) × Bool :=
  let s := sel.elim false (· i)
  let p := if s ≠ pen.2 then (none, T.standout s) else pen.1
  (if s then p else T.penStep colored p i, s)

variable (T) in
/-- The color and the rendition behind the columns from `first` up to `k`, and whether the last one
is selected. -/
def columnPen (colored : Option (List Color)) (sel : Option (Int → Bool))
    (pen : (Option Color × α) × Bool) (first k : Nat) : (Option Color × α) × Bool :=
  (List.range' first (k + 1 - first)).foldl (T.columnStep colored sel) pen

theorem columnPen_succ (colored : Option (List Color)) (sel : Option (Int → Bool))
    (pen : (Option Color × α) × Bool) {first k : Nat} (h : first ≤ k + 1) :
    T.columnPen colored sel pen first (k + 1) =
      T.columnStep colored sel (T.columnPen colored sel pen first k) (k + 1) := by
  unfold columnPen
  rw [show k + 1 + 1 - first = k + 1 - first + 1 by omega, List.range'_1_concat, List.foldl_append,
    show first + (k + 1 - first) = k + 1 by omega]
  rfl

theorem columnPen_first (colored : Option (List Color)) (sel : Option (Int → Bool))
    (pen : (Option Color × α) × Bool) (first : Nat) :
    T.columnPen colored sel pen first first = T.columnStep colored sel pen first := by
  simp [columnPen]

theorem columnStep_ok {colored : Option (List Color)} {sel : Option (Int → Bool)}
    {pen : (Option Color × α) × Bool} (h : pen.2 = false → T.PenOk pen.1) (i : Nat) :
    (T.columnStep colored sel pen i).2 = false → T.PenOk (T.columnStep colored sel pen i).1 := by
  unfold columnStep
  dsimp only
  cases hs : sel.elim false (· (i : Int)) with
  | true => exact fun h => absurd h (by decide)
  | false =>
    intro _
    refine penStep_ok ?_ i
    cases hsel : pen.2 with
    | false => exact h hsel
    | true => exact fun _ => rfl

/-- One column of the output. -/
theorem writeLoop_column (colored : Option (List Color)) (vline : List UInt8)
    (sel : Option (Int → Bool)) (row n i : Nat) (pen : (Option Color × α) × Bool)
    (cells : Screenful α) :
    T.feed row (writeLoop colored vline sel (n + 1) i pen.1.1 pen.2) i pen.1.2 cells =
      T.feed row (writeLoop colored vline sel n (i + 1) (T.columnStep colored sel pen i).1.1
        (T.columnStep colored sel pen i).2) ((i + 1 : Nat) : Int)
        (T.columnStep colored sel pen i).1.2
        fun li k => if li = row ∧ k = i then (vline.getD i 0, (T.columnStep colored sel pen i).1.2)
          else cells li k := by
  obtain ⟨⟨cur, a⟩, curSel⟩ := pen
  unfold columnStep
  cases hs : sel.elim false (· (i : Int)) <;> cases curSel <;> cases colored with
  | none => simp [writeLoop, feed, hs, penStep, standout, T.sgr_norm]
  | some col =>
    by_cases hcur : cur = some (col[i]?.getD .default) <;>
      simp [writeLoop, feed, hs, penStep, standout, T.sgr_norm, hcur]

/-- **What a slice leaves**: its chars with their renditions, and the plain rendition. -/
theorem writeLoop_cells (colored : Option (List Color)) (vline : List UInt8)
    (sel : Option (Int → Bool)) (row : Nat) :
    ∀ (n i : Nat) (pen : (Option Color × α) × Bool) (cells : Screenful α),
      (pen.2 = false → T.PenOk pen.1) →
      (T.feed row (writeLoop colored vline sel n i pen.1.1 pen.2) i pen.1.2 cells).2 = T.plain ∧
      ∀ (li : Nat) (k : Int),
        (T.feed row (writeLoop colored vline sel n i pen.1.1 pen.2) i pen.1.2 cells).1 li k =
          if li = row ∧ i ≤ k ∧ k < i + n then
            (vline.getD k.toNat 0, (T.columnPen colored sel pen i k.toNat).1.2)
          else cells li k
  | 0, i, pen, cells, hpen => by
    unfold writeLoop
    split
    · refine ⟨T.sgr_norm _, fun li k => ?_⟩
      rw [if_neg (by omega)]
      rfl
    · rename_i hcur
      rw [not_or] at hcur
      refine ⟨hpen (Bool.eq_false_of_not_eq_true hcur.1) ?_, fun li k => ?_⟩
      · by_contra hne
        rw [not_or] at hne
        exact hcur.2 hne
      · rw [if_neg (by omega)]
        rfl
  | n + 1, i, pen, cells, hpen => by
    obtain ⟨h₁, h₂⟩ := writeLoop_cells colored vline sel row n (i + 1)
      (T.columnStep colored sel pen i)
      (fun li k => if li = row ∧ k = i then (vline.getD i 0, (T.columnStep colored sel pen i).1.2)
        else cells li k) (columnStep_ok hpen i)
    rw [writeLoop_column]
    refine ⟨h₁, fun li k => (h₂ li k).trans ?_⟩
    by_cases hk : li = row ∧ (i : Int) ≤ k ∧ k < i + (n + 1 : Nat)
    · rw [if_pos hk]
      by_cases hi : k = i
      · -- column `i` itself
        rw [if_neg (by omega), if_pos ⟨hk.1, hi⟩, hi, Int.toNat_natCast, columnPen_first]
      · rw [if_pos (by omega)]
        unfold columnPen
        rw [show k.toNat + 1 - i = k.toNat + 1 - (i + 1) + 1 by omega, List.range'_succ]
        rfl
    · rw [if_neg hk, if_neg (by omega), if_neg (by omega)]

/-- Without a selection the pen is that of the colors. -/
theorem columnPen_none (colored : Option (List Color)) (pen : Option Color × α) (first k : Nat) :
    T.columnPen colored none (pen, false) first k = (T.penAt colored pen first k, false) := by
  unfold columnPen penAt
  generalize List.range' first (k + 1 - first) = l
  induction l generalizing pen with
  | nil => rfl
  | cons i l ih =>
    rw [List.foldl_cons, List.foldl_cons]
    exact ih (T.penStep colored pen i)

/-- Without colors the pen is that of the last column. -/
theorem columnPen_standout (sel : Option (Int → Bool)) (b : Bool) {first k : Nat} (h : first ≤ k) :
    T.columnPen none sel ((none, T.standout b), b) first k =
      ((none, T.standout (sel.elim false (· (k : Int)))), sel.elim false (· (k : Int))) := by
  have hstep : ∀ (b : Bool) (i : Nat), T.columnStep none sel ((none, T.standout b), b) i =
      ((none, T.standout (sel.elim false (· (i : Int)))), sel.elim false (· (i : Int))) := by
    intro b i
    unfold columnStep
    cases sel.elim false (· (i : Int)) <;> cases b <;> rfl
  induction k, h using Nat.le_induction with
  | base => rw [columnPen_first, hstep]
  | succ k hk ih => rw [columnPen_succ _ _ _ (by omega), ih, hstep]

variable (T) in
/-- What a call of `syntax_write_slice` leaves: the rendition `look line sel first k` of column `k`
in a slice that is written from `first` on, and the plain rendition. -/
def Leaves (m : SyntaxMode) (columns : Nat) (selected : Bool)
    (look : List UInt8 → Option (Int → Bool) → Nat → Nat → α) : Prop :=
  ∀ (w : Slice) (cells : Screenful α), w.sel.isSome = selected → 0 ≤ w.cs → w.cs ≤ w.ce →
    w.ce < columns →
    (T.writeSlice m columns (cells, T.plain) w).2 = T.plain ∧
    ∀ (li : Nat) (k : Int), (T.writeSlice m columns (cells, T.plain) w).1 li k =
      if li = w.row ∧ w.cs ≤ k ∧ k ≤ w.ce then
        (w.out.getD k.toNat 0, look w.out w.sel w.cs.toNat k.toNat)
      else cells li k

/-- One call of `syntax_write_slice`. -/
theorem writeSlice_cells (m : SyntaxMode) (columns : Nat) (w : Slice) (cells : Screenful α)
    (h₀ : 0 ≤ w.cs) (h₁ : w.cs ≤ w.ce) (h₂ : w.ce < columns) :
    (T.writeSlice m columns (cells, T.plain) w).2 = T.plain ∧
    ∀ (li : Nat) (k : Int), (T.writeSlice m columns (cells, T.plain) w).1 li k =
      if li = w.row ∧ w.cs ≤ k ∧ k ≤ w.ce then
        (w.out.getD k.toNat 0, (T.columnPen (lineColors m (w.out.take columns)) w.sel
          ((none, T.plain), false) w.cs.toNat k.toNat).1.2)
      else cells li k := by
  unfold writeSlice syntaxWriteSlice
  dsimp only
  rw [if_neg (by omega : ¬w.ce ≥ columns), if_neg (by omega : ¬w.ce < w.cs)]
  have h := writeLoop_cells (T := T) (lineColors m (w.out.take columns)) w.out w.sel w.row
    (w.ce - w.cs + 1).toNat w.cs.toNat ((none, T.plain), false) cells fun _ _ => rfl
  rw [Int.toNat_of_nonneg h₀] at h
  refine ⟨h.1, fun li k => (h.2 li k).trans ?_⟩
  by_cases hk : li = w.row ∧ w.cs ≤ k ∧ k ≤ w.ce
  · rw [if_pos hk, if_pos (by omega)]
  · rw [if_neg hk, if_neg (by omega)]

/-- One call of `syntax_write_slice` without a selection. -/
theorem writeSlice_colors (m : SyntaxMode) (columns : Nat) :
    T.Leaves m columns false
      fun line _ first k => T.look (lineColors m (line.take columns)) first k := by
  intro w cells hsel h₀ h₁ h₂
  have hnone : w.sel = none := by simpa using hsel
  obtain ⟨hpen, hcells⟩ := writeSlice_cells (T := T) m columns w cells h₀ h₁ h₂
  refine ⟨hpen, fun li k => ?_⟩
  rw [hcells, hnone, columnPen_none]
  rfl

/-- One call of `syntax_write_slice` without a syntax. -/
theorem writeSlice_standout (columns : Nat) (selected : Bool) :
    T.Leaves .none columns selected fun _ sel _ k => T.standout (sel.elim false (· (k : Int))) := by
  intro w cells _ h₀ h₁ h₂
  obtain ⟨hpen, hcells⟩ := writeSlice_cells (T := T) .none columns w cells h₀ h₁ h₂
  have hnone : lineColors .none (w.out.take columns) = none := by
    unfold lineColors
    exact if_pos (Or.inl rfl)
  rw [hnone] at hcells
  refine ⟨hpen, fun li k => (hcells li k).trans ?_⟩
  by_cases hk : li = w.row ∧ w.cs ≤ k ∧ k ≤ w.ce
  · have hpen := columnPen_standout (T := T) w.sel false (show w.cs.toNat ≤ k.toNat by omega)
    rw [if_pos hk, if_pos hk]
    exact congrArg (fun pen => (w.out.getD k.toNat 0, pen.1.2)) hpen
  · rw [if_neg hk, if_neg hk]

/-! ## `refresh` -/

/-- What the columns of a row show, from what they showed before and the slice that is written. -/
def rowCells (line : List UInt8) (look : Nat → Nat → α) (old : Int → UInt8 × α) :
    Option (Int × Int) → Int → UInt8 × α
  | some (cs, ce), k =>
    if cs ≤ k ∧ k ≤ ce then (line.getD k.toNat 0, look cs.toNat k.toNat) else old k
  | none, k => old k

/-- The selection mask of the line at `tp`. -/
def selMask (s : Ed) (tp : Int) : Option (Int → Bool) :=
  if s.viVisual then some (s.visualLineMask tp) else none

open Ed in
/-- The rows from `li` on, and those above. -/
theorem refreshRows_cells {m : SyntaxMode} {s : Ed}
    {look : List UInt8 → Option (Int → Bool) → Nat → Nat → α}
    (hlook : T.Leaves m s.columns s.viVisual look) (hc : 1 ≤ s.columns) (full offsetChanged : Bool) :
    ∀ (n li : Nat) (tp : Int) (screen : Memory UInt8) (cells : Screenful α),
      let x := (s.refreshRows full offsetChanged n li tp screen).2.foldl (T.writeSlice m s.columns)
        (cells, T.plain)
      (∀ lj < li, ∀ k, x.1 lj k = cells lj k) ∧
      ∀ j < n, ∀ k, x.1 (li + j) k = rowCells (s.formatLine (s.rowStart tp j))
        (look (s.formatLine (s.rowStart tp j)) (selMask s (s.rowStart tp j))) (cells (li + j))
        (rowSlice s.columns full offsetChanged (s.formatLine (s.rowStart tp j))
          (s.screenRow screen (li + j))) k
  | 0, _, _, _, _ => ⟨fun _ _ _ => rfl, fun j hj => absurd hj (Nat.not_lt_zero j)⟩
  | n + 1, li, tp, screen, cells => by
    unfold refreshRows
    dsimp only
    cases hslice : rowSlice s.columns full offsetChanged (s.formatLine tp)
        (fun k => screen (li * s.columns + k)) with
    | none =>
      dsimp only
      obtain ⟨h₁, h₂⟩ := refreshRows_cells hlook hc full offsetChanged n (li + 1) (s.rowSkip tp)
        screen cells
      refine ⟨fun lj hlj k => h₁ lj (by omega) k, fun j hj k => ?_⟩
      cases j with
      | zero =>
        rw [Nat.add_zero]
        show _ = rowCells (s.formatLine tp) (look (s.formatLine tp) (selMask s tp)) (cells li)
          (rowSlice s.columns full offsetChanged (s.formatLine tp)
            (fun k => screen (li * s.columns + k))) k
        rw [hslice]
        exact h₁ li (by omega) k
      | succ j =>
        rw [show li + (j + 1) = li + 1 + j by omega, ← rowStart_skip]
        exact h₂ j (by omega) k
    | some r =>
      obtain ⟨cs, ce⟩ := r
      dsimp only
      obtain ⟨hcs, hce, hlt, -⟩ := rowSlice_spec hc hslice
      have hsel : (selMask s tp).isSome = s.viVisual := by
        unfold selMask
        cases s.viVisual <;> rfl
      obtain ⟨hpen, hcells⟩ :=
        hlook ⟨li, s.formatLine tp, cs, ce, selMask s tp⟩ cells hsel hcs hce hlt
      rw [List.foldl_cons,
        show (if s.viVisual then some (s.visualLineMask tp) else none) = selMask s tp from rfl]
      generalize T.writeSlice m s.columns (cells, T.plain)
        ⟨li, s.formatLine tp, cs, ce, selMask s tp⟩ = x at hpen hcells
      obtain ⟨cells', pen⟩ := x
      obtain rfl : pen = T.plain := hpen
      dsimp only at hcells
      obtain ⟨h₁, h₂⟩ := refreshRows_cells hlook hc full offsetChanged n (li + 1) (s.rowSkip tp)
        (memcpy screen (li * s.columns + cs)
          (((s.formatLine tp).drop cs.toNat).take (ce - cs + 1).toNat)) cells'
      have hother : ∀ lj ≠ li, cells' lj = cells lj := by
        intro lj hne
        funext k
        rw [hcells, if_neg fun h => hne h.1]
      refine ⟨fun lj hlj k => ?_, fun j hj k => ?_⟩
      · rw [h₁ lj (by omega), hother lj (by omega)]
      · cases j with
        | zero =>
          refine (h₁ li (by omega) k).trans ?_
          show _ = rowCells (s.formatLine tp) (look (s.formatLine tp) (selMask s tp)) (cells li)
            (rowSlice s.columns full offsetChanged (s.formatLine tp)
              (fun k => screen (li * s.columns + k))) k
          rw [hslice, hcells]
          simp [rowCells]
        | succ j =>
          have hcopy := (copy_slice s screen li hcs hce hlt (s.columns_le_formatLine tp)).2
            (li + 1 + j) (by omega)
          rw [show li + (j + 1) = li + 1 + j by omega, ← rowStart_skip, h₂ j (by omega),
            hother (li + 1 + j) (by omega), rowSlice_congr hcopy]

end Terminal

/-! ## One row -/

/-- The columns from the first to the last in which two rows differ. -/
def Between (old new : List UInt8) (k : Nat) : Prop :=
  (∃ i < k + 1, old.getD i 0 ≠ new.getD i 0) ∧
    ∃ j < new.length, k ≤ j ∧ old.getD j 0 ≠ new.getD j 0

/-- Column `i` is the first in which two rows differ. -/
def FirstDiff (old new : List UInt8) (i : Nat) : Prop :=
  (∀ h < i, old.getD h 0 = new.getD h 0) ∧ old.getD i 0 ≠ new.getD i 0

instance (old new : List UInt8) (k : Nat) : Decidable (Between old new k) :=
  inferInstanceAs (Decidable (_ ∧ _))

instance (old new : List UInt8) (i : Nat) : Decidable (FirstDiff old new i) :=
  inferInstanceAs (Decidable (_ ∧ _))

namespace Terminal

variable {α : Type} (T : Terminal α)

/-- The colors outlive the change of a row: a char that stays has the rendition it had, and one
from the first difference to the last has the one it would have in the whole row. -/
def LooksKept (m : SyntaxMode) (old new : List UInt8) : Prop :=
  ∀ k < new.length,
    (Between old new k → ∀ i < k + 1, FirstDiff old new i →
      T.look (lineColors m new) i k = T.look (lineColors m new) 0 k) ∧
    (¬Between old new k → T.look (lineColors m old) 0 k = T.look (lineColors m new) 0 k)

instance [DecidableEq α] (m : SyntaxMode) (old new : List UInt8) :
    Decidable (T.LooksKept m old new) :=
  inferInstanceAs (Decidable (∀ k < new.length, _))

/-- The row of the virtual screen. -/
def chars (columns : Nat) (sp : Int → UInt8) : List UInt8 :=
  (List.range columns).map fun k : Nat => sp k

variable {T}

theorem chars_getD {columns : Nat} {sp : Int → UInt8} {k : Nat} (h : k < columns) :
    (chars columns sp).getD k 0 = sp k := by
  simp [chars, h]

theorem look_default (n k : Nat) : T.look (some (List.replicate n .default)) 0 k = T.plain := by
  have hstep : ∀ (l : List Nat) (pen : Option Color × α), pen.1 = none ∨ pen.1 = some .default →
      T.PenOk pen → (l.foldl (T.penStep (some (List.replicate n .default))) pen).2 = T.plain := by
    intro l
    induction l with
    | nil => exact fun pen h hok => hok h
    | cons i l ih =>
      intro pen h hok
      have hcol : (List.replicate n Color.default).getD i .default = .default := by
        simp only [List.getD_eq_getElem?_getD, List.getElem?_replicate]
        split <;> rfl
      apply ih _ _ (penStep_ok hok i)
      unfold penStep
      dsimp only
      rw [hcol]
      split
      · exact h
      · exact .inr rfl
  exact hstep _ _ (.inl rfl) fun _ => rfl

theorem look_blank (m : SyntaxMode) (n k : Nat) :
    T.look (lineColors m (List.replicate n 32)) 0 k = T.plain := by
  rcases lineColors_blank m n with h | h
  · rw [h]
    have hstay : ∀ (l : List Nat) (pen : Option Color × α), l.foldl (T.penStep none) pen = pen := by
      intro l
      induction l with
      | nil => exact fun pen => rfl
      | cons i l ih => exact fun pen => ih pen
    exact congrArg Prod.snd (hstay _ _)
  · rw [h]
    exact look_default n k

open Ed in
/-- **One row.**  What `refresh` leaves in it is the row in its own colors exactly when the colors
outlive the change. -/
theorem rowCells_iff (m : SyntaxMode) {columns : Nat} {line : List UInt8} {sp : Int → UInt8}
    {old : Int → UInt8 × α} (offsetChanged : Bool) (hline : columns ≤ line.length)
    (hold : ∀ k : Nat, k < columns →
      old k = (sp k, T.look (lineColors m (chars columns sp)) 0 k)) :
    (∀ k : Nat, k < columns →
      rowCells line (T.look (lineColors m (line.take columns))) old
        (rowSlice columns false offsetChanged line sp) k =
        (line.getD k 0, T.look (lineColors m (line.take columns)) 0 k)) ↔
      T.LooksKept m (chars columns sp) (line.take columns) := by
  have hlen : (line.take columns).length = columns := by simp [hline]
  have hget : ∀ {k : Nat}, k < columns → (line.take columns).getD k 0 = line.getD k 0 := by
    intro k hk
    simp [hk]
  have hdiff : ∀ {k : Nat}, k < columns →
      ((chars columns sp).getD k 0 ≠ (line.take columns).getD k 0 ↔ Differs columns line sp k) := by
    intro k hk
    rw [chars_getD hk, hget hk]
    exact ⟨fun h => ⟨by omega, by omega, fun e => h e.symm⟩, fun h e => h.2.2 e.symm⟩
  unfold LooksKept
  rw [hlen]
  by_cases hd : ∃ k, Differs columns line sp k
  · obtain ⟨k₀, hk₀⟩ := hd
    obtain ⟨cs, ce, hslice, hcs, hce, hall⟩ := rowSlice_diff offsetChanged hk₀
    obtain ⟨i, rfl⟩ := Int.eq_ofNat_of_zero_le hcs.1
    obtain ⟨j, rfl⟩ := Int.eq_ofNat_of_zero_le hce.1
    have hi : i < columns := by have := hcs.2.1; omega
    have hj : j < columns := by have := hce.2.1; omega
    have hfirst : FirstDiff (chars columns sp) (line.take columns) i := by
      refine ⟨fun h hh => ?_, (hdiff hi).mpr hcs⟩
      by_contra hne
      have := (hall h ((hdiff (by omega)).mp hne)).1
      omega
    have hunique : ∀ {h : Nat}, h < columns →
        FirstDiff (chars columns sp) (line.take columns) h → h = i := by
      intro h hh hf
      have h₁ := (hall h ((hdiff hh).mp hf.2)).1
      by_contra hne
      exact hfirst.2 (hf.1 i (by omega))
    have hbetween : ∀ {k : Nat}, k < columns →
        (Between (chars columns sp) (line.take columns) k ↔ i ≤ k ∧ k ≤ j) := by
      intro k hk
      unfold Between
      rw [hlen]
      constructor
      · rintro ⟨⟨h, hh, hne⟩, h', hh', hle, hne'⟩
        have h₁ := (hall h ((hdiff (by omega)).mp hne)).1
        have h₂ := (hall h' ((hdiff hh').mp hne')).2
        omega
      · rintro ⟨h₁, h₂⟩
        exact ⟨⟨i, by omega, hfirst.2⟩, j, hj, h₂, (hdiff hj).mpr hce⟩
    rw [hslice]
    refine forall_congr' fun k => forall_congr' fun hk => ?_
    unfold rowCells
    dsimp only
    rw [hbetween hk]
    by_cases hin : i ≤ k ∧ k ≤ j
    · rw [if_pos (by omega)]
      simp only [Int.toNat_natCast, Prod.mk.injEq, true_and, hin, not_true_eq_false,
        IsEmpty.forall_iff, and_true, forall_const]
      constructor
      · intro h i' hi' hf
        rw [hunique (by omega) hf]
        exact h
      · exact fun h => h i (by omega) hfirst
    · have hsame : sp k = line.getD k 0 := by
        by_contra hne
        have := hall k ((hdiff hk).mp (by rwa [chars_getD hk, hget hk]))
        omega
      rw [if_neg (by omega), hold k hk]
      simp only [hsame, Prod.mk.injEq, true_and, hin, not_false_eq_true, forall_const,
        IsEmpty.forall_iff]
  · -- nothing differs, and a repaint for the offset is one of the whole row
    have heq : chars columns sp = line.take columns := by
      apply List.ext_getElem
      · rw [hlen]
        simp [chars]
      · intro k h₁ h₂
        rw [hlen] at h₂
        have := not_not.mp fun hne => hd ⟨k, (hdiff h₂).mp hne⟩
        rwa [List.getD_eq_getElem _ _ h₁, List.getD_eq_getElem _ _ (by omega)] at this
    have hno : ∀ k, ¬Between (line.take columns) (line.take columns) k :=
      fun k h => h.1.choose_spec.2 rfl
    rw [rowSlice_same fun k hk => hd ⟨k, hk⟩, heq]
    refine iff_of_true (fun k hk => ?_) fun k _ => ⟨fun h => absurd h (hno k), fun _ => rfl⟩
    cases offsetChanged with
    | true =>
      unfold rowCells
      rw [if_pos rfl]
      dsimp only
      rw [if_pos (by omega)]
      rfl
    | false =>
      have hsame : sp k = line.getD k 0 := by
        have hcell : (chars columns sp).getD k 0 = sp k := chars_getD hk
        rw [← hcell, heq, hget hk]
      rw [if_neg Bool.false_ne_true]
      show old k = _
      rw [hold k hk, hsame, heq]

end Terminal

end Evim
