import Ewokos.Lib.CString
import Ewokos.Evim.Terminal

/-!
# evim: the colors on an ECMA-48 terminal

The sequences of `syntax_write_slice` of `bin/evim/vim_syntax.c` on a terminal whose attributes add
up until `SGR 0`.

* `ecma48` — the terminal.
* `sgr_color` — what the sequence of a color does to the attributes.
* `Brightened` — there is a bold color in front, and no reset in between.
* `columnPen_selected`, `columnPen_bright` — the attributes of every column of a slice.

Main result: `sgr_iff`.
-/

set_option autoImplicit false

namespace Evim

open Cells
open CString hiding strchr

/-! ## The terminal -/

/-- The attributes of a cell: bold, reverse video, and the foreground color. -/
structure Attr where
  bold : Bool
  reverse : Bool
  fg : Option Nat
  deriving DecidableEq, Repr

namespace Attr

def plain : Attr := ⟨false, false, none⟩

/-- One parameter of SGR. -/
def select (a : Attr) (p : Nat) : Attr :=
  if p = 0 then plain
  else if p = 1 then { a with bold := true }
  else if p = 7 then { a with reverse := true }
  else if p = 22 then { a with bold := false }
  else if p = 27 then { a with reverse := false }
  else if 30 ≤ p ∧ p ≤ 37 then { a with fg := some (p - 30) }
  else if p = 39 then { a with fg := none }
  else a

end Attr

/-- The parameters of `ESC [ ... m`; one that is left out is 0. -/
def sgrParams (b : List UInt8) : List Nat := ((b.drop 2).dropLast.splitOn (chr ';')).map numeral

/-- A terminal that follows ECMA-48. -/
def ecma48 : Terminal Attr where
  plain := .plain
  sgr a b := (sgrParams b).foldl Attr.select a
  sgr_norm _ := rfl

/-! ## The colors -/

namespace Color

/-- Whether `sgr_seq` sets bold. -/
def bold : Color → Bool
  | key | brace | comment | cmd => true
  | default | string | number | literal | path | oper => false

/-- The foreground color of `sgr_seq`. -/
def fg : Color → Option Nat
  | default => none
  | comment => some 0
  | oper => some 1
  | string | cmd => some 2
  | literal => some 3
  | number => some 5
  | key | path => some 6
  | brace => some 7

theorem ne_default_of_bold {cl : Color} (h : cl.bold = true) : cl ≠ default := by
  rintro rfl
  cases h

end Color

theorem sgr_color (a : Attr) (cl : Color) : ecma48.sgr a (sgrSeq cl) =
    if cl = .default then .plain else ⟨a.bold || cl.bold, a.reverse, cl.fg⟩ := by
  have hparams : sgrParams (sgrSeq cl) = if cl = .default then [0]
      else (if cl.bold then [1] else []) ++ cl.fg.toList.map (30 + ·) := by
    cases cl <;> decide +kernel
  unfold ecma48
  dsimp only
  rw [hparams]
  cases cl <;> simp [Attr.select, Color.bold, Color.fg]

/-! ## The attributes of a column -/

section Slice

variable (colors : Nat → Color) (sel : Nat → Bool) (first : Nat)

/-- There is a bold color in column `k` or in front of it, and neither a column of the default color
nor a selected one from there on. -/
def Brightened (k : Nat) : Prop :=
  ∃ a, first ≤ a ∧ a ≤ k ∧ (colors a).bold = true ∧
    ∀ c, a ≤ c → c ≤ k → sel c = false ∧ colors c ≠ .default

variable {colors sel first} {k : Nat}

theorem not_brightened_selected (h : sel k = true) : ¬Brightened colors sel first k := by
  rintro ⟨a, -, ha, -, hrun⟩
  rw [(hrun k ha (Nat.le_refl k)).1] at h
  cases h

theorem not_brightened_default (h : colors k = .default) : ¬Brightened colors sel first k := by
  rintro ⟨a, -, ha, -, hrun⟩
  exact (hrun k ha (Nat.le_refl k)).2 h

theorem brightened_first (hsel : sel first = false) :
    Brightened colors sel first first ↔ (colors first).bold = true := by
  constructor
  · rintro ⟨a, h₁, h₂, hb, -⟩
    rwa [Nat.le_antisymm h₂ h₁] at hb
  · intro hb
    refine ⟨first, Nat.le_refl _, Nat.le_refl _, hb, fun c h₁ h₂ => ?_⟩
    rw [Nat.le_antisymm h₂ h₁]
    exact ⟨hsel, Color.ne_default_of_bold hb⟩

theorem brightened_succ (hk : first ≤ k) (hsel : sel (k + 1) = false)
    (hc : colors (k + 1) ≠ .default) : Brightened colors sel first (k + 1) ↔
      (colors (k + 1)).bold = true ∨ Brightened colors sel first k := by
  constructor
  · rintro ⟨a, h₁, h₂, hb, hrun⟩
    rcases Nat.le_succ_iff.mp h₂ with h | rfl
    · exact .inr ⟨a, h₁, h, hb, fun c hc₁ hc₂ => hrun c hc₁ (by omega)⟩
    · exact .inl hb
  · rintro (hb | ⟨a, h₁, h₂, hb, hrun⟩)
    · refine ⟨k + 1, by omega, Nat.le_refl _, hb, fun c hc₁ hc₂ => ?_⟩
      rw [Nat.le_antisymm hc₂ hc₁]
      exact ⟨hsel, hc⟩
    · refine ⟨a, h₁, by omega, hb, fun c hc₁ hc₂ => ?_⟩
      rcases Nat.le_succ_iff.mp hc₂ with h | rfl
      · exact hrun c hc₁ h
      · exact ⟨hsel, hc⟩

end Slice

/-- The pen behind an unselected column of color `cl`. -/
def brightPen (cl : Color) (b : Bool) : (Option Color × Attr) × Bool :=
  ((some cl, ⟨b, false, cl.fg⟩), false)

/-- The color of column `i`. -/
def colorOf (col : List Color) (i : Nat) : Color := col.getD i .default

/-- Whether the mask has column `i`. -/
def marked (sel : Option (Int → Bool)) (i : Nat) : Bool := sel.elim false (· i)

section Pen

variable {col : List Color} {sel : Option (Int → Bool)} {first k : Nat}

/-- A selected column, behind any. -/
theorem columnStep_selected {pen : (Option Color × Attr) × Bool}
    (h : pen.2 = true → pen.1 = (none, ecma48.standout true)) {i : Nat}
    (hi : marked sel i = true) : ecma48.columnStep (some col) sel pen i =
      ((none, ecma48.standout true), true) := by
  unfold marked at hi
  unfold Terminal.columnStep
  rw [hi]
  cases hp : pen.2 with
  | true =>
    rw [h hp]
    rfl
  | false => rfl

/-- The first column behind a reset. -/
theorem columnStep_reset {pen : (Option Color × Attr) × Bool}
    (h : pen.2 = false → pen.1 = (none, .plain)) {i : Nat} (hi : marked sel i = false) :
    ecma48.columnStep (some col) sel pen i =
      brightPen (colorOf col i) (colorOf col i).bold := by
  have hp : (if (false : Bool) ≠ pen.2 then (none, ecma48.standout false) else pen.1) =
      ((none : Option Color), Attr.plain) := by
    cases hp : pen.2 with
    | true => rfl
    | false => rw [h hp]; rfl
  unfold marked at hi
  unfold Terminal.columnStep brightPen
  dsimp only
  rw [hi, hp]
  unfold Terminal.penStep
  dsimp only
  simp only [Bool.false_eq_true, if_false, reduceCtorEq]
  rw [sgr_color]
  unfold colorOf
  by_cases hd : col.getD i .default = .default
  · rw [if_pos hd, hd]
    rfl
  · rw [if_neg hd]
    rfl

/-- An unselected column behind another. -/
theorem columnStep_bright {cl : Color} {b : Bool} {i : Nat} (hi : marked sel i = false) :
    ecma48.columnStep (some col) sel (brightPen cl b) i =
      if colorOf col i = cl then brightPen cl b
      else if colorOf col i = .default then brightPen .default false
      else brightPen (colorOf col i) (b || (colorOf col i).bold) := by
  unfold marked at hi
  unfold Terminal.columnStep brightPen Terminal.penStep
  dsimp only
  rw [hi]
  change (if some cl = some (colorOf col i) then
      ((some cl, ⟨b, false, cl.fg⟩) : Option Color × Attr)
    else (some (colorOf col i), ecma48.sgr ⟨b, false, cl.fg⟩ (sgrSeq (colorOf col i))), false) = _
  by_cases hcl : colorOf col i = cl
  · rw [if_pos hcl, if_pos (by rw [hcl])]
  · rw [if_neg hcl, if_neg fun h => hcl (Option.some.inj h).symm, sgr_color]
    by_cases hd : colorOf col i = .default
    · rw [if_pos hd, if_pos hd, hd]
      rfl
    · rw [if_neg hd, if_neg hd]

/-- **The attributes of a column**: reverse video only, or those of its color with bold from the
columns in front. -/
theorem columnPen_bright (h : first ≤ k) :
    let pen := ecma48.columnPen (some col) sel ((none, .plain), false) first k
    (marked sel k = true → pen = ((none, ecma48.standout true), true)) ∧
      (marked sel k = false → ∃ b, pen = brightPen (colorOf col k) b ∧
        (b = true ↔ Brightened (colorOf col) (marked sel) first k)) := by
  induction k, h using Nat.le_induction with
  | base =>
    intro pen
    have hpen : pen = ecma48.columnStep (some col) sel ((none, .plain), false) first :=
      Terminal.columnPen_first _ _ _ _
    refine ⟨fun hs => hpen.trans (columnStep_selected (fun h => absurd h (by decide)) hs),
      fun hs => ⟨_, hpen.trans (columnStep_reset (fun _ => rfl) hs), ?_⟩⟩
    exact (brightened_first hs).symm
  | succ k hk ih =>
    obtain ⟨ihsel, ihcol⟩ := ih
    intro pen
    have hpen : pen = ecma48.columnStep (some col) sel
        (ecma48.columnPen (some col) sel ((none, .plain), false) first k) (k + 1) :=
      Terminal.columnPen_succ _ _ _ (by omega)
    generalize ecma48.columnPen (some col) sel ((none, .plain), false) first k = before at *
    cases hbefore : marked sel k with
    | true =>
      obtain rfl := ihsel hbefore
      refine ⟨fun hs => hpen.trans (columnStep_selected (fun _ => rfl) hs),
        fun hs => ⟨_, hpen.trans (columnStep_reset (fun h => absurd h (by decide)) hs), ?_⟩⟩
      by_cases hd : colorOf col (k + 1) = .default
      · rw [hd]
        exact iff_of_false (by decide) (not_brightened_default hd)
      · rw [brightened_succ hk hs hd, or_iff_left (not_brightened_selected hbefore)]
    | false =>
      obtain ⟨b, rfl, hb⟩ := ihcol hbefore
      refine ⟨fun hs => hpen.trans (columnStep_selected (fun h => Bool.noConfusion h) hs),
        fun hs => ?_⟩
      rw [columnStep_bright hs] at hpen
      by_cases hd : colorOf col (k + 1) = .default
      · have hnone : ¬Brightened (colorOf col) (marked sel) first (k + 1) :=
          not_brightened_default hd
        refine ⟨false, ?_, iff_of_false (by decide) hnone⟩
        rw [hpen, hd, if_pos rfl]
        by_cases hsame : Color.default = colorOf col k
        · have hb' : b = false := by
            rw [← Bool.not_eq_true, hb]
            exact not_brightened_default hsame.symm
          rw [if_pos hsame, hb', ← hsame]
        · rw [if_neg hsame]
      · by_cases hsame : colorOf col (k + 1) = colorOf col k
        · rw [if_pos hsame] at hpen
          refine ⟨b, hpen.trans (by rw [hsame]), hb.trans ?_⟩
          rw [brightened_succ hk hs hd, hsame]
          refine ⟨.inr, fun h => h.elim (fun hbold => ?_) id⟩
          exact ⟨k, hk, Nat.le_refl k, hbold, fun c h₁ h₂ => by
            rw [Nat.le_antisymm h₂ h₁]
            exact ⟨hbefore, hsame ▸ hd⟩⟩
        · rw [if_neg hsame, if_neg hd] at hpen
          refine ⟨_, hpen, ?_⟩
          rw [Bool.or_eq_true, brightened_succ hk hs hd, hb, or_comm]

end Pen

/-! ## A slice -/

/-- The color of column `i` of the line that is written. -/
def lineColor (m : SyntaxMode) (columns : Nat) (vline : List UInt8) (i : Nat) : Color :=
  (lineColors m (vline.take columns)).elim .default (colorOf · i)

/-- How column `k` should look: in reverse video only, or as its color alone looks. -/
def ownLook (m : SyntaxMode) (columns : Nat) (vline : List UInt8) (sel : Option (Int → Bool))
    (k : Nat) : Attr :=
  if marked sel k then ecma48.standout true
  else ecma48.sgr ecma48.plain (sgrSeq (lineColor m columns vline k))

/-- No column is brighter than its color. -/
def Dims (colors : Nat → Color) (sel : Nat → Bool) (first : Nat) (k : Nat) : Prop :=
  sel k = false → Brightened colors sel first k → (colors k).bold = true

/-- A column looks as it should exactly when it is not brightened by one in front. -/
theorem columnPen_own {m : SyntaxMode} {columns : Nat} {vline : List UInt8}
    {sel : Option (Int → Bool)} {first k : Nat} (h : first ≤ k) :
    (ecma48.columnPen (lineColors m (vline.take columns)) sel ((none, .plain), false)
        first k).1.2 = ownLook m columns vline sel k ↔
      Dims (lineColor m columns vline) (marked sel) first k := by
  unfold ownLook Dims lineColor
  cases lineColors m (vline.take columns) with
  | none =>
    have hpen := Terminal.columnPen_standout (T := ecma48) sel false h
    change ecma48.columnPen none sel ((none, .plain), false) first k = _ at hpen
    refine iff_of_true ?_ fun _ hb => absurd hb (not_brightened_default rfl)
    rw [hpen]
    change ecma48.standout (marked sel k) = _
    cases marked sel k with
    | true => rfl
    | false =>
      rw [if_neg (by decide)]
      exact (sgr_color .plain .default).symm
  | some col =>
    obtain ⟨hsel, hcol⟩ : _ ∧ (marked sel k = false → ∃ b, _ ∧
        (b = true ↔ Brightened (colorOf col) (marked sel) first k)) := columnPen_bright h
    change _ ↔ (_ → Brightened (colorOf col) (marked sel) first k → (colorOf col k).bold = true)
    cases hk : marked sel k with
    | true =>
      rw [hsel hk, if_pos rfl]
      exact iff_of_true rfl fun h => absurd h (by decide)
    | false =>
      obtain ⟨b, hpen, hb⟩ := hcol hk
      rw [hpen, if_neg (by decide), ← hb, sgr_color]
      change (⟨b, false, (colorOf col k).fg⟩ : Attr) =
        (if colorOf col k = .default then .plain
          else ⟨false || (colorOf col k).bold, false, (colorOf col k).fg⟩) ↔ _
      by_cases hd : colorOf col k = .default
      · have hb' : b = false := by
          rw [← Bool.not_eq_true, hb]
          exact not_brightened_default hd
        rw [if_pos hd, hd, hb']
        exact iff_of_true rfl fun _ h => absurd h (by decide)
      · rw [if_neg hd, Bool.false_or]
        have hback : (colorOf col k).bold = true → b = true := fun hbold =>
          hb.mpr ⟨k, h, Nat.le_refl k, hbold, fun c h₁ h₂ => by
            rw [Nat.le_antisymm h₂ h₁]
            exact ⟨hk, hd⟩⟩
        constructor
        · intro he _ hb'
          have hbold := congrArg Attr.bold he
          exact hbold.symm.trans hb'
        · intro hdim
          have hbold : b = (colorOf col k).bold :=
            Bool.eq_iff_iff.mpr ⟨hdim rfl, hback⟩
          rw [hbold]

/-- **The colors on the terminal.**  A slice leaves its chars with the attributes of their colors,
selected ones in reverse video only, and the default attributes, exactly when no column of a color
that is not bold has one of a bold color in front of it, in the slice and with neither a column of
the default color nor a selected one from there on. -/
theorem sgr_iff (m : SyntaxMode) (columns : Nat) (vline : List UInt8) {first : Int} (last : Int)
    (sel : Option (Int → Bool)) (h₀ : 0 ≤ first) (row : Nat) (cells : Screenful Attr) :
    let x := ecma48.feed row (syntaxWriteSlice m columns vline first last sel) first ecma48.plain
      cells
    (x.2 = ecma48.plain ∧ ∀ (li : Nat) (k : Int), x.1 li k =
      if li = row ∧ first ≤ k ∧ k ≤ last ∧ k < columns then
        (vline.getD k.toNat 0, ownLook m columns vline sel k.toNat)
      else cells li k) ↔
    ∀ k : Nat, first ≤ k → k ≤ last → k < columns →
      Dims (lineColor m columns vline) (marked sel) first.toNat k := by
  intro x
  obtain ⟨ce, hce⟩ : ∃ ce : Int, ce = if last ≥ columns then (columns : Int) - 1 else last :=
    ⟨_, rfl⟩
  have hrange : ∀ k : Int, k ≤ ce ↔ k ≤ last ∧ k < columns := by
    intro k
    rw [hce]
    split <;> omega
  have hle : ¬ce ≥ columns := by
    have := (hrange ce).mp (Int.le_refl ce)
    omega
  have hslice : syntaxWriteSlice m columns vline first last sel =
      syntaxWriteSlice m columns vline first ce sel := by
    unfold syntaxWriteSlice
    dsimp only
    rw [if_neg hle, ← hce]
  by_cases hempty : ce < first
  · -- nothing is written
    have hx : x = (cells, ecma48.plain) := by
      have hnil : syntaxWriteSlice m columns vline first ce sel = [] := by
        unfold syntaxWriteSlice
        dsimp only
        rw [if_neg hle, if_pos hempty]
      change ecma48.feed row (syntaxWriteSlice m columns vline first last sel) first _ cells = _
      rw [hslice, hnil]
      rfl
    refine iff_of_true ⟨by rw [hx], fun li k => ?_⟩ fun k h₁ h₂ h₃ => ?_
    · rw [hx, if_neg]
      rintro ⟨-, h₁, h₂⟩
      have := (hrange k).mpr h₂
      omega
    · have := (hrange k).mpr ⟨h₂, by omega⟩
      omega
  · have hwrite := Terminal.writeSlice_cells (T := ecma48) m columns ⟨row, vline, first, ce, sel⟩
      cells h₀ (Int.not_lt.mp hempty) (Int.not_le.mp hle)
    have hx : ecma48.writeSlice m columns (cells, ecma48.plain) ⟨row, vline, first, ce, sel⟩ =
        x := by
      change ecma48.feed row (syntaxWriteSlice m columns vline first ce sel) first _ cells = x
      rw [← hslice]
    rw [hx] at hwrite
    obtain ⟨hplain, hcells⟩ := hwrite
    dsimp only at hcells
    constructor
    · rintro ⟨-, hlook⟩ k h₁ h₂ h₃
      have hk := (hcells row k).symm.trans (hlook row k)
      rw [if_pos ⟨rfl, h₁, (hrange k).mpr ⟨h₂, by omega⟩⟩, if_pos ⟨rfl, h₁, h₂, by omega⟩,
        Int.toNat_natCast] at hk
      exact (columnPen_own (by omega)).mp (congrArg Prod.snd hk)
    · intro hdims
      refine ⟨hplain, fun li k => ?_⟩
      rw [hcells]
      by_cases hk : li = row ∧ first ≤ k ∧ k ≤ last ∧ k < columns
      · have hdim := hdims k.toNat (by omega) (by omega) (by omega)
        rw [if_pos hk, if_pos ⟨hk.1, hk.2.1, (hrange k).mpr hk.2.2⟩]
        congr 1
        exact (columnPen_own (by omega)).mpr hdim
      · rw [if_neg hk, if_neg]
        rintro ⟨h₁, h₂, h₃⟩
        exact hk ⟨h₁, h₂, (hrange k).mp h₃⟩

/-- A key, a colon and a number: the colon resets. -/
theorem sgr_iff_key :
    let line := str "\"a\":1 "
    let x := ecma48.feed 0 (syntaxWriteSlice .json 6 line 0 5 none) 0 ecma48.plain
      fun _ _ => (32, .plain)
    (x.2 = ecma48.plain ∧ ∀ (li : Nat) (k : Int), x.1 li k =
      if li = 0 ∧ 0 ≤ k ∧ k ≤ 5 ∧ k < (6 : Nat) then
        (line.getD k.toNat 0, ownLook .json 6 line none k.toNat) else (32, .plain)) ↔
    ∀ k : Nat, (0 : Int) ≤ k → (k : Int) ≤ 5 → k < 6 →
      Dims (lineColor .json 6 line) (marked none) (0 : Int).toNat k :=
  sgr_iff .json 6 (str "\"a\":1 ") 5 none (Int.le_refl 0) 0 fun _ _ => (32, .plain)

/-- A string in brackets: the opening quote is drawn bright. -/
theorem sgr_brightens :
    ¬∀ (m : SyntaxMode) (columns : Nat) (vline : List UInt8) (first last : Int)
      (sel : Option (Int → Bool)), 0 ≤ first → ∀ (row : Nat) (cells : Screenful Attr),
      (ecma48.feed row (syntaxWriteSlice m columns vline first last sel) first ecma48.plain
          cells).2 = ecma48.plain ∧
        ∀ (li : Nat) (k : Int), (ecma48.feed row (syntaxWriteSlice m columns vline first last sel)
          first ecma48.plain cells).1 li k =
          if li = row ∧ first ≤ k ∧ k ≤ last ∧ k < columns then
            (vline.getD k.toNat 0, ownLook m columns vline sel k.toNat)
          else cells li k := by
  intro h
  have hcell := (h .json 5 (str "[\"a\"]") 0 4 none (Int.le_refl 0) 0 fun _ _ => (32, .plain)).2 0 1
  exact absurd hcell (by decide +kernel)

end Evim
