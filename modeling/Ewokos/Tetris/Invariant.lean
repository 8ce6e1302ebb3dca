import Mathlib
import Ewokos.Tetris.Game

/-!
# sdl_tetris: the grid invariant

While the game runs, row 0 is empty, no row is full, no row is marked, and the piece lies on empty
cells.  A lock keeps this unless it stores a cell in row 0, which is when it ends the game: row 0
is never full (a piece spans at most five columns), and a piece that has landed and reaches above
the top crosses row 0, because its rows are contiguous.
-/

set_option autoImplicit false

namespace Tetris

/-! ## Shapes -/

/-- The blocks of `s` are at its position and close to it, and leave out no row or column between
them. -/
structure Shape.Good (s : Shape) : Prop where
  center : (0, 0) ∈ s
  near : ∀ c ∈ s, -2 ≤ c.1 ∧ c.1 ≤ 2 ∧ -2 ≤ c.2 ∧ c.2 ≤ 2
  cols : ∀ c ∈ s, ∀ d ∈ s, ∀ k, c.1 ≤ k → k ≤ d.1 → ∃ e ∈ s, e.1 = k
  rows : ∀ c ∈ s, ∀ d ∈ s, ∀ k, c.2 ≤ k → k ≤ d.2 → ∃ e ∈ s, e.2 = k

/-- `Shape.Good`, checked between -2 and 2. -/
def Shape.check (s : Shape) : Bool :=
  s.contains (0, 0) && (s.all fun c => -2 ≤ c.1 && c.1 ≤ 2 && (-2 ≤ c.2 && c.2 ≤ 2)) &&
    [-2, -1, 0, 1, 2].all fun k =>
      (s.all fun c => s.all fun d => !(c.1 ≤ k && k ≤ d.1) || s.any fun e => e.1 == k) &&
        s.all fun c => s.all fun d => !(c.2 ≤ k && k ≤ d.2) || s.any fun e => e.2 == k

theorem Shape.good_of_check {s : Shape} (h : s.check = true) : s.Good := by
  simp only [Shape.check, Bool.and_eq_true, List.all_eq_true, decide_eq_true_eq,
    Bool.or_eq_true, Bool.not_eq_true', List.any_eq_true, beq_iff_eq, List.contains_iff_mem] at h
  obtain ⟨⟨center, hnear⟩, hk⟩ := h
  have near : ∀ c ∈ s, -2 ≤ c.1 ∧ c.1 ≤ 2 ∧ -2 ≤ c.2 ∧ c.2 ≤ 2 := by
    intro c hc
    have := hnear c hc
    omega
  have between : ∀ k : Int, -2 ≤ k → k ≤ 2 → k ∈ [-2, -1, 0, 1, 2] := by
    intro k h₁ h₂
    simp only [List.mem_cons, List.not_mem_nil, or_false]
    omega
  refine ⟨center, near, ?_, ?_⟩
  · intro c hc d hd k hck hkd
    have hc' := near c hc
    have hd' := near d hd
    rcases (hk k (between k (by omega) (by omega))).1 c hc d hd with h | h
    · simp [hck, hkd] at h
    · exact h
  · intro c hc d hd k hck hkd
    have hc' := near c hc
    have hd' := near d hd
    rcases (hk k (between k (by omega) (by omega))).2 c hc d hd with h | h
    · simp [hck, hkd] at h
    · exact h

theorem shapes_good (n : Nat) : (SHAPES.getD (n % N_SHAPES) []).Good := by
  have hall : ∀ s ∈ SHAPES, s.check = true := by decide
  have hlt : n % N_SHAPES < SHAPES.length := Nat.mod_lt n (by decide)
  rw [List.getD_eq_getElem _ _ hlt]
  exact Shape.good_of_check (hall _ (List.getElem_mem hlt))

/-- A quarter turn exchanges rows and columns. -/
theorem Shape.Good.rotate {s : Shape} (h : s.Good) : Shape.Good (s.map fun c => (c.2, -c.1)) := by
  refine ⟨List.mem_map.mpr ⟨(0, 0), h.center, rfl⟩, ?_, ?_, ?_⟩
  · intro c hc
    obtain ⟨d, hd, rfl⟩ := List.mem_map.mp hc
    have := h.near d hd
    dsimp only
    omega
  · intro c hc d hd k hck hkd
    obtain ⟨c', hc', rfl⟩ := List.mem_map.mp hc
    obtain ⟨d', hd', rfl⟩ := List.mem_map.mp hd
    obtain ⟨e, he, hek⟩ := h.rows c' hc' d' hd' k hck hkd
    exact ⟨_, List.mem_map.mpr ⟨e, he, rfl⟩, hek⟩
  · intro c hc d hd k hck hkd
    obtain ⟨c', hc', rfl⟩ := List.mem_map.mp hc
    obtain ⟨d', hd', rfl⟩ := List.mem_map.mp hd
    dsimp only at hck hkd
    obtain ⟨e, he, hek⟩ := h.cols d' hd' c' hc' (-k) (by omega) (by omega)
    refine ⟨_, List.mem_map.mpr ⟨e, he, rfl⟩, ?_⟩
    dsimp only
    omega

/-! ## The invariant -/

/-- Row `y` has no empty cell. -/
def Grid.RowFull (grid : Grid) (y : Int) : Prop := ∀ x : Int, 0 ≤ x → x < GRID_WIDTH → grid x y ≠ 0

namespace Game

/-- What holds while the game runs. -/
structure Running (g : Game) : Prop where
  rowZero : ∀ x : Int, 0 ≤ x → x < GRID_WIDTH → g.grid x 0 = 0
  noFull : ∀ y : Int, 0 ≤ y → y < GRID_HEIGHT → ¬ g.grid.RowFull y
  noMark : ∀ y, g.toDestroy y = false
  inside : ∀ c ∈ g.cells, 0 ≤ c.1 ∧ c.1 < GRID_WIDTH ∧ c.2 < GRID_HEIGHT
  free : ∀ c ∈ g.cells, 0 ≤ c.2 → g.grid c.1 c.2 = 0

/-- The invariant of `game_loop`: what also holds once the game is over, and `Running`. -/
structure Inv (g : Game) : Prop where
  good : g.currentShape.Good
  noMark : ∀ y, g.toDestroy y = false
  low : -2 ≤ g.currentY
  running : g.gameOver = false → g.Running

theorem mem_cellsAt {g : Game} {x y : Int} {c : Int × Int} :
    c ∈ g.cellsAt x y ↔ ∃ d ∈ g.currentShape, c = (d.1 + x, d.2 + y) := by
  simp [cellsAt, eq_comm]

theorem mem_cells {g : Game} {c : Int × Int} :
    c ∈ g.cells ↔ ∃ d ∈ g.currentShape, c = (d.1 + g.currentX, d.2 + g.currentY) :=
  mem_cellsAt

/-- The cells leave out no row between them. -/
theorem cells_rows {g : Game} (hg : g.currentShape.Good) {c d : Int × Int} (hc : c ∈ g.cells)
    (hd : d ∈ g.cells) {k : Int} (hck : c.2 ≤ k) (hkd : k ≤ d.2) : ∃ e ∈ g.cells, e.2 = k := by
  obtain ⟨c', hc', rfl⟩ := mem_cells.mp hc
  obtain ⟨d', hd', rfl⟩ := mem_cells.mp hd
  dsimp only at hck hkd
  obtain ⟨e, he, hek⟩ := hg.rows c' hc' d' hd' (k - g.currentY) (by omega) (by omega)
  refine ⟨_, mem_cells.mpr ⟨e, he, rfl⟩, ?_⟩
  dsimp only
  omega

/-- A column of the grid that no cell of the piece is in. -/
theorem exists_column {g : Game} (hg : g.currentShape.Good) :
    ∃ x : Int, 0 ≤ x ∧ x < GRID_WIDTH ∧ ∀ c ∈ g.cells, c.1 ≠ x := by
  by_cases hx : g.currentX ≤ 4
  · refine ⟨9, by decide, by decide, ?_⟩
    intro c hc
    obtain ⟨d, hd, rfl⟩ := mem_cells.mp hc
    have := hg.near d hd
    dsimp only
    omega
  · refine ⟨0, by decide, by decide, ?_⟩
    intro c hc
    obtain ⟨d, hd, rfl⟩ := mem_cells.mp hc
    have := hg.near d hd
    dsimp only
    omega

/-- The coordinates, and the ones tried around them, fit in an `int8_t`. -/
theorem Inv.int8 {g : Game} (hg : g.Inv) (hrun : g.gameOver = false) :
    ∀ d ∈ g.currentShape, -128 < d.1 + g.currentX - 1 ∧ d.1 + g.currentX + 1 < 128 ∧
      -128 < d.2 + g.currentY ∧ d.2 + g.currentY + 1 < 128 ∧ -128 < g.currentX ∧
      g.currentX < 128 ∧ g.currentY < 127 := by
  intro d hd
  have hnear := hg.good.near d hd
  have hlow := hg.low
  have hpos := (hg.running hrun).inside _ (mem_cells.mpr ⟨_, hg.good.center, rfl⟩)
  simp only [Int.zero_add, GRID_WIDTH, GRID_HEIGHT] at hpos
  omega

theorem detectCollision_eq_false {g : Game} {x y : Int} :
    g.detectCollision x y = false ↔
      (0 ≤ x ∧ x < GRID_WIDTH ∧ y < GRID_HEIGHT) ∧ (0 ≤ y → g.grid x y = 0) := by
  unfold detectCollision
  split
  · simp only [Bool.true_eq_false, false_iff]
    omega
  · split
    · simp only [Bool.true_eq_false, false_iff]
      omega
    · simp only [bne, Bool.and_eq_false_iff, decide_eq_false_iff_not, Bool.not_eq_false', beq_iff_eq,
        ge_iff_le]
      constructor
      · intro h
        exact ⟨by omega, fun hy => h.resolve_left (by omega)⟩
      · intro h
        by_cases hy : 0 ≤ y
        · exact Or.inr (h.2 hy)
        · exact Or.inl hy

/-! ## A new piece -/

/-- The search stops where it began or where nothing is in the way. -/
theorem descend_spec (g : Game) : ∀ (n : Nat) (y : Int), y ≤ g.descend n y ∧
    g.descend n y ≤ y + n ∧ (g.descend n y = y ∨ g.blocked (g.descend n y) = false)
  | 0, y => ⟨le_refl y, by simp [descend], Or.inl rfl⟩
  | n + 1, y => by
    unfold descend
    split
    · exact ⟨le_refl y, by omega, Or.inl rfl⟩
    · rename_i hfree
      obtain ⟨h₁, h₂, h₃⟩ := descend_spec g n (y + 1)
      refine ⟨by omega, by push_cast; omega, Or.inr ?_⟩
      rcases h₃ with h₃ | h₃
      · rw [h₃]
        simpa using hfree
      · exact h₃

/-- `spawn_shape` puts the piece on empty cells, because row 0 is empty. -/
theorem spawnShape_inv (r₁ r₂ : Nat) {g : Game} (hmark : ∀ y, g.toDestroy y = false)
    (hrun : g.gameOver = false → (∀ x : Int, 0 ≤ x → x < GRID_WIDTH → g.grid x 0 = 0) ∧
      ∀ y : Int, 0 ≤ y → y < GRID_HEIGHT → ¬ g.grid.RowFull y) :
    (g.spawnShape r₁ r₂).Inv := by
  have hgood : (g.spawnShape r₁ r₂).currentShape.Good := shapes_good r₁
  obtain ⟨hlo, hhi, hfree⟩ := descend_spec { g with
    stateChanged := true
    currentShapeType := r₁ % N_SHAPES
    currentShapeColor := r₂ % (N_COLORS - 1) + 1
    currentShape := SHAPES.getD (r₁ % N_SHAPES) []
    currentX := (GRID_WIDTH / 2 : Nat) } 2 (-2)
  change -2 ≤ (g.spawnShape r₁ r₂).currentY at hlo
  change (g.spawnShape r₁ r₂).currentY ≤ -2 + (2 : Nat) at hhi
  change (g.spawnShape r₁ r₂).currentY = -2 ∨
    (g.spawnShape r₁ r₂).blocked (g.spawnShape r₁ r₂).currentY = false at hfree
  have hx : (g.spawnShape r₁ r₂).currentX = 5 := rfl
  refine ⟨hgood, hmark, hlo, ?_⟩
  intro hover
  obtain ⟨hzero, hfull⟩ := hrun hover
  refine ⟨hzero, hfull, hmark, ?_, ?_⟩
  · intro c hc
    obtain ⟨d, hd, rfl⟩ := mem_cells.mp hc
    have := hgood.near d hd
    simp only [hx, GRID_WIDTH, GRID_HEIGHT]
    omega
  · intro c hc hy
    rcases hfree with hfree | hfree
    · obtain ⟨d, hd, rfl⟩ := mem_cells.mp hc
      have := hgood.near d hd
      dsimp only at hy ⊢
      rw [show d.2 + (g.spawnShape r₁ r₂).currentY = 0 by omega]
      refine hzero _ ?_ ?_
      · rw [hx]
        omega
      · simp only [hx, GRID_WIDTH]
        omega
    · simp only [blocked, List.any_eq_false, Bool.and_eq_true, decide_eq_true_eq, bne_iff_ne,
        not_and, not_not] at hfree
      exact hfree c hc hy

/-! ## Full rows -/

theorem copyRows_apply : ∀ (n : Nat) (grid : Grid) (x y : Int), copyRows n grid x y =
    if 0 ≤ x ∧ x < GRID_WIDTH ∧ 1 ≤ y ∧ y ≤ n then grid x (y - 1) else grid x y
  | 0, grid, x, y => by
    rw [if_neg (by omega)]
    rfl
  | n + 1, grid, x, y => by
    rw [copyRows, copyRows_apply n]
    simp only [copyRow]
    by_cases hx : 0 ≤ x ∧ x < GRID_WIDTH
    · by_cases hy : y = (n + 1 : Nat)
      · rw [if_neg (by omega), if_pos ⟨hx.1, hx.2, hy⟩, if_pos (by omega), hy]
      · by_cases hlow : 1 ≤ y ∧ y ≤ n
        · rw [if_pos (by omega), if_neg (by omega), if_pos (by omega)]
        · rw [if_neg (by omega), if_neg (by omega), if_neg (by omega)]
    · rw [if_neg (by omega), if_neg (by omega), if_neg (by omega)]

/-- The rows below `j` are not full, and from `j` on the full rows are the marked ones. -/
structure Marked (j : Int) (g : Game) : Prop where
  above : ∀ y, 0 ≤ y → y < j → ¬ g.grid.RowFull y
  full : ∀ y : Int, j ≤ y → y < GRID_HEIGHT → g.grid.RowFull y → g.toDestroy y = true
  mark : ∀ y, g.toDestroy y = true → j ≤ y ∧ 0 < y ∧ y < GRID_HEIGHT

theorem destroyRow_grid (g : Game) (row : Nat) : (g.destroyRow row).grid = copyRows row g.grid := by
  simp only [destroyRow]
  split <;> rfl

/-- What `destroy_row` leaves as it is. -/
theorem destroyRow_frame (g : Game) (row : Nat) :
    (g.destroyRow row).toDestroy = g.toDestroy ∧ (g.destroyRow row).gameOver = g.gameOver := by
  simp only [destroyRow]
  split <;> exact ⟨rfl, rfl⟩

/-- The grid after row `j` is destroyed: the rows above it have moved down. -/
theorem destroy_grid (g : Game) {j : Nat} (hj : 0 < j) {x : Int} (hx : 0 ≤ x)
    (hx' : x < GRID_WIDTH) (y : Int) :
    (destroyRow { g with
      toDestroy := Function.update g.toDestroy j false
      grid := fun x y => if 0 ≤ x ∧ x < GRID_WIDTH ∧ y = j then 0 else g.grid x y } j).grid x y =
        if 1 ≤ y ∧ y ≤ j then g.grid x (y - 1) else g.grid x y := by
  rw [destroyRow_grid, copyRows_apply]
  dsimp only
  by_cases hy : 1 ≤ y ∧ y ≤ j
  · rw [if_pos ⟨hx, hx', hy⟩, if_neg (by omega), if_pos hy]
  · rw [if_neg (by omega), if_neg (by omega), if_neg hy]

/-- One row of `clean_destroyed_blocks` that is destroyed. -/
theorem Marked.destroy {j : Nat} {g : Game} (h : g.Marked j) (hzero : ¬ g.grid.RowFull 0)
    (hj : 0 < j) :
    (destroyRow { g with
      toDestroy := Function.update g.toDestroy j false
      grid := fun x y => if 0 ≤ x ∧ x < GRID_WIDTH ∧ y = j then 0 else g.grid x y } j).Marked
        ((j + 1 : Nat) : Int) := by
  refine ⟨?_, ?_, ?_⟩
  · intro y hy₁ hy₂ hfull
    push_cast at hy₂
    by_cases hy : y = 0
    · subst hy
      refine hzero fun x h₁ h₂ => ?_
      have hx := hfull x h₁ h₂
      rwa [destroy_grid g hj h₁ h₂, if_neg (by omega)] at hx
    · -- row `y` was the row above
      refine h.above (y - 1) (by omega) (by omega) fun x h₁ h₂ => ?_
      have hx := hfull x h₁ h₂
      rwa [destroy_grid g hj h₁ h₂, if_pos (by omega)] at hx
  · intro y hy₁ hy₂ hfull
    push_cast at hy₁
    rw [(destroyRow_frame _ _).1]
    dsimp only
    rw [Function.update_of_ne (by omega)]
    refine h.full y (by omega) hy₂ fun x h₁ h₂ => ?_
    have hx := hfull x h₁ h₂
    rwa [destroy_grid g hj h₁ h₂, if_neg (by omega)] at hx
  · intro y hy
    rw [(destroyRow_frame _ _).1] at hy
    by_cases hyj : y = j
    · simp [hyj] at hy
    · dsimp only at hy
      rw [Function.update_of_ne hyj] at hy
      have hm := h.mark y hy
      exact ⟨by push_cast; omega, hm.2⟩

/-- One row of `clean_destroyed_blocks` that is not destroyed. -/
theorem Marked.keep {j : Nat} {g : Game} (h : g.Marked j) (hj : j < GRID_HEIGHT)
    (hmark : ¬ g.toDestroy j = true) : g.Marked ((j + 1 : Nat) : Int) := by
  refine ⟨?_, ?_, ?_⟩
  · intro y hy₁ hy₂ hfull
    push_cast at hy₂
    by_cases hy : y = j
    · subst hy
      exact hmark (h.full j (le_refl _) (by omega) hfull)
    · exact h.above y hy₁ (by omega) hfull
  · intro y hy₁ hy₂ hfull
    push_cast at hy₁
    exact h.full y (by omega) hy₂ hfull
  · intro y hy
    have hne : y ≠ j := by
      rintro rfl
      exact hmark hy
    have hm := h.mark y hy
    exact ⟨by push_cast; omega, hm.2⟩

/-- `clean_destroyed_blocks`: no full row and no mark is left, and row 0 is as it was. -/
theorem cleanRows_spec : ∀ (n j count : Nat) (g : Game), j + n = GRID_HEIGHT → g.Marked j →
    ¬ g.grid.RowFull 0 →
    ((cleanRows n j count g).2.Marked GRID_HEIGHT ∧
      (∀ x : Int, 0 ≤ x → x < GRID_WIDTH → (cleanRows n j count g).2.grid x 0 = g.grid x 0) ∧
      (cleanRows n j count g).2.gameOver = g.gameOver)
  | 0, j, count, g, hn, hg, hzero => by
    have hj : j = GRID_HEIGHT := by omega
    subst hj
    exact ⟨hg, fun x _ _ => rfl, rfl⟩
  | n + 1, j, count, g, hn, hg, hzero => by
    unfold cleanRows
    split
    · rename_i hmark
      have hj : 0 < j := by
        have := (hg.mark j hmark).2.1
        omega
      have hrow : ∀ x : Int, 0 ≤ x → x < GRID_WIDTH → (destroyRow { g with
          toDestroy := Function.update g.toDestroy j false
          grid := fun x y => if 0 ≤ x ∧ x < GRID_WIDTH ∧ y = j then 0 else g.grid x y } j).grid x 0 =
            g.grid x 0 := by
        intro x h₁ h₂
        rw [destroy_grid g hj h₁ h₂, if_neg (by omega)]
      obtain ⟨h₁, h₂, h₃⟩ := cleanRows_spec n (j + 1) (count + 1) _ (by omega)
        (hg.destroy hzero hj) fun hfull => hzero fun x h₁ h₂ => by
          rw [← hrow x h₁ h₂]
          exact hfull x h₁ h₂
      refine ⟨h₁, ?_, ?_⟩
      · intro x hx hx'
        rw [h₂ x hx hx', hrow x hx hx']
      · rw [h₃, (destroyRow_frame _ _).2]
    · rename_i hmark
      exact cleanRows_spec n (j + 1) count g (by omega) (hg.keep (by omega) hmark) hzero

theorem cleanDestroyedBlocks_spec {g : Game} (hg : g.Marked 0) (hzero : ¬ g.grid.RowFull 0) :
    g.cleanDestroyedBlocks.Marked GRID_HEIGHT ∧
      (∀ x : Int, 0 ≤ x → x < GRID_WIDTH → g.cleanDestroyedBlocks.grid x 0 = g.grid x 0) ∧
      g.cleanDestroyedBlocks.gameOver = g.gameOver := by
  obtain ⟨h₁, h₂, h₃⟩ := cleanRows_spec GRID_HEIGHT 0 0 g rfl hg hzero
  unfold cleanDestroyedBlocks
  generalize cleanRows GRID_HEIGHT 0 0 g = r at h₁ h₂ h₃
  obtain ⟨count, g'⟩ := r
  dsimp only at h₁ h₂ h₃ ⊢
  split
  · exact ⟨⟨h₁.above, h₁.full, h₁.mark⟩, h₂, h₃⟩
  · exact ⟨h₁, h₂, h₃⟩

/-! ## Locking -/

/-- What `row_is_full` leaves as it is. -/
theorem rowIsFull_frame (g : Game) (y : Int) :
    (g.rowIsFull y).2.grid = g.grid ∧ (g.rowIsFull y).2.gameOver = g.gameOver := by
  unfold rowIsFull
  split
  · exact ⟨rfl, rfl⟩
  · split <;> exact ⟨rfl, rfl⟩

/-- A row that has a `0` is not full. -/
theorem rowFull_iff (grid : Grid) (y : Int) :
    grid.RowFull y ↔ ((List.range GRID_WIDTH).any fun i => grid i y == 0) = false := by
  simp only [List.any_eq_false, List.mem_range, beq_iff_eq]
  constructor
  · intro h i hi
    exact h i (by omega) (by omega)
  · intro h x h₁ h₂
    have := h x.toNat (by omega)
    rwa [Int.toNat_of_nonneg h₁] at this

/-- `row_is_full` marks the row when it is full; a row above the top counts as full. -/
theorem rowIsFull_mark (g : Game) (y : Int) (hzero : ¬ g.grid.RowFull 0)
    (hmark : ∀ y, g.toDestroy y = true → 0 < y ∧ y < GRID_HEIGHT) (hy : y < GRID_HEIGHT) :
    (0 ≤ y → g.grid.RowFull y → (g.rowIsFull y).2.toDestroy y = true) ∧
      (∀ y', g.toDestroy y' = true → (g.rowIsFull y).2.toDestroy y' = true) ∧
      (∀ y', (g.rowIsFull y).2.toDestroy y' = true → 0 < y' ∧ y' < GRID_HEIGHT) ∧
      ((g.rowIsFull y).1 = false → 0 ≤ y ∧ (g.rowIsFull y).2.toDestroy = g.toDestroy) ∧
      (y = 0 → (g.rowIsFull y).1 = false) := by
  unfold rowIsFull
  split
  · rename_i h
    refine ⟨fun h₀ _ => h.resolve_left (by omega), fun _ h => h, hmark, by simp, ?_⟩
    rintro rfl
    rcases h with h | h
    · omega
    · have := hmark 0 h
      omega
  · rename_i h
    split
    · rename_i hany
      refine ⟨?_, fun _ h => h, hmark, fun _ => ⟨by omega, rfl⟩, fun _ => rfl⟩
      intro _ hfull
      rw [rowFull_iff] at hfull
      simp [hfull] at hany
    · rename_i hany
      have hfull : g.grid.RowFull y := (rowFull_iff _ _).mpr (by simpa using hany)
      have hy₀ : y ≠ 0 := by
        rintro rfl
        exact hzero hfull
      refine ⟨fun _ _ => Function.update_self .., ?_, ?_, by simp, by simp [hy₀]⟩
      · intro y' h'
        by_cases hyy : y' = y
        · simp [hyy]
        · dsimp only
          rwa [Function.update_of_ne hyy]
      · intro y' h'
        by_cases hyy : y' = y
        · omega
        · dsimp only at h'
          rw [Function.update_of_ne hyy] at h'
          exact hmark y' h'

/-- `lock_shape` stores `c` (inside the grid). -/
def store (g : Game) (c : Int × Int) : Game :=
  if c.1 ≥ 0 ∧ c.1 < GRID_WIDTH ∧ c.2 ≥ 0 ∧ c.2 < GRID_HEIGHT then
    { g with grid := fun i j => if i = c.1 ∧ j = c.2 then g.currentShapeColor else g.grid i j }
  else g

theorem store_grid (g : Game) {c : Int × Int} (h : 0 ≤ c.1 ∧ c.1 < GRID_WIDTH ∧ c.2 < GRID_HEIGHT)
    (x y : Int) : (g.store c).grid x y =
      if x = c.1 ∧ y = c.2 ∧ 0 ≤ y then g.currentShapeColor else g.grid x y := by
  unfold store
  by_cases hc : 0 ≤ c.2
  · rw [if_pos ⟨h.1, h.2.1, hc, h.2.2⟩]
    dsimp only
    by_cases hxy : x = c.1 ∧ y = c.2
    · rw [if_pos hxy, if_pos ⟨hxy.1, hxy.2, by omega⟩]
    · rw [if_neg hxy, if_neg (by tauto)]
  · rw [if_neg (by omega), if_neg (by omega)]

/-- What storing a cell leaves as it is. -/
theorem store_frame (g : Game) (c : Int × Int) :
    (g.store c).toDestroy = g.toDestroy ∧ (g.store c).gameOver = g.gameOver := by
  unfold store
  split <;> exact ⟨rfl, rfl⟩

/-- The round of `lock_shape` for one cell. -/
def lockCell (g : Game) (c : Int × Int) : Bool × Game :=
  match (g.store c).rowIsFull c.2 with
  | (true, g) => (true, g)
  | (false, g) => (false, if c.2 ≤ 0 then g.endGame else g)

theorem lockCells_cons (c : Int × Int) (cells : List (Int × Int)) (full : Nat) (g : Game) :
    lockCells (c :: cells) full g =
      lockCells cells (if (g.lockCell c).1 then full + 1 else full) (g.lockCell c).2 := by
  obtain ⟨x, y⟩ := c
  simp only [lockCells, lockCell, store]
  generalize (if x ≥ 0 ∧ x < (GRID_WIDTH : Int) ∧ y ≥ 0 ∧ y < (GRID_HEIGHT : Int) then
    { g with grid := fun i j => if i = x ∧ j = y then g.currentShapeColor else g.grid i j }
    else g).rowIsFull y = r
  obtain ⟨b, g'⟩ := r
  cases b <;> rfl

/-- One cell: the full rows are marked, and the game ends if the cell is in row 0. -/
theorem lockCell_spec (g : Game) {c : Int × Int} (hg : g.Marked 0)
    (hc : 0 ≤ c.1 ∧ c.1 < GRID_WIDTH ∧ c.2 < GRID_HEIGHT)
    {x : Int} (hx : 0 ≤ x ∧ x < GRID_WIDTH) (hxc : c.1 ≠ x) (hfree : g.grid x 0 = 0) :
    (g.lockCell c).2.Marked 0 ∧ (g.lockCell c).2.grid = (g.store c).grid ∧
      ((g.lockCell c).1 = false → (g.lockCell c).2.toDestroy = g.toDestroy) ∧
      ((g.lockCell c).2.gameOver = true ↔ g.gameOver = true ∨ c.2 = 0) := by
  have hzero : ¬ (g.store c).grid.RowFull 0 := by
    intro hfull
    refine hfull x hx.1 hx.2 ?_
    rw [store_grid g hc, if_neg (by tauto), hfree]
  obtain ⟨hs₁, hs₂⟩ := g.store_frame c
  have hmark : ∀ y, (g.store c).toDestroy y = true → 0 < y ∧ y < GRID_HEIGHT := by
    intro y h
    rw [hs₁] at h
    exact (hg.mark y h).2
  obtain ⟨hf₁, hf₂⟩ := (g.store c).rowIsFull_frame c.2
  obtain ⟨hm₁, hm₂, hm₃, hm₄, hm₅⟩ := (g.store c).rowIsFull_mark c.2 hzero hmark hc.2.2
  have hMarked : ((g.store c).rowIsFull c.2).2.Marked 0 := by
    refine ⟨?_, ?_, ?_⟩
    · intro y h₁ h₂
      omega
    · intro y h₁ h₂ hfull
      rw [hf₁] at hfull
      by_cases hy : y = c.2
      · subst hy
        exact hm₁ h₁ hfull
      · refine hm₂ y ?_
        rw [hs₁]
        refine hg.full y h₁ h₂ fun i hi hi' => ?_
        have := hfull i hi hi'
        rwa [store_grid g hc, if_neg (by tauto)] at this
    · intro y h
      have := hm₃ y h
      omega
  unfold lockCell
  generalize (g.store c).rowIsFull c.2 = r at hf₁ hf₂ hm₁ hm₂ hm₃ hm₄ hm₅ hMarked
  obtain ⟨b, g'⟩ := r
  cases b with
  | true =>
    dsimp only at hf₁ hf₂ hMarked ⊢
    refine ⟨hMarked, hf₁, by simp, ?_⟩
    have : c.2 ≠ 0 := fun h => by simpa using hm₅ h
    simp [hf₂, hs₂, this]
  | false =>
    obtain ⟨hle, hsame⟩ := hm₄ rfl
    dsimp only at hle hsame hf₁ hf₂ hMarked ⊢
    split
    · refine ⟨⟨hMarked.above, hMarked.full, hMarked.mark⟩, hf₁, ?_, ?_⟩
      · intro _
        exact hsame.trans hs₁
      · have : c.2 = 0 := by omega
        simp [endGame, this]
    · refine ⟨hMarked, hf₁, fun _ => hsame.trans hs₁, ?_⟩
      have : c.2 ≠ 0 := by omega
      simp [hf₂, hs₂, this]

/-- The cells of `lock_shape`: the full rows are marked and counted, and the game ends iff a cell
is stored in row 0. -/
theorem lockCells_spec : ∀ (cells : List (Int × Int)) (full : Nat) (g : Game), g.Marked 0 →
    (∀ c ∈ cells, 0 ≤ c.1 ∧ c.1 < GRID_WIDTH ∧ c.2 < GRID_HEIGHT) →
    ∀ {x : Int}, 0 ≤ x ∧ x < GRID_WIDTH → (∀ c ∈ cells, c.1 ≠ x) → g.grid x 0 = 0 →
    (full = 0 → ∀ y, g.toDestroy y = false) →
    ((lockCells cells full g).2.Marked 0 ∧ (lockCells cells full g).2.grid x 0 = 0 ∧
      ((∀ c ∈ cells, c.2 ≠ 0) → ∀ i, (lockCells cells full g).2.grid i 0 = g.grid i 0) ∧
      ((lockCells cells full g).1 = 0 → ∀ y, (lockCells cells full g).2.toDestroy y = false) ∧
      ((lockCells cells full g).2.gameOver = true ↔ g.gameOver = true ∨ ∃ c ∈ cells, c.2 = 0))
  | [], full, g, hg, _, x, _, _, hfree, hcount =>
    ⟨hg, hfree, fun _ _ => rfl, hcount, by simp [lockCells]⟩
  | c :: cells, full, g, hg, hin, x, hx, hne, hfree, hcount => by
    have hc := hin c (List.mem_cons_self ..)
    have hxc := hne c (List.mem_cons_self ..)
    obtain ⟨hg', hgrid, hmark, hover⟩ := g.lockCell_spec hg hc hx hxc hfree
    rw [lockCells_cons]
    have hfree' : (g.lockCell c).2.grid x 0 = 0 := by
      rw [hgrid, store_grid g hc, if_neg (by tauto), hfree]
    obtain ⟨h₁, h₂, h₃, h₄, h₅⟩ := lockCells_spec cells
      (if (g.lockCell c).1 then full + 1 else full) (g.lockCell c).2 hg'
      (fun c hc => hin c (List.mem_cons_of_mem _ hc)) hx
      (fun c hc => hne c (List.mem_cons_of_mem _ hc)) hfree' (by
        intro h y
        cases hb : (g.lockCell c).1 with
        | true => simp [hb] at h
        | false =>
          rw [hmark hb]
          exact hcount (by simpa [hb] using h) y)
    refine ⟨h₁, h₂, ?_, h₄, ?_⟩
    · intro hrow i
      rw [h₃ (fun c hc => hrow c (List.mem_cons_of_mem _ hc)) i, hgrid, store_grid g hc,
        if_neg ?_]
      rintro ⟨-, h, -⟩
      exact hrow c (List.mem_cons_self ..) h.symm
    · rw [h₅, hover]
      simp [or_assoc]

/-- `lock_shape`: a landed piece ends the game iff it stores a cell in row 0; otherwise all of it is
below row 0, and the next piece is spawned into a grid without full rows. -/
theorem lockShape_spec (r₁ r₂ : Nat) {g : Game} (hg : g.Inv) (hrun : g.gameOver = false)
    (hland : g.landed = true) :
    (g.lockShape r₁ r₂).Inv ∧
      ((g.lockShape r₁ r₂).gameOver = true ↔ ∃ c ∈ g.cells, c.2 = 0) ∧
      ((g.lockShape r₁ r₂).gameOver = false → ∀ c ∈ g.cells, 0 < c.2) := by
  obtain ⟨hzero, hfull, hmark, hin, hfree⟩ := hg.running hrun
  obtain ⟨x, hx₁, hx₂, hx⟩ := exists_column hg.good
  have hM : g.Marked 0 := by
    refine ⟨fun y h₁ h₂ => by omega, fun y h₁ h₂ h => absurd h (hfull y h₁ h₂), fun y h => ?_⟩
    simp [hmark y] at h
  obtain ⟨h₁, h₂, h₃, h₄, h₅⟩ := lockCells_spec g.cells 0 g hM hin ⟨hx₁, hx₂⟩ hx
    (hzero x hx₁ hx₂) fun _ => hmark
  -- a landed piece has a cell in row 0 or is below it
  have hbelow : (¬ ∃ c ∈ g.cells, c.2 = 0) → ∀ c ∈ g.cells, 0 < c.2 := by
    intro hno c hc
    obtain ⟨d, hd, hdc⟩ := List.any_eq_true.mp hland
    have hd₀ : 0 ≤ d.2 := by
      by_contra hlt
      have hout : g.detectCollision d.1 (d.2 + 1) = false := by
        rw [detectCollision_eq_false]
        have hh : ((GRID_HEIGHT : Nat) : Int) = 20 := rfl
        refine ⟨⟨(hin d hd).1, (hin d hd).2.1, by omega⟩, fun h => ?_⟩
        rw [show d.2 + 1 = 0 by omega]
        exact hzero _ (hin d hd).1 (hin d hd).2.1
      simp [hout] at hdc
    by_contra hle
    obtain ⟨e, he, he₀⟩ := cells_rows hg.good hc hd (k := 0) (by omega) hd₀
    exact hno ⟨e, he, he₀⟩
  unfold lockShape
  generalize lockCells g.cells 0 g = r at h₁ h₂ h₃ h₄ h₅
  obtain ⟨full, g'⟩ := r
  dsimp only at h₁ h₂ h₃ h₄ h₅ ⊢
  have hz : ¬ g'.grid.RowFull 0 := fun h => h x hx₁ hx₂ h₂
  obtain ⟨hc₁, hc₂, hc₃⟩ := cleanDestroyedBlocks_spec h₁ hz
  set g₂ := if full ≠ 0 then g'.cleanDestroyedBlocks else g' with hg₂
  have hover : g₂.gameOver = true ↔ ∃ c ∈ g.cells, c.2 = 0 := by
    have : g₂.gameOver = g'.gameOver := by
      rw [hg₂]
      split
      · exact hc₃
      · rfl
    rw [this, h₅, hrun]
    simp
  have hend : g₂.Marked GRID_HEIGHT := by
    rw [hg₂]
    split
    · exact hc₁
    · rename_i hcount
      have hnone := h₄ (by simpa using hcount)
      refine ⟨?_, fun y hy₁ hy₂ _ => absurd hy₂ (not_lt.mpr hy₁), fun y h => ?_⟩
      · intro y hy₁ hy₂ hf
        have := h₁.full y hy₁ hy₂ hf
        simp [hnone y] at this
      · simp [hnone y] at h
  have hrow : ∀ i : Int, 0 ≤ i → i < GRID_WIDTH → g₂.grid i 0 = g'.grid i 0 := by
    intro i hi hi'
    rw [hg₂]
    split
    · exact hc₂ i hi hi'
    · rfl
  have hnone : ∀ y, g₂.toDestroy y = false := by
    intro y
    by_contra h
    have := hend.mark y (by simpa using h)
    omega
  refine ⟨spawnShape_inv r₁ r₂ hnone ?_, hover, ?_⟩
  · intro hgo
    have hno : ∀ c ∈ g.cells, c.2 ≠ 0 := by
      intro c hc h
      have := hover.mpr ⟨c, hc, h⟩
      change g₂.gameOver = false at hgo
      simp [hgo] at this
    refine ⟨?_, hend.above⟩
    intro i hi hi'
    change g₂.grid i 0 = 0
    rw [hrow i hi hi', h₃ hno i, hzero i hi hi']
  · intro hgo
    refine hbelow fun h => ?_
    have := hover.mpr h
    change g₂.gameOver = false at hgo
    simp [hgo] at this

/-! ## Moving -/

/-- A piece whose cells do not collide keeps the invariant. -/
theorem Inv.move {g : Game} (hg : g.Inv) {s : Shape} (hs : s.Good) {x y : Int} (hy : -2 ≤ y)
    (hfree : g.gameOver = false → ∀ d ∈ s, g.detectCollision (d.1 + x) (d.2 + y) = false)
    {h : Game} (hgrid : h.grid = g.grid) (hmark : h.toDestroy = g.toDestroy)
    (hover : h.gameOver = g.gameOver) (hshape : h.currentShape = s) (hx : h.currentX = x)
    (hy' : h.currentY = y) : h.Inv := by
  subst hshape hx hy'
  refine ⟨hs, by simpa [hmark] using hg.noMark, hy, ?_⟩
  intro hrun
  rw [hover] at hrun
  obtain ⟨hzero, hfull, hnone, -, -⟩ := hg.running hrun
  have hcells : ∀ c ∈ h.cells, g.detectCollision c.1 c.2 = false := by
    intro c hc
    obtain ⟨d, hd, rfl⟩ := mem_cells.mp hc
    exact hfree hrun d hd
  refine ⟨by simpa [hgrid] using hzero, by simpa [hgrid] using hfull, by simpa [hmark] using hnone,
    ?_, ?_⟩
  · intro c hc
    exact (detectCollision_eq_false.mp (hcells c hc)).1
  · intro c hc
    rw [hgrid]
    exact (detectCollision_eq_false.mp (hcells c hc)).2

/-- The piece does not collide where it is. -/
theorem Running.still {g : Game} (h : g.Running) : ∀ d ∈ g.currentShape,
    g.detectCollision (d.1 + g.currentX) (d.2 + g.currentY) = false := by
  intro d hd
  have hc : (d.1 + g.currentX, d.2 + g.currentY) ∈ g.cells := mem_cells.mpr ⟨d, hd, rfl⟩
  exact detectCollision_eq_false.mpr ⟨h.inside _ hc, h.free _ hc⟩

/-- The invariant does not look at the speed, the counters or the screen. -/
theorem Inv.congr {g h : Game} (hg : g.Inv) (hgrid : h.grid = g.grid)
    (hmark : h.toDestroy = g.toDestroy) (hover : h.gameOver = g.gameOver)
    (hshape : h.currentShape = g.currentShape) (hx : h.currentX = g.currentX)
    (hy : h.currentY = g.currentY) : h.Inv :=
  hg.move hg.good hg.low (fun hrun => (hg.running hrun).still) hgrid hmark hover hshape hx hy

theorem rotateShape_inv {g : Game} (hg : g.Inv) : g.rotateShape.Inv := by
  simp only [rotateShape]
  split
  · exact hg.congr rfl rfl rfl rfl rfl rfl
  · split
    · exact hg.congr rfl rfl rfl rfl rfl rfl
    · rename_i hany
      simp only [List.any_eq_true, not_exists, not_and, Bool.not_eq_true] at hany
      exact hg.move hg.good.rotate hg.low (fun _ => hany) rfl rfl rfl rfl rfl rfl

theorem moveSide_inv {g : Game} (hg : g.Inv) (direction : Int) : (g.moveSide direction).Inv := by
  simp only [moveSide]
  split
  · exact hg.congr rfl rfl rfl rfl rfl rfl
  · rename_i hany
    simp only [List.any_eq_true, not_exists, not_and, Bool.not_eq_true] at hany
    refine hg.move hg.good hg.low (fun _ => ?_) rfl rfl rfl rfl rfl rfl
    intro d hd
    have := hany _ (mem_cells.mpr ⟨d, hd, rfl⟩)
    rwa [Int.add_assoc] at this

theorem handleInputEvent_inv {g : Game} (hg : g.Inv) (event : InputEvent) :
    (g.handleInputEvent event).Inv := by
  cases event with
  | left => exact moveSide_inv hg (-1)
  | right => exact moveSide_inv hg 1
  | rotate => exact rotateShape_inv hg
  | hardDrop => exact hg.congr rfl rfl rfl rfl rfl rfl
  | softDrop => exact hg.congr rfl rfl rfl rfl rfl rfl
  | quit => exact hg
  | noInput => exact hg
  | anyInput => exact hg
  | down => exact hg

theorem handleInputEvent_gameOver (g : Game) (event : InputEvent) :
    (g.handleInputEvent event).gameOver = g.gameOver := by
  cases event <;> simp only [handleInputEvent, moveSide, rotateShape] <;> (repeat' split) <;> rfl

/-- `fall` comes to `lock_shape`. -/
def Locks (g : Game) : Prop := g.fallFreq ≤ (g.iteration + 1) % 256 ∧ g.landed = true

instance (g : Game) : Decidable g.Locks := inferInstanceAs (Decidable (_ ∧ _))

/-- `fall`, and when it ends the game. -/
theorem fall_spec (r₁ r₂ : Nat) {g : Game} (hg : g.Inv) (hrun : g.gameOver = false) :
    (g.fall r₁ r₂).Inv ∧
      ((g.fall r₁ r₂).gameOver = true ↔ g.Locks ∧ ∃ c ∈ g.cells, c.2 = 0) ∧
      (g.Locks → (g.fall r₁ r₂).gameOver = false → ∀ c ∈ g.cells, 0 < c.2) := by
  simp only [fall, Locks]
  split
  · rename_i hlt
    refine ⟨hg.congr rfl rfl rfl rfl rfl rfl, ?_, ?_⟩
    · constructor
      · intro h
        simp [hrun] at h
      · intro h
        omega
    · intro h
      omega
  · rename_i hge
    have hland : landed { g with iteration := 0 } = g.landed := rfl
    split
    · rename_i hl
      obtain ⟨h₁, h₂, h₃⟩ := lockShape_spec r₁ r₂ (g := { g with iteration := 0 })
        (hg.congr rfl rfl rfl rfl rfl rfl) hrun hl
      refine ⟨h₁, ?_, fun _ => h₃⟩
      constructor
      · intro h
        exact ⟨⟨Nat.not_lt.mp hge, hl⟩, h₂.mp h⟩
      · intro h
        exact h₂.mpr h.2
    · rename_i hl
      have hlow := hg.low
      refine ⟨hg.move hg.good (x := g.currentX) (y := g.currentY + 1) (by omega) (fun _ => ?_)
        rfl rfl rfl rfl rfl rfl, ?_, ?_⟩
      · intro d hd
        have hd' := List.any_eq_false.mp (Bool.eq_false_iff.mpr hl) _ (mem_cells.mpr ⟨d, hd, rfl⟩)
        rw [Int.add_assoc] at hd'
        exact Bool.eq_false_iff.mpr hd'
      · constructor
        · intro h
          simp [hrun] at h
        · intro h
          exact absurd h.1.2 hl
      · intro h
        exact absurd h.2 hl

theorem updateFrame_inv {g : Game} (hg : g.Inv) : g.updateFrame.Inv := by
  unfold updateFrame
  split
  · exact hg
  · exact hg.congr rfl rfl rfl rfl rfl rfl

theorem updateFrame_gameOver (g : Game) : g.updateFrame.gameOver = g.gameOver := by
  unfold updateFrame
  split <;> rfl

/-! ## Runs -/

theorem initGame_inv (r₁ r₂ : Nat) : (initGame r₁ r₂).Inv := by
  refine spawnShape_inv r₁ r₂ (fun _ => rfl) fun _ => ⟨fun _ _ _ => rfl, ?_⟩
  intro y _ _ hfull
  exact hfull 0 (by decide) (by decide) rfl

theorem restartGame_inv (r₁ r₂ : Nat) {g : Game} (hg : g.Inv) : (g.restartGame r₁ r₂).Inv := by
  refine spawnShape_inv r₁ r₂ hg.noMark fun _ => ⟨?_, ?_⟩
  · intro x h₁ h₂
    exact if_pos ⟨h₁, h₂, by decide, by decide⟩
  · intro y h₁ h₂ hfull
    exact hfull 0 (by decide) (by decide) (if_pos ⟨by decide, by decide, h₁, h₂⟩)

/-- One round of `game_loop` keeps the invariant. -/
theorem gameLoop_inv (event : InputEvent) (r₁ r₂ : Nat) {g : Game} (hg : g.Inv) :
    (g.gameLoop event r₁ r₂).Inv := by
  unfold gameLoop
  split
  · exact hg
  · split
    · split
      · exact restartGame_inv r₁ r₂ hg
      · exact hg
    · rename_i hrun
      refine updateFrame_inv (fall_spec r₁ r₂ (handleInputEvent_inv hg event) ?_).1
      rw [handleInputEvent_gameOver]
      simpa using hrun

/-- The rounds of `game_loop` from `init_game` on: each has an event and two answers of `rand`. -/
def play (r₁ r₂ : Nat) (rounds : List (InputEvent × Nat × Nat)) : Game :=
  rounds.foldl (fun g r => g.gameLoop r.1 r.2.1 r.2.2) (initGame r₁ r₂)

theorem play_inv (r₁ r₂ : Nat) (rounds : List (InputEvent × Nat × Nat)) :
    (play r₁ r₂ rounds).Inv := by
  unfold play
  induction rounds using List.reverseRecOn with
  | nil => exact initGame_inv r₁ r₂
  | append_singleton rounds r ih =>
    rw [List.foldl_append]
    exact gameLoop_inv r.1 r.2.1 r.2.2 ih

/-- In every state of a running game row 0 is empty, no row is full or marked, and the piece lies on
empty cells of the grid or above it; the next round ends the game iff it locks the piece with a cell
in row 0, and where it locks it without ending the game all of the piece is below row 0. -/
theorem play_running (r₁ r₂ : Nat) (rounds : List (InputEvent × Nat × Nat)) (event : InputEvent)
    (q₁ q₂ : Nat) (hrun : (play r₁ r₂ rounds).gameOver = false) (hquit : event ≠ .quit) :
    (play r₁ r₂ rounds).Running ∧ ((play r₁ r₂ rounds).handleInputEvent event).Running ∧
      (((play r₁ r₂ rounds).gameLoop event q₁ q₂).gameOver = true ↔
        ((play r₁ r₂ rounds).handleInputEvent event).Locks ∧
          ∃ c ∈ ((play r₁ r₂ rounds).handleInputEvent event).cells, c.2 = 0) ∧
      (((play r₁ r₂ rounds).handleInputEvent event).Locks →
        ((play r₁ r₂ rounds).gameLoop event q₁ q₂).gameOver = false →
          ∀ c ∈ ((play r₁ r₂ rounds).handleInputEvent event).cells, 0 < c.2) := by
  have hg := play_inv r₁ r₂ rounds
  generalize play r₁ r₂ rounds = g at hrun hg ⊢
  have hh := handleInputEvent_inv hg event
  have hrun' : (g.handleInputEvent event).gameOver = false := by
    rw [handleInputEvent_gameOver, hrun]
  obtain ⟨-, h₁, h₂⟩ := fall_spec q₁ q₂ hh hrun'
  have hloop : (g.gameLoop event q₁ q₂).gameOver =
      ((g.handleInputEvent event).fall q₁ q₂).gameOver := by
    unfold gameLoop
    rw [if_neg hquit, if_neg (by simp [hrun]), updateFrame_gameOver]
  refine ⟨hg.running hrun, hh.running hrun', ?_, ?_⟩
  · rw [hloop]
    exact h₁
  · rw [hloop]
    exact h₂

/-- A vertical I on the floor is locked, and the game goes on. -/
theorem play_running_start :
    (play 4 0 (List.replicate 17 (.hardDrop, 4, 0))).Running ∧
      ((play 4 0 (List.replicate 17 (.hardDrop, 4, 0))).handleInputEvent .hardDrop).Running ∧
      ((play 4 0 (List.replicate 17 (.hardDrop, 4, 0))).handleInputEvent .hardDrop).Locks ∧
      ∀ c ∈ ((play 4 0 (List.replicate 17 (.hardDrop, 4, 0))).handleInputEvent .hardDrop).cells,
        0 < c.2 := by
  have hlocks : ((play 4 0 (List.replicate 17 (.hardDrop, 4, 0))).handleInputEvent
      .hardDrop).Locks := by decide +kernel
  obtain ⟨hgame, hevent, hover, hbelow⟩ := play_running 4 0 (List.replicate 17 (.hardDrop, 4, 0))
    .hardDrop 4 0 (by decide +kernel) (by decide)
  have hgo : ((play 4 0 (List.replicate 17 (.hardDrop, 4, 0))).gameLoop .hardDrop 4 0).gameOver =
      false := by
    rw [← Bool.not_eq_true, hover]
    decide +kernel
  exact ⟨hgame, hevent, hlocks, hbelow hlocks hgo⟩

end Game

end Tetris
