import Mathlib
import Ewokos.Tetris.Invariant

/-!
# sdl_tetris: rows

What `lock_shape` does to the rows of the grid.  The rows are flagged while the piece is stored, and
removed from the top: a removed row moves all rows above it down, and leaves a copy of row 0.

* `Grid.rows` — the grid as a list of its rows; `placed` — the grid with the piece added.
* `lockCells_marks` — the flagged rows are the full ones.
* `cleanRows_rows` — the loop over the rows, as a list; `cleanRows_tally` — its counters.
* `lockShape_rows` — `lock_shape` as a whole.
-/

set_option autoImplicit false

namespace Tetris

/-! ## The rows of a grid -/

/-- Row `y`. -/
def Grid.row (grid : Grid) (y : Nat) : List Nat := (List.range GRID_WIDTH).map fun x : Nat => grid x y

/-- The rows from the top on. -/
def Grid.rows (grid : Grid) : List (List Nat) := (List.range GRID_HEIGHT).map grid.row

/-- A row without an empty cell. -/
def fullRow (row : List Nat) : Bool := row.all (· != 0)

def emptyRow : List Nat := List.replicate GRID_WIDTH 0

/-- The occupied cells. -/
def Grid.occupied (grid : Grid) : Nat := (grid.rows.map (·.countP (· != 0))).sum

/-- The full rows. -/
def Grid.fullRows (grid : Grid) : Nat := grid.rows.countP fullRow

theorem Grid.row_congr {grid grid' : Grid} {y y' : Nat}
    (h : ∀ x : Int, 0 ≤ x → x < GRID_WIDTH → grid x y = grid' x y') : grid.row y = grid'.row y' := by
  refine List.map_congr_left fun x hx => ?_
  rw [List.mem_range] at hx
  exact h x (by omega) (by omega)

theorem Grid.rows_congr {grid grid' : Grid} (h : ∀ x y : Int, 0 ≤ x → x < GRID_WIDTH → 0 ≤ y →
    y < GRID_HEIGHT → grid x y = grid' x y) : grid.rows = grid'.rows := by
  refine List.map_congr_left fun y hy => ?_
  rw [List.mem_range] at hy
  exact Grid.row_congr fun x h₁ h₂ => h x y h₁ h₂ (by omega) (by omega)

theorem Grid.cell_of_rows {grid grid' : Grid} (h : grid.rows = grid'.rows) {x y : Int} (hx : 0 ≤ x)
    (hx' : x < GRID_WIDTH) (hy : 0 ≤ y) (hy' : y < GRID_HEIGHT) : grid x y = grid' x y := by
  have hrow := List.map_inj_left.mp h y.toNat (List.mem_range.mpr (by omega))
  have hcell := List.map_inj_left.mp hrow x.toNat (List.mem_range.mpr (by omega))
  rwa [Int.toNat_of_nonneg hx, Int.toNat_of_nonneg hy] at hcell

theorem Grid.mem_rows (grid : Grid) {x y : Int} (hx : 0 ≤ x) (hx' : x < GRID_WIDTH) (hy : 0 ≤ y)
    (hy' : y < GRID_HEIGHT) : ∃ r ∈ grid.rows, grid x y ∈ r := by
  refine ⟨grid.row y.toNat, List.mem_map.mpr ⟨_, List.mem_range.mpr (by omega), rfl⟩,
    List.mem_map.mpr ⟨x.toNat, List.mem_range.mpr (by omega), ?_⟩⟩
  rw [Int.toNat_of_nonneg hx, Int.toNat_of_nonneg hy]

theorem fullRow_iff (grid : Grid) (y : Nat) : fullRow (grid.row y) = true ↔ grid.RowFull y := by
  rw [Game.rowFull_iff, fullRow, Grid.row, List.all_map, List.any_eq_false, List.all_eq_true]
  refine forall₂_congr fun x _ => ?_
  simp only [Function.comp_apply, bne_iff_ne, ne_eq, beq_iff_eq]

namespace Game

/-- The grid with the piece added. -/
def placed (g : Game) : Grid :=
  fun x y => if (x, y) ∈ g.cells then g.currentShapeColor else g.grid x y

/-- What a piece is made of. -/
structure Piece (g : Game) : Prop where
  four : g.currentShape.length = 4
  distinct : g.currentShape.Nodup
  color : g.currentShapeColor ≠ 0

/-! ## Storing the piece -/

theorem lockCell_frame (g : Game) (c : Int × Int) : ∃ grid marks ended, (g.lockCell c).2 =
    { g with grid := grid, toDestroy := marks, gameOver := ended } := by
  obtain ⟨grid, hstore⟩ : ∃ grid, g.store c = { g with grid := grid } := by
    unfold store
    split
    · exact ⟨_, rfl⟩
    · exact ⟨g.grid, rfl⟩
  obtain ⟨marks, hmark⟩ : ∃ marks, ((g.store c).rowIsFull c.2).2 =
      { g.store c with toDestroy := marks } := by
    unfold rowIsFull
    split
    · exact ⟨_, rfl⟩
    · split
      · exact ⟨_, rfl⟩
      · exact ⟨_, rfl⟩
  unfold lockCell
  generalize (g.store c).rowIsFull c.2 = r at hmark
  obtain ⟨full, g'⟩ := r
  dsimp only at hmark
  rw [hstore] at hmark
  subst hmark
  cases full with
  | true => exact ⟨_, _, _, rfl⟩
  | false =>
    dsimp only
    split
    · exact ⟨_, _, _, rfl⟩
    · exact ⟨_, _, _, rfl⟩

/-- What the loop of `lock_shape` changes. -/
theorem lockCells_frame : ∀ (cells : List (Int × Int)) (full : Nat) (g : Game),
    ∃ grid marks ended, (lockCells cells full g).2 =
      { g with grid := grid, toDestroy := marks, gameOver := ended }
  | [], _, g => ⟨g.grid, g.toDestroy, g.gameOver, rfl⟩
  | c :: cells, full, g => by
    obtain ⟨grid, marks, ended, hcell⟩ := g.lockCell_frame c
    rw [lockCells_cons, hcell]
    exact lockCells_frame cells _ _

theorem lockCell_grid (g : Game) (c : Int × Int) : (g.lockCell c).2.grid = (g.store c).grid := by
  have hframe := ((g.store c).rowIsFull_frame c.2).1
  unfold lockCell
  split
  · rename_i h
    rw [← hframe, h]
  · rename_i h
    rw [← hframe, h]
    split <;> rfl

theorem lockCell_color (g : Game) (c : Int × Int) :
    (g.lockCell c).2.currentShapeColor = g.currentShapeColor := by
  obtain ⟨grid, marks, ended, hcell⟩ := g.lockCell_frame c
  rw [hcell]

/-- A flagged row is full. -/
def Flagged (g : Game) : Prop := ∀ y, g.toDestroy y = true → g.grid.RowFull y

theorem lockCell_flagged {g : Game} (hcolor : g.currentShapeColor ≠ 0) (hg : g.Flagged)
    {c : Int × Int} (hc : 0 ≤ c.1 ∧ c.1 < GRID_WIDTH ∧ c.2 < GRID_HEIGHT) :
    (g.lockCell c).2.Flagged := by
  have hstore : (g.store c).Flagged := by
    intro y hy x h₁ h₂
    rw [(g.store_frame c).1] at hy
    rw [store_grid g hc]
    split
    · exact hcolor
    · exact hg y hy x h₁ h₂
  have hrow : ((g.store c).rowIsFull c.2).2.Flagged := by
    unfold rowIsFull
    split
    · exact hstore
    · split
      · exact hstore
      · rename_i hany
        intro y hy
        dsimp only at hy ⊢
        by_cases hyc : y = c.2
        · subst hyc
          exact (rowFull_iff _ _).mpr (Bool.not_eq_true _ ▸ hany)
        · rw [Function.update_of_ne hyc] at hy
          exact hstore y hy
  unfold lockCell
  generalize (g.store c).rowIsFull c.2 = r at hrow
  obtain ⟨full, g'⟩ := r
  cases full with
  | true => exact hrow
  | false =>
    dsimp only at hrow ⊢
    split
    · exact hrow
    · exact hrow

theorem lockCells_flagged : ∀ {cells : List (Int × Int)} {full : Nat} {g : Game},
    g.currentShapeColor ≠ 0 → g.Flagged →
      (∀ c ∈ cells, 0 ≤ c.1 ∧ c.1 < GRID_WIDTH ∧ c.2 < GRID_HEIGHT) →
        (lockCells cells full g).2.Flagged
  | [], _, _, _, hg, _ => hg
  | c :: cells, full, g, hcolor, hg, h => by
    rw [lockCells_cons]
    refine lockCells_flagged ?_ (lockCell_flagged hcolor hg (h c List.mem_cons_self))
      fun c hc => h c (List.mem_cons_of_mem _ hc)
    rwa [lockCell_color]

theorem lockCells_grid : ∀ {cells : List (Int × Int)} {full : Nat} {g : Game},
    (∀ c ∈ cells, 0 ≤ c.1 ∧ c.1 < GRID_WIDTH ∧ c.2 < GRID_HEIGHT) → ∀ x y : Int, 0 ≤ y →
      (lockCells cells full g).2.grid x y =
        if (x, y) ∈ cells then g.currentShapeColor else g.grid x y
  | [], _, _, _, _, _, _ => rfl
  | c :: cells, full, g, h, x, y, hy => by
    have hc := h c List.mem_cons_self
    rw [lockCells_cons, lockCells_grid fun c hc => h c (List.mem_cons_of_mem _ hc), lockCell_grid,
      store_grid g hc, lockCell_color]
    · by_cases hmem : (x, y) ∈ cells
      · rw [if_pos hmem, if_pos (List.mem_cons_of_mem c hmem)]
      · rw [if_neg hmem]
        by_cases heq : (x, y) = c
        · subst heq
          rw [if_pos ⟨rfl, rfl, hy⟩, if_pos List.mem_cons_self]
        · rw [if_neg, if_neg]
          · exact fun hm => (List.mem_cons.mp hm).elim heq hmem
          · rintro ⟨rfl, rfl, -⟩
            exact heq rfl
    · exact hy

/-! ## Removing rows -/

/-- Row `j` emptied, and removed. -/
def remove (g : Game) (j : Nat) : Game :=
  destroyRow { g with
    toDestroy := Function.update g.toDestroy j false
    grid := fun x y => if 0 ≤ x ∧ x < GRID_WIDTH ∧ y = j then 0 else g.grid x y } j

theorem cleanRows_marked (n : Nat) {j : Nat} (count : Nat) {g : Game} (h : g.toDestroy j = true) :
    cleanRows (n + 1) j count g = cleanRows n (j + 1) (count + 1) (g.remove j) := by
  rw [cleanRows, if_pos h]
  rfl

theorem cleanRows_unmarked (n : Nat) {j : Nat} (count : Nat) {g : Game}
    (h : ¬g.toDestroy j = true) : cleanRows (n + 1) j count g = cleanRows n (j + 1) count g := by
  rw [cleanRows, if_neg h]

theorem remove_row (g : Game) {j : Nat} (hj : 0 < j) (y : Nat) : (g.remove j).grid.row y =
    g.grid.row (if 1 ≤ y ∧ y ≤ j then y - 1 else y) := by
  refine Grid.row_congr fun x h₁ h₂ => ?_
  rw [remove, destroy_grid g hj h₁ h₂]
  by_cases hy : 1 ≤ y ∧ y ≤ j
  · rw [if_pos (by omega), if_pos hy]
    congr
    omega
  · rw [if_neg (by omega), if_neg hy]

theorem remove_marks (g : Game) (j : Nat) :
    (g.remove j).toDestroy = Function.update g.toDestroy j false := (destroyRow_frame _ _).1

/-- The rows down to row `j`: they are one further down. -/
theorem remove_above (g : Game) {j : Nat} (hj : 0 < j) :
    (List.range (j + 1)).map (g.remove j).grid.row =
      g.grid.row 0 :: (List.range j).map g.grid.row := by
  rw [List.range_succ_eq_map, List.map_cons, List.map_map, remove_row g hj, if_neg (by omega)]
  congr 1
  refine List.map_congr_left fun y hy => ?_
  rw [List.mem_range] at hy
  rw [Function.comp_apply, remove_row g hj, if_pos (by omega), Nat.succ_sub_one]

/-- The flags of the `n` rows from row `j` on. -/
def flags (g : Game) (j n : Nat) : Nat := (List.range' j n).countP fun y : Nat => g.toDestroy y

theorem remove_flag (g : Game) {j n : Nat} : ∀ y ∈ List.range' (j + 1) n,
    (g.remove j).toDestroy (y : Nat) = g.toDestroy y := by
  intro y hy
  have hlt := (List.mem_range'_1.mp hy).1
  rw [remove_marks, Function.update_of_ne (by omega)]

theorem remove_flags (g : Game) (j n : Nat) : (g.remove j).flags (j + 1) n = g.flags (j + 1) n :=
  List.countP_congr fun y hy => by rw [g.remove_flag y hy]

theorem flags_marked {g : Game} {j : Nat} (h : g.toDestroy j = true) (n : Nat) :
    g.flags j (n + 1) = g.flags (j + 1) n + 1 := by
  unfold flags
  rw [List.range'_succ]
  exact List.countP_cons_of_pos h

theorem flags_unmarked {g : Game} {j : Nat} (h : ¬g.toDestroy j = true) (n : Nat) :
    g.flags j (n + 1) = g.flags (j + 1) n := by
  unfold flags
  rw [List.range'_succ]
  exact List.countP_cons_of_neg h

/-- Only rows below row 0 are flagged. -/
def Below (g : Game) : Prop := ∀ y : Nat, g.toDestroy y = true → 0 < y

theorem Below.remove {g : Game} (h : g.Below) (j : Nat) : (g.remove j).Below := by
  intro y hy
  rw [remove_marks] at hy
  by_cases hyj : (y : Int) = j
  · rw [hyj, Function.update_self] at hy
    cases hy
  · rw [Function.update_of_ne hyj] at hy
    exact h y hy

theorem cleanRows_count : ∀ (n j count : Nat) (g : Game),
    (cleanRows n j count g).1 = count + g.flags j n
  | 0, _, _, _ => rfl
  | n + 1, j, count, g => by
    by_cases h : g.toDestroy j = true
    · rw [cleanRows_marked n count h, cleanRows_count n, remove_flags, flags_marked h]
      omega
    · rw [cleanRows_unmarked n count h, cleanRows_count n, flags_unmarked h]

/-- The flagged rows from row `j` on are gone, and as many copies of row 0 are on top. -/
theorem cleanRows_rows : ∀ (n j count : Nat) (g : Game), j + n = GRID_HEIGHT → g.Below →
    (cleanRows n j count g).2.grid.rows =
      List.replicate (g.flags j n) (g.grid.row 0) ++ ((List.range j).map g.grid.row ++
        ((List.range' j n).filter fun y : Nat => !g.toDestroy y).map g.grid.row)
  | 0, j, count, g, hn, _ => by
    have hj : j = GRID_HEIGHT := hn
    subst hj
    exact (List.append_nil _).symm
  | n + 1, j, count, g, hn, hmark => by
    rw [List.range'_succ]
    by_cases h : g.toDestroy j = true
    · have hj := hmark j h
      have hrows : ∀ y ∈ List.range' (j + 1) n, (g.remove j).grid.row y = g.grid.row y := by
        intro y hy
        have hlt := (List.mem_range'_1.mp hy).1
        rw [remove_row g hj, if_neg (by omega)]
      rw [cleanRows_marked n count h, cleanRows_rows n (j + 1) (count + 1) (g.remove j) (by omega)
        (hmark.remove j), remove_flags, flags_marked h, List.filter_cons_of_neg (by simp [h]),
        remove_above g hj, remove_row g hj, if_neg (by omega), List.filter_congr fun y hy =>
        congrArg (!·) (g.remove_flag y hy), List.map_congr_left fun y hy =>
        hrows y (List.mem_filter.mp hy).1, List.replicate_succ', List.append_assoc]
      rfl
    · rw [cleanRows_unmarked n count h, cleanRows_rows n (j + 1) count g (by omega) hmark,
        flags_unmarked h, List.filter_cons_of_pos (by simp [h]), List.range_succ, List.map_append,
        List.map_cons, List.append_assoc]
      rfl

/-- The counters when one more row is removed. -/
def tally (c : Nat × Nat) : Nat × Nat :=
  ((c.1 + 1) % 256, if (c.1 + 1) % 256 % 10 = 0 then (c.2 + 1) % 256 else c.2)

theorem remove_tally (g : Game) (j : Nat) : ((g.remove j).linesCleared, (g.remove j).currentLevel) =
    tally (g.linesCleared, g.currentLevel) := by
  unfold remove destroyRow tally
  dsimp only
  split
  · rfl
  · rfl

theorem remove_frame (g : Game) (j : Nat) : ∃ grid marks lines level, g.remove j =
    { g with grid := grid, toDestroy := marks, linesCleared := lines, currentLevel := level } := by
  unfold remove destroyRow
  dsimp only
  split
  · exact ⟨_, _, _, _, rfl⟩
  · exact ⟨_, _, _, g.currentLevel, rfl⟩

/-- What the loop over the rows changes. -/
theorem cleanRows_frame : ∀ (n j count : Nat) (g : Game), ∃ grid marks lines level,
    (cleanRows n j count g).2 = { g with
      grid := grid, toDestroy := marks, linesCleared := lines, currentLevel := level }
  | 0, _, _, g => ⟨g.grid, g.toDestroy, g.linesCleared, g.currentLevel, rfl⟩
  | n + 1, j, count, g => by
    by_cases h : g.toDestroy j = true
    · obtain ⟨grid, marks, lines, level, hremove⟩ := g.remove_frame j
      rw [cleanRows_marked n count h, hremove]
      exact cleanRows_frame n (j + 1) (count + 1) _
    · rw [cleanRows_unmarked n count h]
      exact cleanRows_frame n (j + 1) count g

theorem cleanRows_tally : ∀ (n j count : Nat) (g : Game),
    ((cleanRows n j count g).2.linesCleared, (cleanRows n j count g).2.currentLevel) =
      tally^[g.flags j n] (g.linesCleared, g.currentLevel)
  | 0, _, _, _ => rfl
  | n + 1, j, count, g => by
    by_cases h : g.toDestroy j = true
    · rw [cleanRows_marked n count h, cleanRows_tally n, remove_flags, flags_marked h,
        Function.iterate_succ_apply, remove_tally]
    · rw [cleanRows_unmarked n count h, cleanRows_tally n, flags_unmarked h]

theorem cleanRows_none : ∀ {n j count : Nat} {g : Game}, (∀ y : Nat, ¬g.toDestroy y = true) →
    cleanRows n j count g = (count, g)
  | 0, _, _, _, _ => rfl
  | n + 1, j, count, g, h => by rw [cleanRows_unmarked n count (h j), cleanRows_none h]

/-- The score for `k` rows. -/
def lineScore (k : Nat) : Nat := if k = 0 then 0 else 100 * (2 * k - 1)

theorem cleanDestroyedBlocks_eq (g : Game) : ∃ grid marks lines level,
    g.cleanDestroyedBlocks = { g with
      grid := grid, toDestroy := marks, linesCleared := lines, currentLevel := level
      score := if g.flags 0 GRID_HEIGHT = 0 then g.score
        else (g.score + lineScore (g.flags 0 GRID_HEIGHT)) % 2 ^ 32 } ∧
      grid = (cleanRows GRID_HEIGHT 0 0 g).2.grid ∧
      (lines, level) = tally^[g.flags 0 GRID_HEIGHT] (g.linesCleared, g.currentLevel) := by
  have hcount := cleanRows_count GRID_HEIGHT 0 0 g
  have htally := cleanRows_tally GRID_HEIGHT 0 0 g
  obtain ⟨grid, marks, lines, level, hframe⟩ := cleanRows_frame GRID_HEIGHT 0 0 g
  unfold cleanDestroyedBlocks
  generalize cleanRows GRID_HEIGHT 0 0 g = r at hcount htally hframe
  obtain ⟨count, g'⟩ := r
  dsimp only at hcount htally hframe ⊢
  rw [Nat.zero_add] at hcount
  subst hcount hframe
  refine ⟨grid, marks, lines, level, ?_, rfl, htally⟩
  by_cases h : g.flags 0 GRID_HEIGHT = 0
  · rw [if_neg (not_not.mpr h), if_pos h]
  · have hscore : SCORE_LINE * (1 + 2 * (g.flags 0 GRID_HEIGHT - 1)) =
        lineScore (g.flags 0 GRID_HEIGHT) := by
      unfold lineScore SCORE_LINE
      rw [if_neg h]
      omega
    rw [if_pos h, if_neg h, hscore]

/-! ## Locking -/

/-- The game when the piece is stored. -/
theorem lockCells_placed {g : Game} (hg : g.Inv) (hrun : g.gameOver = false) (hp : g.Piece) :
    (lockCells g.cells 0 g).2.grid.rows = g.placed.rows ∧
      (lockCells g.cells 0 g).2.grid.row 0 = g.placed.row 0 ∧
      (lockCells g.cells 0 g).2.Below ∧
      (∀ y ∈ List.range GRID_HEIGHT, (lockCells g.cells 0 g).2.toDestroy (y : Nat) =
        fullRow ((lockCells g.cells 0 g).2.grid.row y)) ∧
      ((lockCells g.cells 0 g).1 = 0 →
        ∀ y : Nat, ¬(lockCells g.cells 0 g).2.toDestroy y = true) := by
  obtain ⟨hzero, hfull, hmark, hin, -⟩ := hg.running hrun
  obtain ⟨x, hx₁, hx₂, hx⟩ := exists_column hg.good
  have hmarked : g.Marked 0 := by
    refine ⟨fun y h₁ h₂ => by omega, fun y h₁ h₂ h => absurd h (hfull y h₁ h₂), fun y h => ?_⟩
    rw [hmark y] at h
    cases h
  obtain ⟨hM, -, -, hcount, -⟩ := lockCells_spec g.cells 0 g hmarked hin ⟨hx₁, hx₂⟩ hx
    (hzero x hx₁ hx₂) fun _ => hmark
  have hflagged : (lockCells g.cells 0 g).2.Flagged := by
    refine lockCells_flagged hp.color (fun y h => ?_) hin
    rw [hmark y] at h
    cases h
  have hgrid : ∀ x y : Int, 0 ≤ y → (lockCells g.cells 0 g).2.grid x y = g.placed x y :=
    fun x y hy => lockCells_grid hin x y hy
  refine ⟨Grid.rows_congr fun x y _ _ hy _ => hgrid x y hy,
    Grid.row_congr fun x _ _ => hgrid x _ (Int.natCast_nonneg 0), fun y hy => ?_, fun y hy => ?_,
    fun h y hy => ?_⟩
  · have := (hM.mark y hy).2.1
    omega
  · rw [List.mem_range] at hy
    apply Bool.eq_iff_iff.mpr
    rw [fullRow_iff]
    exact ⟨hflagged y, hM.full y (Int.natCast_nonneg y) (by omega)⟩
  · rw [hcount h y] at hy
    cases hy

/-- **A lock**, whether it ends the game or not: the full rows of the grid with the piece are gone,
and as many copies of its row 0 are on top. -/
theorem lockShape_rows (q₁ q₂ : Nat) {g : Game} (hg : g.Inv) (hrun : g.gameOver = false)
    (hp : g.Piece) :
    (g.lockShape q₁ q₂).grid.rows = List.replicate g.placed.fullRows (g.placed.row 0) ++
        g.placed.rows.filter (!fullRow ·) ∧
      (g.lockShape q₁ q₂).score = (g.score + 1 + lineScore g.placed.fullRows) % 2 ^ 32 ∧
      ((g.lockShape q₁ q₂).linesCleared, (g.lockShape q₁ q₂).currentLevel) =
        tally^[g.placed.fullRows] (g.linesCleared, g.currentLevel) ∧
      (g.lockShape q₁ q₂).fallFreq = (g.lockShape q₁ q₂).getCurrFallFreq ∧
      (g.lockShape q₁ q₂).iteration = 0 := by
  obtain ⟨hrows, hrow, hbelow, hflag, hnone⟩ := lockCells_placed hg hrun hp
  obtain ⟨grid, marks, ended, hL⟩ := lockCells_frame g.cells 0 g
  unfold lockShape
  generalize lockCells g.cells 0 g = r at hrows hrow hbelow hflag hnone hL ⊢
  obtain ⟨full, L⟩ := r
  dsimp only at hrows hrow hbelow hflag hnone hL ⊢
  have hk : L.flags 0 GRID_HEIGHT = g.placed.fullRows := by
    rw [Grid.fullRows, ← hrows, Grid.rows, List.countP_map, flags, ← List.range_eq_range']
    exact List.countP_congr fun y hy => by rw [hflag y hy]; rfl
  have hclean : (if full ≠ 0 then L.cleanDestroyedBlocks else L) = L.cleanDestroyedBlocks := by
    by_cases h : full = 0
    · rw [if_neg (not_not.mpr h), cleanDestroyedBlocks, cleanRows_none (hnone h)]
      rfl
    · rw [if_pos h]
  obtain ⟨grid', marks', lines, level, hC, hgrid, htally⟩ := cleanDestroyedBlocks_eq L
  have hremoved := cleanRows_rows GRID_HEIGHT 0 0 L rfl hbelow
  rw [← hgrid, hk, hrow, List.range_zero, List.map_nil, List.nil_append, ← List.range_eq_range',
    List.filter_congr fun y hy => congrArg (!·) (hflag y hy)] at hremoved
  have hfinal : grid'.rows = List.replicate g.placed.fullRows (g.placed.row 0) ++
      g.placed.rows.filter (!fullRow ·) := by
    rw [hremoved, ← hrows, Grid.rows, List.filter_map]
    rfl
  have hscore : L.score = g.score := by rw [hL]
  have hlines : (L.linesCleared, L.currentLevel) = (g.linesCleared, g.currentLevel) := by rw [hL]
  rw [hk, hlines] at htally
  rw [hclean, hC, hk, hscore]
  refine ⟨hfinal, ?_, htally, rfl, rfl⟩
  change ((if g.placed.fullRows = 0 then g.score
    else (g.score + lineScore g.placed.fullRows) % 2 ^ 32) + SCORE_SINGLE) % 2 ^ 32 = _
  unfold SCORE_SINGLE
  by_cases h : g.placed.fullRows = 0
  · rw [if_pos h, h]
    rfl
  · rw [if_neg h, Nat.mod_add_mod, Nat.add_right_comm]

end Game

end Tetris
