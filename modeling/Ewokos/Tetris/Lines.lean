import Mathlib
import Ewokos.Tetris.Rows

/-!
# sdl_tetris: lines

What a lock does to the stack, the score and the level over whole games.

* `occupied_placed`, `occupied_clear` — the occupied cells when a piece is added, and when the full
  rows are removed.
* `play_piece` — every piece has four different blocks of a color.
-/

set_option autoImplicit false

namespace Tetris

/-! ## Occupied cells -/

theorem sum_map_range (f : Nat → Nat) (n : Nat) :
    ((List.range n).map f).sum = ∑ i ∈ Finset.range n, f i := by
  induction n with
  | zero => rfl
  | succ n ih =>
    rw [List.range_succ, List.map_append, List.sum_append, ih, Finset.sum_range_succ,
      List.map_singleton, List.sum_singleton]

theorem countP_map_range (f : Nat → Nat) (n : Nat) :
    ((List.range n).map f).countP (· != 0) = ∑ i ∈ Finset.range n, if f i = 0 then 0 else 1 := by
  induction n with
  | zero => rfl
  | succ n ih =>
    rw [List.range_succ, List.map_append, List.countP_append, ih, Finset.sum_range_succ,
      List.map_singleton, List.countP_singleton]
    by_cases h : f n = 0
    · simp [h]
    · simp [h]

theorem occupied_eq (grid : Grid) : grid.occupied =
    ∑ y ∈ Finset.range GRID_HEIGHT, ∑ x ∈ Finset.range GRID_WIDTH,
      if grid x y = 0 then 0 else 1 := by
  rw [Grid.occupied, Grid.rows, List.map_map, sum_map_range]
  exact Finset.sum_congr rfl fun y _ => countP_map_range (fun x : Nat => grid x y) GRID_WIDTH

/-- Cells of the grid, counted row by row. -/
theorem sum_cells : ∀ {cells : List (Int × Int)}, cells.Nodup →
    (∀ c ∈ cells, 0 ≤ c.1 ∧ c.1 < GRID_WIDTH ∧ 0 ≤ c.2 ∧ c.2 < GRID_HEIGHT) →
    (∑ y ∈ Finset.range GRID_HEIGHT, ∑ x ∈ Finset.range GRID_WIDTH,
      if ((x : Int), (y : Int)) ∈ cells then 1 else 0) = cells.length
  | [], _, _ => by simp
  | c :: cells, hnodup, hin => by
    obtain ⟨hc, hnodup⟩ := List.nodup_cons.mp hnodup
    have hcell := hin c List.mem_cons_self
    have hsplit : ∀ x y : Nat, (if ((x : Int), (y : Int)) ∈ c :: cells then 1 else 0) =
        (if x = c.1.toNat ∧ y = c.2.toNat then 1 else 0) +
          if ((x : Int), (y : Int)) ∈ cells then 1 else 0 := by
      intro x y
      have heq : ((x : Int), (y : Int)) = c ↔ x = c.1.toNat ∧ y = c.2.toNat := by
        rw [Prod.ext_iff]
        dsimp only
        omega
      by_cases h : ((x : Int), (y : Int)) = c
      · rw [if_pos (h ▸ List.mem_cons_self), if_pos (heq.mp h), if_neg (h ▸ hc)]
      · rw [if_neg fun h' => h (heq.mpr h'), Nat.zero_add]
        refine if_congr ?_ rfl rfl
        rw [List.mem_cons, or_iff_right h]
    have hone : (∑ y ∈ Finset.range GRID_HEIGHT, ∑ x ∈ Finset.range GRID_WIDTH,
        if x = c.1.toNat ∧ y = c.2.toNat then 1 else 0) = 1 := by
      rw [Finset.sum_eq_single_of_mem c.2.toNat (Finset.mem_range.mpr (by omega)) fun y _ hy =>
        Finset.sum_eq_zero fun x _ => if_neg fun h => hy h.2,
        Finset.sum_eq_single_of_mem c.1.toNat (Finset.mem_range.mpr (by omega)) fun x _ hx =>
        if_neg fun h => hx h.1, if_pos ⟨rfl, rfl⟩]
    simp only [hsplit, Finset.sum_add_distrib]
    rw [hone, sum_cells hnodup fun d hd => hin d (List.mem_cons_of_mem c hd), List.length_cons,
      Nat.add_comm]

/-- A piece on empty cells of the grid. -/
theorem occupied_placed {g : Game} (hp : g.Piece)
    (hin : ∀ c ∈ g.cells, 0 ≤ c.1 ∧ c.1 < GRID_WIDTH ∧ 0 ≤ c.2 ∧ c.2 < GRID_HEIGHT)
    (hfree : ∀ c ∈ g.cells, g.grid c.1 c.2 = 0) : g.placed.occupied = g.grid.occupied + 4 := by
  have hnodup : g.cells.Nodup := by
    refine hp.distinct.map fun c d h => ?_
    rw [Prod.ext_iff] at h ⊢
    dsimp only at h
    omega
  have hlen : g.cells.length = 4 := by
    rw [Game.cells, Game.cellsAt, List.length_map, hp.four]
  rw [occupied_eq, occupied_eq, ← hlen, ← sum_cells hnodup hin, ← Finset.sum_add_distrib]
  refine Finset.sum_congr rfl fun y _ => ?_
  rw [← Finset.sum_add_distrib]
  refine Finset.sum_congr rfl fun x _ => ?_
  unfold Game.placed
  by_cases h : ((x : Int), (y : Int)) ∈ g.cells
  · rw [if_pos h, if_neg hp.color, if_pos h, hfree _ h, if_pos rfl]
  · rw [if_neg h, if_neg h, Nat.add_zero]

theorem occupied_clear : ∀ {rows : List (List Nat)}, (∀ r ∈ rows, r.length = GRID_WIDTH) →
    ((rows.filter (!fullRow ·)).map (·.countP (· != 0))).sum + 10 * rows.countP fullRow =
      (rows.map (·.countP (· != 0))).sum
  | [], _ => rfl
  | r :: rows, h => by
    have hrest := occupied_clear fun r hr => h r (List.mem_cons_of_mem _ hr)
    have hlen := h r List.mem_cons_self
    rw [List.map_cons, List.sum_cons]
    by_cases hr : fullRow r = true
    · have hcount : r.countP (· != 0) = 10 := by
        have hall := List.countP_eq_length.mpr (List.all_eq_true.mp hr)
        exact hall.trans hlen
      rw [List.filter_cons_of_neg (by simp [hr]), List.countP_cons_of_pos hr, hcount]
      omega
    · rw [List.filter_cons_of_pos (by simp [hr]), List.countP_cons_of_neg hr, List.map_cons,
        List.sum_cons]
      omega

/-! ## Pieces -/

namespace Game

theorem spawnShape_piece (r₁ r₂ : Nat) (g : Game) : (g.spawnShape r₁ r₂).Piece := by
  have hall : ∀ s ∈ SHAPES, s.length = 4 ∧ s.Nodup := by decide
  have hlt : r₁ % N_SHAPES < SHAPES.length := Nat.mod_lt r₁ (by decide)
  have hshape : (g.spawnShape r₁ r₂).currentShape ∈ SHAPES := by
    change SHAPES.getD (r₁ % N_SHAPES) [] ∈ SHAPES
    rw [List.getD_eq_getElem _ _ hlt]
    exact List.getElem_mem hlt
  exact ⟨(hall _ hshape).1, (hall _ hshape).2, Nat.succ_ne_zero _⟩

theorem Piece.congr {g h : Game} (hg : g.Piece) (hshape : h.currentShape = g.currentShape)
    (hcolor : h.currentShapeColor = g.currentShapeColor) : h.Piece :=
  ⟨hshape ▸ hg.four, hshape ▸ hg.distinct, hcolor ▸ hg.color⟩

theorem handleInputEvent_piece {g : Game} (hg : g.Piece) (event : InputEvent) :
    (g.handleInputEvent event).Piece := by
  have hside (direction : Int) : (g.moveSide direction).Piece := by
    unfold moveSide
    dsimp only
    split
    · exact hg.congr rfl rfl
    · exact hg.congr rfl rfl
  cases event with
  | left => exact hside (-1)
  | right => exact hside 1
  | rotate =>
    unfold handleInputEvent rotateShape
    dsimp only
    split
    · exact hg.congr rfl rfl
    split
    · exact hg.congr rfl rfl
    · refine ⟨(List.length_map _).trans hg.four, hg.distinct.map fun c d h => ?_, hg.color⟩
      rw [Prod.ext_iff] at h ⊢
      dsimp only at h
      omega
  | hardDrop => exact hg.congr rfl rfl
  | softDrop => exact hg.congr rfl rfl
  | quit => exact hg
  | noInput => exact hg
  | anyInput => exact hg
  | down => exact hg

theorem fall_piece (r₁ r₂ : Nat) {g : Game} (hg : g.Piece) : (g.fall r₁ r₂).Piece := by
  unfold fall
  dsimp only
  split
  · exact hg.congr rfl rfl
  split
  · exact spawnShape_piece r₁ r₂ _
  · exact hg.congr rfl rfl

theorem gameLoop_piece (event : InputEvent) (r₁ r₂ : Nat) {g : Game} (hg : g.Piece) :
    (g.gameLoop event r₁ r₂).Piece := by
  unfold gameLoop
  split
  · exact hg
  split
  · split
    · exact spawnShape_piece r₁ r₂ _
    · exact hg
  · have hfall := fall_piece r₁ r₂ (handleInputEvent_piece hg event)
    unfold updateFrame
    split
    · exact hfall
    · exact hfall.congr rfl rfl

theorem play_piece (r₁ r₂ : Nat) (rounds : List (InputEvent × Nat × Nat)) :
    (play r₁ r₂ rounds).Piece := by
  unfold play
  induction rounds using List.reverseRecOn with
  | nil => exact spawnShape_piece r₁ r₂ _
  | append_singleton rounds r ih =>
    rw [List.foldl_append]
    exact gameLoop_piece r.1 r.2.1 r.2.2 ih

/-! ## Locks -/

/-- A round that locks the piece. -/
theorem gameLoop_lock (q₁ q₂ : Nat) {g : Game} {event : InputEvent} (hrun : g.gameOver = false)
    (hquit : event ≠ .quit) (hlock : (g.handleInputEvent event).Locks) :
    g.gameLoop event q₁ q₂ =
      (lockShape q₁ q₂ { g.handleInputEvent event with iteration := 0 }).updateFrame := by
  unfold gameLoop
  rw [if_neg hquit, if_neg (ne_true_of_eq_false hrun)]
  unfold fall
  dsimp only
  rw [if_neg (Nat.not_lt.mpr hlock.1)]
  exact congrArg updateFrame (if_pos hlock.2)

theorem handleInputEvent_frame (g : Game) (event : InputEvent) :
    (g.handleInputEvent event).grid = g.grid ∧ (g.handleInputEvent event).score = g.score ∧
      (g.handleInputEvent event).linesCleared = g.linesCleared ∧
      (g.handleInputEvent event).currentLevel = g.currentLevel ∧
      (g.handleInputEvent event).iteration = g.iteration := by
  have hside (direction : Int) : (g.moveSide direction).grid = g.grid ∧
      (g.moveSide direction).score = g.score ∧
      (g.moveSide direction).linesCleared = g.linesCleared ∧
      (g.moveSide direction).currentLevel = g.currentLevel ∧
      (g.moveSide direction).iteration = g.iteration := by
    unfold moveSide
    dsimp only
    split
    · exact ⟨rfl, rfl, rfl, rfl, rfl⟩
    · exact ⟨rfl, rfl, rfl, rfl, rfl⟩
  cases event with
  | left => exact hside (-1)
  | right => exact hside 1
  | rotate =>
    unfold handleInputEvent rotateShape
    dsimp only
    split
    · exact ⟨rfl, rfl, rfl, rfl, rfl⟩
    split
    · exact ⟨rfl, rfl, rfl, rfl, rfl⟩
    · exact ⟨rfl, rfl, rfl, rfl, rfl⟩
  | hardDrop => exact ⟨rfl, rfl, rfl, rfl, rfl⟩
  | softDrop => exact ⟨rfl, rfl, rfl, rfl, rfl⟩
  | quit => exact ⟨rfl, rfl, rfl, rfl, rfl⟩
  | noInput => exact ⟨rfl, rfl, rfl, rfl, rfl⟩
  | anyInput => exact ⟨rfl, rfl, rfl, rfl, rfl⟩
  | down => exact ⟨rfl, rfl, rfl, rfl, rfl⟩

theorem updateFrame_frame (g : Game) : g.updateFrame = { g with
    stateChanged := g.updateFrame.stateChanged } := by
  unfold updateFrame
  split
  · rfl
  · rfl

/-- A round that locks the piece, by what it does to the rows and the counters. -/
theorem gameLoop_rows (q₁ q₂ : Nat) {g : Game} (hg : g.Inv) (hp : g.Piece) {event : InputEvent}
    (hrun : g.gameOver = false) (hquit : event ≠ .quit)
    (hlock : (g.handleInputEvent event).Locks) :
    (g.gameLoop event q₁ q₂).grid.rows =
        List.replicate (g.handleInputEvent event).placed.fullRows
          ((g.handleInputEvent event).placed.row 0) ++
            (g.handleInputEvent event).placed.rows.filter (!fullRow ·) ∧
      (g.gameLoop event q₁ q₂).score =
        (g.score + 1 + lineScore (g.handleInputEvent event).placed.fullRows) % 2 ^ 32 ∧
      ((g.gameLoop event q₁ q₂).linesCleared, (g.gameLoop event q₁ q₂).currentLevel) =
        tally^[(g.handleInputEvent event).placed.fullRows] (g.linesCleared, g.currentLevel) ∧
      (g.gameLoop event q₁ q₂).fallFreq = (g.gameLoop event q₁ q₂).getCurrFallFreq ∧
      (g.gameLoop event q₁ q₂).iteration = 0 := by
  obtain ⟨-, hscore, hlines, hlevel, -⟩ := g.handleInputEvent_frame event
  have hh : Inv { g.handleInputEvent event with iteration := 0 } :=
    (handleInputEvent_inv hg event).congr rfl rfl rfl rfl rfl rfl
  have hrows := lockShape_rows q₁ q₂ hh
    (by rw [← hrun]; exact handleInputEvent_gameOver g event)
    ((handleInputEvent_piece hp event).congr rfl rfl)
  rw [gameLoop_lock q₁ q₂ hrun hquit hlock, updateFrame_frame, ← hscore, ← hlines, ← hlevel]
  exact hrows

/-- **A lock that does not end the game.** -/
theorem lock_conserves (q₁ q₂ : Nat) {g : Game} (hg : g.Inv) (hp : g.Piece) {event : InputEvent}
    (hrun : g.gameOver = false) (hquit : event ≠ .quit)
    (hlock : (g.handleInputEvent event).Locks)
    (hgo : (g.gameLoop event q₁ q₂).gameOver = false) :
    (g.gameLoop event q₁ q₂).grid.rows =
        List.replicate (g.handleInputEvent event).placed.fullRows emptyRow ++
          (g.handleInputEvent event).placed.rows.filter (!fullRow ·) ∧
      (g.gameLoop event q₁ q₂).grid.occupied +
        10 * (g.handleInputEvent event).placed.fullRows = g.grid.occupied + 4 := by
  have hrows := (gameLoop_rows q₁ q₂ hg hp hrun hquit hlock).1
  have hover := handleInputEvent_gameOver g event
  obtain ⟨hgrid, -⟩ := g.handleInputEvent_frame event
  have hh := handleInputEvent_inv hg event
  have hhp := handleInputEvent_piece hp event
  have hbelow : ∀ c ∈ (g.handleInputEvent event).cells, 0 < c.2 := by
    refine (fall_spec q₁ q₂ hh (hover.trans hrun)).2.2 hlock ?_
    unfold gameLoop at hgo
    rwa [if_neg hquit, if_neg (ne_true_of_eq_false hrun), updateFrame_gameOver] at hgo
  generalize g.handleInputEvent event = h at hrows hover hgrid hh hhp hbelow ⊢
  obtain ⟨hzero, -, -, hin, hfree⟩ := hh.running (hover.trans hrun)
  have hempty : h.placed.row 0 = emptyRow := by
    refine List.eq_replicate_iff.mpr ⟨by rw [Grid.row, List.length_map, List.length_range],
      fun v hv => ?_⟩
    obtain ⟨x, hx, rfl⟩ := List.mem_map.mp hv
    rw [List.mem_range] at hx
    unfold placed
    rw [if_neg fun hmem => Int.lt_irrefl 0 (hbelow _ hmem)]
    exact hzero x (by omega) (by omega)
  have hadd : h.placed.occupied = h.grid.occupied + 4 :=
    occupied_placed hhp
      (fun c hc => ⟨(hin c hc).1, (hin c hc).2.1, (hbelow c hc).le, (hin c hc).2.2⟩)
      fun c hc => hfree c hc (hbelow c hc).le
  have hclear := @occupied_clear h.placed.rows fun r hr => by
    obtain ⟨y, -, rfl⟩ := List.mem_map.mp hr
    rw [Grid.row, List.length_map, List.length_range]
  rw [hempty] at hrows
  refine ⟨hrows, ?_⟩
  have hnone : (emptyRow.countP (· != 0)) = 0 := rfl
  rw [← hgrid, ← hadd, Grid.occupied, hrows, List.map_append, List.sum_append, List.map_replicate,
    hnone, List.sum_replicate, smul_zero, Nat.zero_add]
  exact hclear

/-! ## The lines of a game -/

/-- The lines that a round clears. -/
def cleared (g : Game) (event : InputEvent) : Nat :=
  if g.gameOver = false ∧ event ≠ .quit ∧ (g.handleInputEvent event).Locks then
    (g.handleInputEvent event).placed.fullRows
  else 0

/-- One round, with the lines that were cleared since the game was started. -/
def tallyLoop (s : Game × Nat) (event : InputEvent) (r₁ r₂ : Nat) : Game × Nat :=
  (s.1.gameLoop event r₁ r₂,
    if s.1.gameOver = true ∧ event ≠ .quit ∧ event ≠ .noInput then 0 else s.2 + s.1.cleared event)

/-- The rounds of `play`, with the lines that were cleared since the game was started. -/
def playTally (r₁ r₂ : Nat) (rounds : List (InputEvent × Nat × Nat)) : Game × Nat :=
  rounds.foldl (fun s r => tallyLoop s r.1 r.2.1 r.2.2) (initGame r₁ r₂, 0)

theorem playTally_fst (r₁ r₂ : Nat) (rounds : List (InputEvent × Nat × Nat)) :
    (playTally r₁ r₂ rounds).1 = play r₁ r₂ rounds := by
  unfold playTally play
  induction rounds using List.reverseRecOn with
  | nil => rfl
  | append_singleton rounds r ih =>
    rw [List.foldl_append, List.foldl_append, ← ih]
    rfl

/-- The counters are those of the lines. -/
def Counts (s : Game × Nat) : Prop :=
  (s.1.linesCleared, s.1.currentLevel) = tally^[s.2] (0, 0)

/-- A round of a running game that locks no piece. -/
theorem gameLoop_moves (q₁ q₂ : Nat) {g : Game} {event : InputEvent} (hrun : g.gameOver = false)
    (hquit : event ≠ .quit) (hlock : ¬(g.handleInputEvent event).Locks) :
    (g.gameLoop event q₁ q₂).linesCleared = g.linesCleared ∧
      (g.gameLoop event q₁ q₂).currentLevel = g.currentLevel := by
  obtain ⟨-, -, hlines, hlevel, -⟩ := g.handleInputEvent_frame event
  unfold gameLoop
  rw [if_neg hquit, if_neg (ne_true_of_eq_false hrun), updateFrame_frame, ← hlines,
    ← hlevel]
  unfold fall
  dsimp only
  split
  · exact ⟨rfl, rfl⟩
  · rename_i hfreq
    split
    · rename_i hland
      exact absurd ⟨Nat.not_lt.mp hfreq, hland⟩ hlock
    · exact ⟨rfl, rfl⟩

theorem tallyLoop_counts (r₁ r₂ : Nat) {s : Game × Nat} (hg : s.1.Inv) (hp : s.1.Piece)
    (h : Counts s) (event : InputEvent) : Counts (tallyLoop s event r₁ r₂) := by
  obtain ⟨g, lines⟩ := s
  dsimp only at hg hp
  unfold Counts tallyLoop cleared at *
  dsimp only at h ⊢
  by_cases hquit : event = .quit
  · rw [gameLoop, if_pos hquit, if_neg fun hc => hc.2.1 hquit, if_neg fun hc => hc.2.1 hquit]
    exact h
  · cases hrun : g.gameOver with
    | true =>
      by_cases hno : event = .noInput
      · rw [gameLoop, if_neg hquit, if_pos hrun, if_neg (not_not.mpr hno),
          if_neg fun hc => hc.2.2 hno, if_neg fun hc => Bool.noConfusion hc.1]
        exact h
      · rw [gameLoop, if_neg hquit, if_pos hrun, if_pos hno, if_pos ⟨rfl, hquit, hno⟩]
        rfl
    | false =>
      rw [if_neg fun hc => Bool.noConfusion hc.1]
      by_cases hlock : (g.handleInputEvent event).Locks
      · rw [if_pos ⟨rfl, hquit, hlock⟩, Nat.add_comm, Function.iterate_add_apply, ← h]
        exact (gameLoop_rows r₁ r₂ hg hp hrun hquit hlock).2.2.1
      · obtain ⟨hlines, hlevel⟩ := gameLoop_moves r₁ r₂ hrun hquit hlock
        rw [if_neg fun hc => hlock hc.2.2, Nat.add_zero, hlines, hlevel]
        exact h

theorem playTally_counts (r₁ r₂ : Nat) (rounds : List (InputEvent × Nat × Nat)) :
    Counts (playTally r₁ r₂ rounds) := by
  unfold playTally
  induction rounds using List.reverseRecOn with
  | nil => rfl
  | append_singleton rounds r ih =>
    have hfst := playTally_fst r₁ r₂ rounds
    unfold playTally at hfst
    rw [List.foldl_append]
    refine tallyLoop_counts r.2.1 r.2.2 ?_ ?_ ih r.1
    · rw [hfst]
      exact play_inv r₁ r₂ rounds
    · rw [hfst]
      exact play_piece r₁ r₂ rounds

/-- One more line: the counter goes on, or it comes to 0 again. -/
theorem level_succ (n : Nat) : 26 * ((n + 1) / 256) + (n + 1) % 256 / 10 =
    26 * (n / 256) + n % 256 / 10 + if (n % 256 + 1) % 256 % 10 = 0 then 1 else 0 := by
  by_cases hwrap : n % 256 = 255
  · have hdiv : (n + 1) / 256 = n / 256 + 1 := by omega
    have hmod : (n + 1) % 256 = 0 := by omega
    rw [hdiv, hmod, hwrap, if_pos (by decide)]
    omega
  · have hdiv : (n + 1) / 256 = n / 256 := by omega
    have hmod : (n + 1) % 256 = n % 256 + 1 := by omega
    have hlt : (n % 256 + 1) % 256 = n % 256 + 1 := by omega
    rw [hdiv, hmod, hlt]
    generalize n % 256 = r
    split
    · omega
    · omega

/-- The counters after `n` lines: the level goes up at every tenth line of the counter, and when the
counter comes to 0 again. -/
theorem tally_iterate (n : Nat) :
    tally^[n] (0, 0) = (n % 256, (26 * (n / 256) + n % 256 / 10) % 256) := by
  induction n with
  | zero => rfl
  | succ n ih =>
    rw [Function.iterate_succ_apply', ih, level_succ, tally]
    dsimp only
    refine Prod.ext (Nat.mod_add_mod n 256 1) ?_
    dsimp only
    split
    · exact Nat.mod_add_mod _ 256 1
    · rfl

end Game

end Tetris
