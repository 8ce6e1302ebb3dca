import Mathlib
import Ewokos.Tetris.Stacking

/-!
# sdl_tetris: restarting

`restart_game` beside `init_game`.

* `Ended` — what is left of a game that is over; `play_ended` — every game that is over is.
* `restart_iff` — a restarted game is a fresh one.
-/

set_option autoImplicit false

namespace Tetris.Game

/-- The cells outside of the grid are 0. -/
def Outside (grid : Grid) : Prop :=
  ∀ x y : Int, ¬(0 ≤ x ∧ x < GRID_WIDTH ∧ 0 ≤ y ∧ y < GRID_HEIGHT) → grid x y = 0

/-- What holds of every game: when it is over, the next piece has not begun to fall, and the speed
is that of the level. -/
structure Ended (g : Game) : Prop where
  outside : Outside g.grid
  iteration : g.gameOver = true → g.iteration = 0
  fallFreq : g.gameOver = true → g.fallFreq = g.getCurrFallFreq

theorem lockCells_outside : ∀ {cells : List (Int × Int)} {full : Nat} {g : Game},
    Outside g.grid → Outside (lockCells cells full g).2.grid
  | [], _, _, h => h
  | c :: cells, full, g, h => by
    rw [lockCells_cons]
    refine lockCells_outside ?_
    rw [lockCell_grid]
    unfold store
    split
    · rename_i hc
      intro x y hxy
      dsimp only
      rw [if_neg]
      · exact h x y hxy
      · rintro ⟨rfl, rfl⟩
        exact hxy ⟨hc.1, hc.2.1, hc.2.2.1, hc.2.2.2⟩
    · exact h

theorem remove_outside {g : Game} {j : Nat} (hj : j < GRID_HEIGHT) (h : Outside g.grid) :
    Outside (g.remove j).grid := by
  intro x y hxy
  rw [remove, destroyRow_grid, copyRows_apply]
  dsimp only
  rw [if_neg (by omega)]
  split
  · rfl
  · exact h x y hxy

theorem cleanRows_outside : ∀ {n j count : Nat} {g : Game}, j + n = GRID_HEIGHT →
    Outside g.grid → Outside (cleanRows n j count g).2.grid
  | 0, _, _, _, _, h => h
  | n + 1, j, count, g, hn, h => by
    by_cases hmark : g.toDestroy j = true
    · rw [cleanRows_marked n count hmark]
      exact cleanRows_outside (by omega) (remove_outside (by omega) h)
    · rw [cleanRows_unmarked n count hmark]
      exact cleanRows_outside (by omega) h

theorem lockShape_outside (q₁ q₂ : Nat) {g : Game} (h : Outside g.grid) :
    Outside (g.lockShape q₁ q₂).grid := by
  have hlocked := @lockCells_outside g.cells 0 g h
  unfold lockShape
  generalize lockCells g.cells 0 g = r at hlocked
  obtain ⟨full, L⟩ := r
  obtain ⟨grid, marks, lines, level, hclean, hgrid, -⟩ := cleanDestroyedBlocks_eq L
  change Outside (if full ≠ 0 then L.cleanDestroyedBlocks else L).grid
  split
  · rw [hclean]
    change Outside grid
    rw [hgrid]
    exact cleanRows_outside rfl hlocked
  · exact hlocked

theorem lockShape_ended (q₁ q₂ : Nat) {g : Game} (h : Outside g.grid) :
    (g.lockShape q₁ q₂).Ended := by
  refine ⟨lockShape_outside q₁ q₂ h, fun _ => ?_, fun _ => ?_⟩
  · unfold lockShape
    rfl
  · unfold lockShape
    rfl

theorem fall_ended (q₁ q₂ : Nat) {g : Game} (hrun : g.gameOver = false) (h : Outside g.grid) :
    (g.fall q₁ q₂).Ended := by
  have hno {P : Prop} : g.gameOver = true → P := fun hc => by
    rw [hrun] at hc
    cases hc
  unfold fall
  dsimp only
  split
  · exact ⟨h, hno, hno⟩
  split
  · exact lockShape_ended q₁ q₂ h
  · exact ⟨h, hno, hno⟩

theorem gameLoop_ended (event : InputEvent) (q₁ q₂ : Nat) {g : Game} (h : g.Ended) :
    (g.gameLoop event q₁ q₂).Ended := by
  unfold gameLoop
  split
  · exact h
  split
  · split
    · refine ⟨fun x y hxy => ?_, nofun, nofun⟩
      exact (if_neg hxy).trans (h.outside x y hxy)
    · exact h
  · rename_i hrun
    have hfall : ((g.handleInputEvent event).fall q₁ q₂).Ended := by
      refine fall_ended q₁ q₂ ?_ ?_
      · rw [handleInputEvent_gameOver]
        exact Bool.not_eq_true _ ▸ hrun
      · rw [(g.handleInputEvent_frame event).1]
        exact h.outside
    rw [updateFrame_frame]
    exact ⟨hfall.outside, hfall.iteration, hfall.fallFreq⟩

theorem play_ended (r₁ r₂ : Nat) (rounds : List (InputEvent × Nat × Nat)) :
    (play r₁ r₂ rounds).Ended := by
  unfold play
  induction rounds using List.reverseRecOn with
  | nil => exact ⟨fun _ _ _ => rfl, nofun, nofun⟩
  | append_singleton rounds r ih =>
    rw [List.foldl_append]
    exact gameLoop_ended r.1 r.2.1 r.2.2 ih

/-- Only the first level is as slow as a fresh game. -/
theorem getCurrFallFreq_fresh (g : Game) : g.getCurrFallFreq = 48 ↔ g.currentLevel = 0 := by
  have hall : ∀ i < 15, LEVEL_FREQS.getD i 0 = 48 ↔ i = 0 := by decide
  unfold getCurrFallFreq MAX_LEVEL_FREQ
  split
  · rename_i h
    exact iff_of_false (by decide) (by omega)
  · rename_i h
    exact hall _ (Nat.not_le.mp h)

/-- A restarted game is a fresh one, but for the speed. -/
theorem restartGame_eq (q₁ q₂ : Nat) {g : Game} (hg : g.Inv) (h : g.Ended)
    (hover : g.gameOver = true) :
    g.restartGame q₁ q₂ = { initGame q₁ q₂ with fallFreq := g.getCurrFallFreq } := by
  have hgrid : (fun x y : Int => if 0 ≤ x ∧ x < GRID_WIDTH ∧ 0 ≤ y ∧ y < GRID_HEIGHT then 0
      else g.grid x y) = fun _ _ => 0 := by
    funext x y
    by_cases hxy : 0 ≤ x ∧ x < GRID_WIDTH ∧ 0 ≤ y ∧ y < GRID_HEIGHT
    · exact if_pos hxy
    · exact (if_neg hxy).trans (h.outside x y hxy)
  have hmark : g.toDestroy = fun _ => false := funext hg.noMark
  unfold restartGame
  rw [hgrid, hmark, h.iteration hover, h.fallFreq hover]
  rfl

/-- **Restarting.**  A game that is restarted equals a fresh one, and goes on as it does, exactly
when the game before ended in the first level: `fall_freq` stays as it was. -/
theorem restart_iff (r₁ r₂ : Nat) (rounds : List (InputEvent × Nat × Nat)) (q₁ q₂ : Nat)
    (hover : (play r₁ r₂ rounds).gameOver = true) :
    ((play r₁ r₂ rounds).restartGame q₁ q₂ = initGame q₁ q₂ ∧
      ∀ later : List (InputEvent × Nat × Nat),
        later.foldl (fun g r => g.gameLoop r.1 r.2.1 r.2.2)
          ((play r₁ r₂ rounds).restartGame q₁ q₂) = play q₁ q₂ later) ↔
      (play r₁ r₂ rounds).currentLevel = 0 := by
  have heq := restartGame_eq q₁ q₂ (play_inv r₁ r₂ rounds) (play_ended r₁ r₂ rounds) hover
  rw [← getCurrFallFreq_fresh]
  constructor
  · rintro ⟨hfresh, -⟩
    rw [hfresh] at heq
    exact (congrArg Game.fallFreq heq).symm
  · intro hfreq
    rw [hfreq] at heq
    have hfresh : (play r₁ r₂ rounds).restartGame q₁ q₂ = initGame q₁ q₂ := heq
    exact ⟨hfresh, fun later => by rw [hfresh]; rfl⟩

/-- Five vertical I, one on the other. -/
theorem restart_iff_column :
    (play 4 0 (List.replicate 50 (.hardDrop, 4, 0))).restartGame 2 7 = initGame 2 7 :=
  ((restart_iff 4 0 (List.replicate 50 (.hardDrop, 4, 0)) 2 7 (by decide +kernel)).mpr
    (by decide +kernel)).1

/-- A game that ends after ten lines. -/
theorem restart_fast : ¬∀ (r₁ r₂ : Nat) (rounds : List (InputEvent × Nat × Nat)) (q₁ q₂ : Nat),
    (play r₁ r₂ rounds).gameOver = true →
      (play r₁ r₂ rounds).restartGame q₁ q₂ = initGame q₁ q₂ ∧
        ∀ later : List (InputEvent × Nat × Nat),
          later.foldl (fun g r => g.gameLoop r.1 r.2.1 r.2.2)
            ((play r₁ r₂ rounds).restartGame q₁ q₂) = play q₁ q₂ later := by
  intro hall
  obtain ⟨s₁, hreach₁, hs₁⟩ := reaches_cycles 5
  obtain ⟨s, hreach₂, hover, hlines⟩ := reaches_end hs₁
  obtain ⟨rounds, rfl⟩ := Reaches.playTally (hreach₁.trans hreach₂)
  have hcounts := playTally_counts 0 0 rounds
  unfold Counts at hcounts
  rw [tally_iterate, hlines, playTally_fst] at hcounts
  have hlevel : (play 0 0 rounds).currentLevel = 1 := (Prod.ext_iff.mp hcounts).2
  rw [playTally_fst] at hover
  have hfresh := (hall 0 0 rounds 0 0 hover).1
  have heq := restartGame_eq 0 0 (play_inv 0 0 rounds) (play_ended 0 0 rounds) hover
  rw [hfresh] at heq
  have hfreq : 48 = (play 0 0 rounds).getCurrFallFreq := congrArg Game.fallFreq heq
  have hzero := (play 0 0 rounds).getCurrFallFreq_fresh.mp hfreq.symm
  rw [hlevel] at hzero
  cases hzero

end Tetris.Game
