import Mathlib
import Ewokos.Tetris.Stacking

/-!
# sdl_tetris: clearing lines

* `Clears` — what a lock has to do to the stack.
* `play_lock` — every lock that does not end the game does it.
* `level_iff` — when the level is the number of lines by tens.
-/

set_option autoImplicit false

namespace Tetris.Game

/-- The full rows of the grid with the piece are gone and empty rows are on top, where `g` is the
game in front of the round, `h` the game with its event, and `g'` the game behind it. -/
def Clears (g h g' : Game) : Prop :=
  g'.grid.rows =
      List.replicate h.placed.fullRows emptyRow ++ h.placed.rows.filter (!fullRow ·) ∧
    g'.grid.occupied + 10 * h.placed.fullRows = g.grid.occupied + 4

/-- **Line clearing.**  A lock that does not end the game conserves the stack; the score is an
`uint32_t`. -/
theorem play_lock (r₁ r₂ : Nat) (rounds : List (InputEvent × Nat × Nat)) (event : InputEvent)
    (q₁ q₂ : Nat) (hrun : (play r₁ r₂ rounds).gameOver = false) (hquit : event ≠ .quit)
    (hlock : ((play r₁ r₂ rounds).handleInputEvent event).Locks)
    (hgo : ((play r₁ r₂ rounds).gameLoop event q₁ q₂).gameOver = false) :
    Clears (play r₁ r₂ rounds) ((play r₁ r₂ rounds).handleInputEvent event)
        ((play r₁ r₂ rounds).gameLoop event q₁ q₂) ∧
      ((play r₁ r₂ rounds).gameLoop event q₁ q₂).score =
        ((play r₁ r₂ rounds).score + 1 +
          lineScore ((play r₁ r₂ rounds).handleInputEvent event).placed.fullRows) % 2 ^ 32 := by
  have hinv := play_inv r₁ r₂ rounds
  have hpiece := play_piece r₁ r₂ rounds
  exact ⟨lock_conserves q₁ q₂ hinv hpiece hrun hquit hlock hgo,
    (gameLoop_rows q₁ q₂ hinv hpiece hrun hquit hlock).2.1⟩

/-- Five squares side by side clear two rows. -/
theorem play_lock_floor : ∃ rounds : List (InputEvent × Nat × Nat),
    ((play 0 0 rounds).handleInputEvent .hardDrop).placed.fullRows = 2 ∧
      Clears (play 0 0 rounds) ((play 0 0 rounds).handleInputEvent .hardDrop)
        ((play 0 0 rounds).gameLoop .hardDrop 0 0) ∧
      ((play 0 0 rounds).gameLoop .hardDrop 0 0).score = 305 := by
  obtain ⟨s, hreach, hs⟩ := reaches_last init_flying
  obtain ⟨rounds, hrounds⟩ := Reaches.playTally hreach
  have hplay : play 0 0 rounds = s.1 := by rw [← playTally_fst, hrounds]
  have hover : (s.1.gameLoop .hardDrop 0 0).gameOver = false := by
    rw [← Bool.not_eq_true, hs.over (by decide) hs.last_locks]
    decide
  have htwo : (s.1.handleInputEvent .hardDrop).placed.fullRows = 2 := hs.last_fullRows
  obtain ⟨hclears, hscore⟩ := play_lock 0 0 rounds .hardDrop 0 0 (by rw [hplay]; exact hs.running)
    (by decide) (by rw [hplay]; exact hs.last_locks) (by rw [hplay]; exact hover)
  refine ⟨rounds, by rw [hplay]; exact htwo, hclears, hscore.trans ?_⟩
  rw [hplay, htwo, hs.score]
  rfl

/-- The score of a long game comes to 0 again. -/
theorem score_wraps :
    ¬∀ (r₁ r₂ : Nat) (rounds : List (InputEvent × Nat × Nat)) (event : InputEvent) (q₁ q₂ : Nat),
      (play r₁ r₂ rounds).gameOver = false → event ≠ .quit →
      ((play r₁ r₂ rounds).handleInputEvent event).Locks →
      ((play r₁ r₂ rounds).gameLoop event q₁ q₂).gameOver = false →
      Clears (play r₁ r₂ rounds) ((play r₁ r₂ rounds).handleInputEvent event)
          ((play r₁ r₂ rounds).gameLoop event q₁ q₂) ∧
        ((play r₁ r₂ rounds).gameLoop event q₁ q₂).score =
          (play r₁ r₂ rounds).score + 1 +
            lineScore ((play r₁ r₂ rounds).handleInputEvent event).placed.fullRows := by
  intro hall
  obtain ⟨s₁, hreach₁, hs₁⟩ := reaches_cycles 14081859
  obtain ⟨s, hreach₂, hs⟩ := reaches_last hs₁
  obtain ⟨rounds, hrounds⟩ := Reaches.playTally (hreach₁.trans hreach₂)
  have hplay : play 0 0 rounds = s.1 := by rw [← playTally_fst, hrounds]
  have hover : (s.1.gameLoop .hardDrop 0 0).gameOver = false := by
    rw [← Bool.not_eq_true, hs.over (by decide) hs.last_locks]
    decide
  have hscored := (hall 0 0 rounds .hardDrop 0 0 (by rw [hplay]; exact hs.running) (by decide)
    (by rw [hplay]; exact hs.last_locks) (by rw [hplay]; exact hover)).2
  have hreal := (gameLoop_rows 0 0 hs.inv hs.piece hs.running (by decide) hs.last_locks).2.1
  have htwo : (s.1.handleInputEvent .hardDrop).placed.fullRows = 2 := hs.last_fullRows
  have hlines : lineScore 2 = 300 := rfl
  have hscore := hs.score
  rw [hplay, hreal, htwo, hlines] at hscored
  omega

/-! ## Levels -/

theorem level_eq_iff {n : Nat} (h : n < 2560) :
    (26 * (n / 256) + n % 256 / 10) % 256 = n / 10 ↔ 4 * (n / 256) ≤ n % 256 % 10 := by
  obtain ⟨q, r, hr, rfl⟩ : ∃ q r, r < 256 ∧ n = 256 * q + r :=
    ⟨n / 256, n % 256, Nat.mod_lt n (by decide), (Nat.div_add_mod n 256).symm⟩
  have hdiv : (256 * q + r) / 256 = q := by omega
  have hmod : (256 * q + r) % 256 = r := by omega
  have hq : q ≤ 9 := by omega
  rw [hdiv, hmod]
  interval_cases q <;> omega

/-- **The level.**  It is the number of lines by tens exactly as long as the counter of lines, which
comes to 0 with every 256th line, has brought no line forward: each time it does the level is 26
instead of 25.6 higher. -/
theorem level_iff (r₁ r₂ : Nat) (rounds : List (InputEvent × Nat × Nat))
    (hlevel : (playTally r₁ r₂ rounds).2 / 10 < 256) :
    (play r₁ r₂ rounds).currentLevel = (playTally r₁ r₂ rounds).2 / 10 ↔
      4 * ((playTally r₁ r₂ rounds).2 / 256) ≤ (playTally r₁ r₂ rounds).2 % 256 % 10 := by
  have hcounts := playTally_counts r₁ r₂ rounds
  unfold Counts at hcounts
  rw [tally_iterate, playTally_fst] at hcounts
  have hcurrent := (Prod.ext_iff.mp hcounts).2
  dsimp only at hcurrent
  rw [hcurrent]
  exact level_eq_iff (by omega)

/-- After 130 lines the level is 13. -/
theorem level_iff_start : ∃ rounds : List (InputEvent × Nat × Nat),
    (playTally 0 0 rounds).2 = 130 ∧ (play 0 0 rounds).currentLevel = 13 := by
  obtain ⟨s, hreach, hs⟩ := reaches_cycles 65
  obtain ⟨rounds, rfl⟩ := hreach.playTally
  have hlines : (playTally 0 0 rounds).2 = 130 := hs.lines
  have hlevel := (level_iff 0 0 rounds (by rw [hlines]; decide)).mpr (by rw [hlines])
  exact ⟨rounds, hlines, hlevel.trans (by rw [hlines])⟩

/-- The 256th line is one level more. -/
theorem level_early : ¬∀ (r₁ r₂ : Nat) (rounds : List (InputEvent × Nat × Nat)),
    (playTally r₁ r₂ rounds).2 / 10 < 256 →
      (play r₁ r₂ rounds).currentLevel = (playTally r₁ r₂ rounds).2 / 10 := by
  intro hall
  obtain ⟨s, hreach, hs⟩ := reaches_cycles 128
  obtain ⟨rounds, rfl⟩ := hreach.playTally
  have hlines := hs.lines
  have hcounts := playTally_counts 0 0 rounds
  have hlevel := hall 0 0 rounds (by rw [hlines]; decide)
  unfold Counts at hcounts
  rw [tally_iterate, playTally_fst] at hcounts
  have hcurrent := (Prod.ext_iff.mp hcounts).2
  dsimp only at hcurrent
  rw [hcurrent, hlines] at hlevel
  exact absurd hlevel (by decide)

end Tetris.Game
