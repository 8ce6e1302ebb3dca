import Mathlib
import Ewokos.Tetris.Lines

/-!
# sdl_tetris: stacked squares

Games with no other shape than the O, which can go on for ever: five of them fill the two lowest
rows.

* `Flying` — an O at a position over filled cells.
* `Flying.side`, `Flying.drop` — rounds that move it; `Flying.place` — it comes to any column.
* `Flying.lock`, `Flying.stacked` — the round that stores it.
* `reaches_cycles` — any number of times the two lowest rows are filled and cleared.
-/

set_option autoImplicit false

namespace Tetris

/-- The O. -/
def square : Shape := [(0, 0), (1, 0), (0, 1), (1, 1)]

namespace Game

/-- One round, with any event and any answers of `rand`. -/
def Step (s s' : Game × Nat) : Prop := ∃ event r₁ r₂, s' = tallyLoop s event r₁ r₂

abbrev Reaches : Game × Nat → Game × Nat → Prop := Relation.ReflTransGen Step

theorem Reaches.playTally {r₁ r₂ : Nat} {s : Game × Nat} (h : Reaches (initGame r₁ r₂, 0) s) :
    ∃ rounds, playTally r₁ r₂ rounds = s := by
  induction h with
  | refl => exact ⟨[], rfl⟩
  | tail _ hstep ih =>
    obtain ⟨rounds, rfl⟩ := ih
    obtain ⟨event, q₁, q₂, rfl⟩ := hstep
    refine ⟨rounds ++ [(event, q₁, q₂)], ?_⟩
    unfold Game.playTally
    rw [List.foldl_append]
    rfl

/-! ## Rounds without a lock -/

theorem getCurrFallFreq_bounds (g : Game) : 1 ≤ g.getCurrFallFreq ∧ g.getCurrFallFreq ≤ 48 := by
  have hall : ∀ i < 15, 1 ≤ LEVEL_FREQS.getD i 0 ∧ LEVEL_FREQS.getD i 0 ≤ 48 := by decide
  unfold getCurrFallFreq MAX_LEVEL_FREQ
  split
  · exact hall 14 (by decide)
  · rename_i h
    exact hall _ (Nat.not_le.mp h)

/-- A round in which the piece does not lie on anything. -/
theorem gameLoop_flies (q₁ q₂ : Nat) {g : Game} {event : InputEvent} (hrun : g.gameOver = false)
    (hquit : event ≠ .quit) (hland : (g.handleInputEvent event).landed = false)
    (hfreq : (g.handleInputEvent event).fallFreq ≤ 48) :
    ∃ n y b, g.gameLoop event q₁ q₂ =
        { g.handleInputEvent event with iteration := n, currentY := y, stateChanged := b } ∧
      n < 48 ∧
      y = if (g.handleInputEvent event).fallFreq ≤
          ((g.handleInputEvent event).iteration + 1) % 256 then
        (g.handleInputEvent event).currentY + 1 else (g.handleInputEvent event).currentY := by
  unfold gameLoop
  rw [if_neg hquit, if_neg (ne_true_of_eq_false hrun), updateFrame_frame]
  generalize g.handleInputEvent event = h at hland hfreq ⊢
  unfold fall
  dsimp only
  by_cases hlt : (h.iteration + 1) % 256 < h.fallFreq
  · rw [if_pos hlt, if_neg (Nat.not_le.mpr hlt)]
    refine ⟨_, _, _, rfl, ?_, rfl⟩
    dsimp only
    omega
  · have hland' : landed { h with iteration := 0 } = false := hland
    rw [if_neg hlt, if_pos (Nat.not_lt.mp hlt), if_neg (ne_true_of_eq_false hland')]
    refine ⟨_, _, _, rfl, ?_, rfl⟩
    dsimp only
    omega

theorem cleared_flies {g : Game} {event : InputEvent}
    (hland : (g.handleInputEvent event).landed = false) : g.cleared event = 0 := by
  unfold cleared Locks
  rw [if_neg]
  rintro ⟨-, -, -, h⟩
  rw [hland] at h
  cases h

/-! ## An O in the air -/

/-- An O at `(x, y)` in a running game; `filled` are the cells of the grid that are not empty. -/
structure Flying (filled : Int → Int → Prop) (x y : Int) (score lines : Nat) (s : Game × Nat) :
    Prop where
  inv : s.1.Inv
  piece : s.1.Piece
  running : s.1.gameOver = false
  early : s.1.iteration < 48
  shape : s.1.currentShape = square
  column : s.1.currentX = x
  row : s.1.currentY = y
  grid : ∀ i j : Int, 0 ≤ i → i < GRID_WIDTH → 0 ≤ j → j < GRID_HEIGHT →
    (s.1.grid i j ≠ 0 ↔ filled i j)
  score : s.1.score = score % 2 ^ 32
  lines : s.2 = lines

section Moves

variable {filled : Int → Int → Prop} {x y : Int} {score lines : Nat} {s : Game × Nat}

/-- The cells of an O. -/
theorem cells_square {g : Game} (hshape : g.currentShape = square) : g.cells =
    [(g.currentX, g.currentY), (g.currentX + 1, g.currentY), (g.currentX, g.currentY + 1),
      (g.currentX + 1, g.currentY + 1)] := by
  simp [cells, cellsAt, hshape, square, Int.add_comm]

theorem not_landed {g : Game} (hshape : g.currentShape = square)
    (h : ∀ i j, i = g.currentX ∨ i = g.currentX + 1 → j = g.currentY + 1 ∨ j = g.currentY + 2 →
      g.detectCollision i j = false) : g.landed = false := by
  unfold landed
  rw [cells_square hshape]
  simp [h, Int.add_assoc]

theorem Flying.free (h : Flying filled x y score lines s) {i j : Int} (hi : 0 ≤ i)
    (hi' : i < GRID_WIDTH) (hj : 0 ≤ j) (hj' : j < GRID_HEIGHT) (hfree : ¬filled i j) :
    s.1.detectCollision i j = false := by
  rw [detectCollision_eq_false]
  exact ⟨⟨hi, hi', hj'⟩, fun _ => not_not.mp fun hne => hfree ((h.grid i j hi hi' hj hj').mp hne)⟩

/-- A round whose event leaves the O over empty cells. -/
theorem Flying.flies (h : Flying filled x y score lines s) {event : InputEvent}
    (hquit : event ≠ .quit) {f : Nat} {x' : Int} {b : Bool}
    (hmove : s.1.handleInputEvent event =
      { s.1 with fallFreq := f, currentX := x', stateChanged := b }) (hf : f ≤ 48)
    (hfree : ∀ i j, i = x' ∨ i = x' + 1 → j = y + 1 ∨ j = y + 2 →
      s.1.detectCollision i j = false) :
    ∃ s', Step s s' ∧
      Flying filled x' (if f ≤ (s.1.iteration + 1) % 256 then y + 1 else y) score lines s' := by
  have hland : (s.1.handleInputEvent event).landed = false := by
    rw [hmove]
    refine not_landed h.shape fun i j hi hj => hfree i j hi ?_
    rw [← h.row]
    exact hj
  have hfreq : (s.1.handleInputEvent event).fallFreq ≤ 48 := by
    rw [hmove]
    exact hf
  obtain ⟨n, y', b, hloop, hn, hy⟩ := gameLoop_flies 0 0 h.running hquit hland hfreq
  have hcleared := cleared_flies hland
  rw [hmove] at hloop hy
  dsimp only at hy
  rw [h.row] at hy
  have hinv := gameLoop_inv event 0 0 h.inv
  have hpiece := gameLoop_piece event 0 0 h.piece
  refine ⟨_, ⟨event, 0, 0, rfl⟩, ?_⟩
  rw [← hy, tallyLoop, hcleared,
    if_neg fun hc => by rw [h.running] at hc; exact Bool.noConfusion hc.1]
  refine ⟨hinv, hpiece, ?_, ?_, ?_, ?_, ?_, ?_, ?_, h.lines⟩
  all_goals dsimp only
  all_goals rw [hloop]
  · exact h.running
  · exact hn
  · exact h.shape
  · exact h.grid
  · exact h.score

/-- A round that moves the O to the side; it may also fall. -/
theorem Flying.side (h : Flying filled x y score lines s) {event : InputEvent} {d : Int}
    (hd : event = .left ∧ d = -1 ∨ event = .right ∧ d = 1)
    (hxd : 0 ≤ x + d) (hxd' : x + d ≤ 8) (hy : 0 ≤ y) (hy' : y < 17)
    (hfree : ∀ i j, filled i j → y + 2 < j) :
    ∃ s' y', Step s s' ∧ y ≤ y' ∧ y' ≤ y + 1 ∧ Flying filled (x + d) y' score lines s' := by
  have hw : (GRID_WIDTH : Int) = 10 := rfl
  have hh : (GRID_HEIGHT : Int) = 20 := rfl
  have hcollide : ∀ i j : Int, 0 ≤ i → i ≤ 9 → 0 ≤ j → j ≤ y + 2 →
      s.1.detectCollision i j = false := fun i j hi hi' hj hj' =>
    h.free hi (by omega) hj (by omega) fun hf => by
      have := hfree i j hf
      omega
  have hmove : s.1.handleInputEvent event = { s.1 with
      fallFreq := s.1.getCurrFallFreq, currentX := x + d, stateChanged := true } := by
    have hside : s.1.handleInputEvent event = s.1.moveSide d := by
      rcases hd with ⟨rfl, rfl⟩ | ⟨rfl, rfl⟩
      · rfl
      · rfl
    have hno : s.1.resetFallFreq.cells.any (fun c =>
        s.1.resetFallFreq.detectCollision (c.1 + d) c.2) = false := by
      change s.1.cells.any (fun c => s.1.detectCollision (c.1 + d) c.2) = false
      rw [cells_square h.shape, h.column, h.row]
      simp [hcollide (x + d) y (by omega) (by omega) (by omega) (by omega),
        hcollide (x + 1 + d) y (by omega) (by omega) (by omega) (by omega),
        hcollide (x + d) (y + 1) (by omega) (by omega) (by omega) (by omega),
        hcollide (x + 1 + d) (y + 1) (by omega) (by omega) (by omega) (by omega)]
    rw [hside, moveSide]
    dsimp only
    rw [hno, if_neg Bool.false_ne_true, ← h.column]
    rfl
  have hquit : event ≠ .quit := by
    rcases hd with ⟨rfl, -⟩ | ⟨rfl, -⟩
    · decide
    · decide
  obtain ⟨s', hstep, hs'⟩ := h.flies hquit hmove s.1.getCurrFallFreq_bounds.2 fun i j hi hj =>
    hcollide i j (by omega) (by omega) (by omega) (by omega)
  refine ⟨s', _, hstep, ?_, ?_, hs'⟩
  · split <;> omega
  · split <;> omega

/-- A round that lets the O fall by one row. -/
theorem Flying.drop (h : Flying filled x y score lines s) (hx : 0 ≤ x) (hx' : x ≤ 8) (hy : 0 ≤ y)
    (hy' : y < 18) (hfree : ∀ i j, i = x ∨ i = x + 1 → j = y + 1 ∨ j = y + 2 → ¬filled i j) :
    ∃ s', Step s s' ∧ Flying filled x (y + 1) score lines s' := by
  have hw : (GRID_WIDTH : Int) = 10 := rfl
  have hh : (GRID_HEIGHT : Int) = 20 := rfl
  have hfreq : (if s.1.getCurrFallFreq < HARD_FREQ then s.1.getCurrFallFreq else HARD_FREQ) = 1 :=
    if_neg (Nat.not_lt.mpr s.1.getCurrFallFreq_bounds.1)
  have hmove : s.1.handleInputEvent .hardDrop = { s.1 with
      fallFreq := 1, currentX := x, stateChanged := s.1.stateChanged } := by
    rw [handleInputEvent, updateFallFreq, hfreq, ← h.column]
  obtain ⟨s', hstep, hs'⟩ := h.flies (by decide) hmove (by decide) fun i j hi hj =>
    h.free (by omega) (by omega) (by omega) (by omega) (hfree i j hi hj)
  have hearly := h.early
  rw [if_pos (by omega)] at hs'
  exact ⟨s', hstep, hs'⟩

theorem Flying.sides {event : InputEvent} {d : Int}
    (hd : event = .left ∧ d = -1 ∨ event = .right ∧ d = 1) (hfree : ∀ i j, filled i j → 10 ≤ j) :
    ∀ {n : Nat} {x y : Int} {s : Game × Nat}, Flying filled x y score lines s → 0 ≤ x → x ≤ 8 →
      0 ≤ x + n * d → x + n * d ≤ 8 → 0 ≤ y → y + n ≤ 6 →
      ∃ s' y', Reaches s s' ∧ 0 ≤ y' ∧ y' ≤ 6 ∧ Flying filled (x + n * d) y' score lines s'
  | 0, x, y, s, h, _, _, _, _, hy, hy' => by
    rw [Nat.cast_zero, Int.zero_mul, Int.add_zero]
    exact ⟨s, y, .refl, hy, by omega, h⟩
  | n + 1, x, y, s, h, hx, hx', hxn, hxn', hy, hy' => by
    have hnext : x + (n + 1 : Nat) * d = x + d + n * d := by
      rw [Nat.cast_add, Nat.cast_one, Int.add_mul, Int.one_mul]
      omega
    rw [hnext] at hxn hxn' ⊢
    have hxd : 0 ≤ x + d ∧ x + d ≤ 8 := by
      rcases hd with ⟨-, rfl⟩ | ⟨-, rfl⟩
      · omega
      · omega
    obtain ⟨s₁, y₁, hstep, hy₁, hy₁', hs₁⟩ := h.side hd hxd.1 hxd.2 hy (by omega)
      fun i j hf => by
        have := hfree i j hf
        omega
    obtain ⟨s₂, y₂, hreach, hy₂, hy₂', hs₂⟩ := Flying.sides hd hfree (n := n) hs₁ hxd.1 hxd.2 hxn hxn'
      (by omega) (by omega)
    exact ⟨s₂, y₂, .head hstep hreach, hy₂, hy₂', hs₂⟩

theorem Flying.drops {b : Int} (hx : 0 ≤ x) (hx' : x ≤ 8) (hb : b ≤ 18)
    (hfree : ∀ i j, i = x ∨ i = x + 1 → j ≤ b + 1 → ¬filled i j) :
    ∀ {n : Nat} {y : Int} {s : Game × Nat}, Flying filled x y score lines s → 0 ≤ y →
      y + n = b → ∃ s', Reaches s s' ∧ Flying filled x b score lines s'
  | 0, y, s, h, _, hn => by
    have hyb : y = b := by omega
    subst hyb
    exact ⟨s, .refl, h⟩
  | n + 1, y, s, h, hy, hn => by
    obtain ⟨s₁, hstep, hs₁⟩ := h.drop hx hx' hy (by omega) fun i j hi hj =>
      hfree i j hi (by omega)
    obtain ⟨s₂, hreach, hs₂⟩ := Flying.drops hx hx' hb hfree (n := n) hs₁ (by omega)
      (by omega)
    exact ⟨s₂, .head hstep hreach, hs₂⟩

/-- From the top to row `b` of any column. -/
theorem Flying.place (h : Flying filled 5 0 score lines s) {c b : Int} (hc : 0 ≤ c) (hc' : c ≤ 8)
    (hb : 6 ≤ b) (hb' : b ≤ 18) (htop : ∀ i j, filled i j → 10 ≤ j)
    (hfree : ∀ i j, i = c ∨ i = c + 1 → j ≤ b + 1 → ¬filled i j) :
    ∃ s', Reaches s s' ∧ Flying filled c b score lines s' := by
  have hside : ∃ s₁ y₁, Reaches s s₁ ∧ 0 ≤ y₁ ∧ y₁ ≤ 6 ∧ Flying filled c y₁ score lines s₁ := by
    by_cases hleft : c ≤ 5
    · have hn : (5 : Int) + (5 - c).toNat * -1 = c := by omega
      have hmoved := Flying.sides (.inl ⟨rfl, rfl⟩) htop (n := (5 - c).toNat) h (by omega) (by omega)
        (by omega) (by omega) (by omega) (by omega)
      rwa [hn] at hmoved
    · have hn : (5 : Int) + (c - 5).toNat * 1 = c := by omega
      have hmoved := Flying.sides (.inr ⟨rfl, rfl⟩) htop (n := (c - 5).toNat) h (by omega) (by omega)
        (by omega) (by omega) (by omega) (by omega)
      rwa [hn] at hmoved
  obtain ⟨s₁, y₁, hreach₁, hy₁, hy₁', hs₁⟩ := hside
  obtain ⟨s₂, hreach₂, hs₂⟩ := Flying.drops hc hc' hb' hfree (n := (b - y₁).toNat) hs₁ hy₁
    (by omega)
  exact ⟨s₂, hreach₁.trans hreach₂, hs₂⟩

/-! ## An O that lies on something -/

/-- The filled cells with an O at `(x, b)`. -/
def Stacked (filled : Int → Int → Prop) (x b : Int) (i j : Int) : Prop :=
  filled i j ∨ (i = x ∨ i = x + 1) ∧ (j = b ∨ j = b + 1)

theorem Flying.placed (h : Flying filled x y score lines s) {i j : Int} (hi : 0 ≤ i)
    (hi' : i < GRID_WIDTH) (hj : 0 ≤ j) (hj' : j < GRID_HEIGHT) :
    s.1.placed i j ≠ 0 ↔ Stacked filled x y i j := by
  have hmem : (i, j) ∈ s.1.cells ↔ (i = x ∨ i = x + 1) ∧ (j = y ∨ j = y + 1) := by
    rw [cells_square h.shape, h.column, h.row]
    simp only [List.mem_cons, List.not_mem_nil, or_false, Prod.mk.injEq]
    tauto
  unfold Game.placed Stacked
  rw [← hmem, ← h.grid i j hi hi' hj hj']
  by_cases hc : (i, j) ∈ s.1.cells
  · rw [if_pos hc]
    exact iff_of_true h.piece.color (.inr hc)
  · rw [if_neg hc, or_iff_left hc]

theorem Flying.locks (h : Flying filled x y score lines s) (hx : 0 ≤ x) (hy : 0 ≤ y)
    (hland : y = 18 ∨ y < 18 ∧ filled x (y + 2)) : (s.1.handleInputEvent .hardDrop).Locks := by
  have hw : (GRID_WIDTH : Int) = 10 := rfl
  have hh : (GRID_HEIGHT : Int) = 20 := rfl
  have hearly := h.early
  have hfreq : (if s.1.getCurrFallFreq < HARD_FREQ then s.1.getCurrFallFreq else HARD_FREQ) = 1 :=
    if_neg (Nat.not_lt.mpr s.1.getCurrFallFreq_bounds.1)
  have hcollide : s.1.detectCollision x (y + 2) = true := by
    by_contra hfree
    rw [Bool.not_eq_true, detectCollision_eq_false] at hfree
    rcases hland with rfl | ⟨hlt, hf⟩
    · omega
    · exact (h.grid x (y + 2) hx (by omega) (by omega) (by omega)).mpr hf (hfree.2 (by omega))
  refine ⟨?_, ?_⟩
  · change (if s.1.getCurrFallFreq < HARD_FREQ then s.1.getCurrFallFreq else HARD_FREQ) ≤
      (s.1.iteration + 1) % 256
    rw [hfreq]
    omega
  · change s.1.landed = true
    unfold landed
    rw [cells_square h.shape, h.column, h.row]
    refine List.any_eq_true.mpr ⟨(x, y + 1), by simp, ?_⟩
    rw [← hcollide, Int.add_assoc]
    rfl

theorem spawnShape_row {g : Game} (q : Nat)
    (hfree : ∀ i j, i = 5 ∨ i = 6 → j = 0 ∨ j = 1 → g.grid i j = 0) :
    (g.spawnShape 0 q).currentY = 0 := by
  have hstart : (g.spawnShape 0 q).currentY = (g.spawnShape 0 q).descend 2 (-2) := rfl
  have hblocked : ∀ y : Int, y = -1 ∨ y = 0 → (g.spawnShape 0 q).blocked y = false := by
    intro y hy
    refine List.any_eq_false.mpr fun c hc => ?_
    obtain ⟨d, hd, rfl⟩ := mem_cellsAt.mp hc
    have hd' : d ∈ square := hd
    simp only [square, List.mem_cons, List.not_mem_nil, or_false] at hd'
    have hcol : (g.spawnShape 0 q).currentX = 5 := rfl
    rw [hcol]
    change ¬(decide (d.2 + y ≥ 0) && g.grid (d.1 + 5) (d.2 + y) != 0) = true
    by_cases hrow : d.2 + y ≥ 0
    · have hzero := hfree (d.1 + 5) (d.2 + y) (by rcases hd' with rfl | rfl | rfl | rfl <;> simp)
        (by rcases hd' with rfl | rfl | rfl | rfl <;> dsimp only at hrow ⊢ <;> omega)
      simp [hzero]
    · simp [hrow]
  rw [hstart, descend, hblocked (-2 + 1) (.inl rfl), if_neg Bool.false_ne_true, descend,
    hblocked (-2 + 1 + 1) (.inr rfl), if_neg Bool.false_ne_true]
  rfl

/-- Whether the round that stores an O ends the game. -/
theorem Flying.over (h : Flying filled x y score lines s) (hy : 0 ≤ y)
    (hlock : (s.1.handleInputEvent .hardDrop).Locks) (q₁ q₂ : Nat) :
    (s.1.gameLoop .hardDrop q₁ q₂).gameOver = true ↔ y = 0 := by
  have hfall := (fall_spec q₁ q₂ (handleInputEvent_inv h.inv .hardDrop)
    (by rw [handleInputEvent_gameOver]; exact h.running)).2.1
  unfold gameLoop
  rw [if_neg (by decide), if_neg (by rw [h.running]; exact Bool.false_ne_true),
    updateFrame_gameOver, hfall, and_iff_right hlock]
  change (∃ c ∈ s.1.cells, c.2 = 0) ↔ y = 0
  rw [cells_square h.shape, h.column, h.row]
  simp only [List.mem_cons, List.not_mem_nil, or_false, exists_eq_or_imp, exists_eq_left]
  omega

/-- The round that stores an O below row 0; the next shape is an O, too. -/
theorem Flying.lock (h : Flying filled x y score lines s) (hy : 1 ≤ y)
    (hlock : (s.1.handleInputEvent .hardDrop).Locks) {filled' : Int → Int → Prop}
    (hgrid : ∀ i j : Int, 0 ≤ i → i < GRID_WIDTH → 0 ≤ j → j < GRID_HEIGHT →
      ((s.1.gameLoop .hardDrop 0 0).grid i j ≠ 0 ↔ filled' i j))
    (htop : ∀ i j, filled' i j → 2 ≤ j) :
    ∃ s', Step s s' ∧ Flying filled' 5 0
      (score + 1 + lineScore s.1.placed.fullRows) (lines + s.1.placed.fullRows) s' := by
  obtain ⟨-, hscore, -, -, hiter⟩ := gameLoop_rows 0 0 h.inv h.piece h.running (by decide) hlock
  have hover : (s.1.gameLoop .hardDrop 0 0).gameOver = false := by
    rw [← Bool.not_eq_true, h.over (by omega) hlock]
    omega
  have hcleared : s.1.cleared .hardDrop = s.1.placed.fullRows :=
    if_pos ⟨h.running, by decide, hlock⟩
  refine ⟨_, ⟨.hardDrop, 0, 0, rfl⟩, ?_⟩
  unfold tallyLoop
  rw [if_neg fun hc => by rw [h.running] at hc; exact Bool.noConfusion hc.1, hcleared, h.lines]
  have hspawn := gameLoop_lock 0 0 h.running (by decide) hlock
  rw [updateFrame_frame] at hspawn
  refine ⟨gameLoop_inv .hardDrop 0 0 h.inv, gameLoop_piece .hardDrop 0 0 h.piece, hover, ?_, ?_, ?_,
    ?_, hgrid, ?_, rfl⟩
  · dsimp only
    omega
  · dsimp only
    rw [hspawn]
    rfl
  · dsimp only
    rw [hspawn]
    rfl
  · dsimp only
    have hfree : ∀ i j, i = 5 ∨ i = 6 → j = 0 ∨ j = 1 →
        (s.1.gameLoop .hardDrop 0 0).grid i j = 0 := by
      intro i j hi hj
      have hw : (GRID_WIDTH : Int) = 10 := rfl
      have hh : (GRID_HEIGHT : Int) = 20 := rfl
      by_contra hne
      have := htop i j ((hgrid i j (by omega) (by omega) (by omega) (by omega)).mp hne)
      omega
    rw [hspawn] at hfree ⊢
    exact spawnShape_row 0 hfree
  · rw [Nat.add_assoc, ← Nat.mod_add_mod, ← h.score, ← Nat.add_assoc]
    exact hscore

/-- An O that completes no row: some column is free. -/
theorem Flying.stack (h : Flying filled x y score lines s) (hx : 0 ≤ x) (hy : 2 ≤ y)
    (hland : y = 18 ∨ y < 18 ∧ filled x (y + 2)) (htop : ∀ i j, filled i j → 2 ≤ j) {c : Int}
    (hc : 0 ≤ c) (hc' : c < GRID_WIDTH) (hfree : ∀ j, ¬Stacked filled x y c j) :
    ∃ s', Step s s' ∧ Flying (Stacked filled x y) 5 0 (score + 1) lines s' := by
  have hlock := h.locks hx (by omega) hland
  have hnotFull : ∀ r ∈ s.1.placed.rows, ¬fullRow r = true := by
    intro r hr hfull
    obtain ⟨j, hj, rfl⟩ := List.mem_map.mp hr
    rw [List.mem_range] at hj
    rw [fullRow_iff] at hfull
    exact hfree j ((h.placed hc hc' (by omega) (by omega)).mp (hfull c hc hc'))
  have hnone : s.1.placed.fullRows = 0 := List.countP_eq_zero.mpr hnotFull
  have hrows := (gameLoop_rows 0 0 h.inv h.piece h.running (by decide) hlock).1
  change _ = List.replicate s.1.placed.fullRows (s.1.placed.row 0) ++
    s.1.placed.rows.filter (!fullRow ·) at hrows
  rw [hnone, List.replicate_zero, List.nil_append, List.filter_eq_self.mpr fun r hr => by
    rw [Bool.not_eq_true', Bool.eq_false_iff]; exact hnotFull r hr] at hrows
  have hgrid : ∀ i j : Int, 0 ≤ i → i < GRID_WIDTH → 0 ≤ j → j < GRID_HEIGHT →
      ((s.1.gameLoop .hardDrop 0 0).grid i j ≠ 0 ↔ Stacked filled x y i j) := by
    intro i j hi hi' hj hj'
    rw [Grid.cell_of_rows hrows hi hi' hj hj']
    exact h.placed hi hi' hj hj'
  obtain ⟨s', hstep, hs'⟩ := h.lock (by omega) hlock hgrid fun i j hf => by
    rcases hf with hf | ⟨-, hj⟩
    · exact htop i j hf
    · omega
  rw [hnone] at hs'
  exact ⟨s', hstep, hs'⟩

end Moves

/-! ## Cycles -/

/-- The two lowest rows of the first `2 * m` columns. -/
def Bottom (m : Nat) (i j : Int) : Prop := i < 2 * m ∧ 18 ≤ j

theorem Bottom.stacked {m : Nat} {i j : Int} (hj : j < GRID_HEIGHT) :
    Stacked (Bottom m) (2 * m) 18 i j ↔ Bottom (m + 1) i j := by
  have hh : (GRID_HEIGHT : Int) = 20 := rfl
  unfold Stacked Bottom
  rw [Nat.cast_add, Nat.cast_one]
  omega

section Last

variable {score lines : Nat} {s : Game × Nat} (h : Flying (Bottom 4) 8 18 score lines s)

include h

theorem Flying.last_placed {i j : Int} (hi : 0 ≤ i) (hi' : i < GRID_WIDTH) (hj : 0 ≤ j)
    (hj' : j < GRID_HEIGHT) : s.1.placed i j ≠ 0 ↔ 18 ≤ j := by
  have hw : (GRID_WIDTH : Int) = 10 := rfl
  have hstacked := @Bottom.stacked 4 i j hj'
  rw [h.placed hi hi' hj hj']
  refine hstacked.trans ?_
  unfold Bottom
  omega

/-- The fifth O completes both rows. -/
theorem Flying.last_full : ∀ j ∈ List.range GRID_HEIGHT,
    fullRow (s.1.placed.row j) = decide (18 ≤ j) := by
  have hw : (GRID_WIDTH : Int) = 10 := rfl
  have hh : (GRID_HEIGHT : Int) = 20 := rfl
  intro j hj
  rw [List.mem_range] at hj
  rw [Bool.eq_iff_iff, fullRow_iff, decide_eq_true_eq]
  constructor
  · intro hrow
    have := (h.last_placed (i := 0) (j := j) (by omega) (by omega) (by omega) (by omega)).mp
      (hrow 0 (by omega) (by omega))
    omega
  · intro hle i hi hi'
    exact (h.last_placed hi hi' (by omega) (by omega)).mpr (by omega)

theorem Flying.last_fullRows : s.1.placed.fullRows = 2 := by
  rw [Grid.fullRows, Grid.rows, List.countP_map]
  exact (List.countP_congr fun j hj => by rw [Function.comp_apply, h.last_full j hj]).trans
    (by decide : (List.range GRID_HEIGHT).countP (fun j => decide (18 ≤ j)) = 2)

theorem Flying.last_locks : (s.1.handleInputEvent .hardDrop).Locks :=
  h.locks (by decide) (by decide) (.inl rfl)

theorem Flying.clear :
    ∃ s', Step s s' ∧ Flying (fun _ _ => False) 5 0 (score + 301) (lines + 2) s' := by
  have hw : (GRID_WIDTH : Int) = 10 := rfl
  have hh : (GRID_HEIGHT : Int) = 20 := rfl
  have hlock := h.last_locks
  have hzero : ∀ j : Nat, j < 18 → ∀ v ∈ s.1.placed.row j, v = 0 := by
    intro j hj v hv
    obtain ⟨i, hi, rfl⟩ := List.mem_map.mp hv
    rw [List.mem_range] at hi
    by_contra hne
    have := (h.last_placed (i := i) (j := j) (by omega) (by omega) (by omega) (by omega)).mp hne
    omega
  have hrows := (gameLoop_rows 0 0 h.inv h.piece h.running (by decide) hlock).1
  change _ = List.replicate s.1.placed.fullRows (s.1.placed.row 0) ++
    s.1.placed.rows.filter (!fullRow ·) at hrows
  have hgrid : ∀ i j : Int, 0 ≤ i → i < GRID_WIDTH → 0 ≤ j → j < GRID_HEIGHT →
      ((s.1.gameLoop .hardDrop 0 0).grid i j ≠ 0 ↔ False) := by
    intro i j hi hi' hj hj'
    obtain ⟨r, hr, hcell⟩ := (s.1.gameLoop .hardDrop 0 0).grid.mem_rows hi hi' hj hj'
    rw [hrows] at hr
    refine iff_false_intro (not_not.mpr ?_)
    rcases List.mem_append.mp hr with hr | hr
    · rw [List.eq_of_mem_replicate hr] at hcell
      exact hzero 0 (by omega) _ hcell
    · obtain ⟨hr, hnotFull⟩ := List.mem_filter.mp hr
      obtain ⟨y, hy, rfl⟩ := List.mem_map.mp hr
      rw [h.last_full y hy, Bool.not_eq_true', decide_eq_false_iff_not] at hnotFull
      exact hzero y (by omega) _ hcell
  obtain ⟨s', hstep, hs'⟩ := h.lock (by omega) hlock hgrid fun i j hf => hf.elim
  rw [h.last_fullRows] at hs'
  exact ⟨s', hstep, hs'⟩

end Last

theorem Flying.congr {filled filled' : Int → Int → Prop} {x y : Int} {score lines : Nat}
    {s : Game × Nat} (h : Flying filled x y score lines s)
    (hf : ∀ i j : Int, 0 ≤ i → i < GRID_WIDTH → 0 ≤ j → j < GRID_HEIGHT →
      (filled i j ↔ filled' i j)) :
    Flying filled' x y score lines s :=
  { h with grid := fun i j hi hi' hj hj' => (h.grid i j hi hi' hj hj').trans (hf i j hi hi' hj hj') }

/-- The next square over the ones on the floor. -/
theorem Flying.floor {m score lines : Nat} {s : Game × Nat} (h : Flying (Bottom m) 5 0 score lines s)
    (hm : m ≤ 4) : ∃ s', Reaches s s' ∧ Flying (Bottom m) (2 * m) 18 score lines s' := by
  refine h.place (by omega) (by omega) (by decide) (by decide) (fun i j hf => ?_)
    fun i j hi _ hf => ?_
  · unfold Bottom at hf
    omega
  · unfold Bottom at hf
    omega

/-- Squares side by side on the floor. -/
theorem reaches_bottom {score lines : Nat} {s : Game × Nat}
    (h : Flying (fun _ _ => False) 5 0 score lines s) : ∀ m : Nat, m ≤ 4 →
      ∃ s', Reaches s s' ∧ Flying (Bottom m) 5 0 (score + m) lines s'
  | 0, _ => by
    refine ⟨s, .refl, h.congr fun i j hi _ _ _ => iff_of_false id ?_⟩
    unfold Bottom
    omega
  | m + 1, hm => by
    obtain ⟨s₁, hreach₁, hs₁⟩ := reaches_bottom h m (by omega)
    obtain ⟨s₂, hreach₂, hs₂⟩ := hs₁.floor (by omega)
    have hw : (GRID_WIDTH : Int) = 10 := rfl
    obtain ⟨s₃, hstep, hs₃⟩ := hs₂.stack (c := 9) (by omega) (by decide) (.inl rfl)
      (fun i j hf => by unfold Bottom at hf; omega) (by omega) (by omega)
      fun j hf => by unfold Stacked Bottom at hf; omega
    refine ⟨s₃, (hreach₁.trans hreach₂).tail hstep, ?_⟩
    rw [← Nat.add_assoc]
    exact hs₃.congr fun i j _ _ _ hj => Bottom.stacked hj

/-- Five squares, up to the round that stores the last of them. -/
theorem reaches_last {score lines : Nat} {s : Game × Nat}
    (h : Flying (fun _ _ => False) 5 0 score lines s) :
    ∃ s', Reaches s s' ∧ Flying (Bottom 4) 8 18 (score + 4) lines s' := by
  obtain ⟨s₁, hreach₁, hs₁⟩ := reaches_bottom h 4 (by decide)
  obtain ⟨s₂, hreach₂, hs₂⟩ := hs₁.floor (by decide)
  exact ⟨s₂, hreach₁.trans hreach₂, hs₂⟩

theorem init_flying : Flying (fun _ _ => False) 5 0 0 0 (initGame 0 0, 0) where
  inv := initGame_inv 0 0
  piece := spawnShape_piece 0 0 _
  running := rfl
  early := by decide
  shape := rfl
  column := rfl
  row := by decide
  grid _ _ _ _ _ _ := by
    refine iff_false_intro (not_not.mpr ?_)
    rfl
  score := rfl
  lines := rfl

/-- Any number of times the two lowest rows are filled and cleared. -/
theorem reaches_cycles : ∀ n : Nat, ∃ s, Reaches (initGame 0 0, 0) s ∧
    Flying (fun _ _ => False) 5 0 (305 * n) (2 * n) s
  | 0 => ⟨_, .refl, init_flying⟩
  | n + 1 => by
    obtain ⟨s₁, hreach₁, hs₁⟩ := reaches_cycles n
    obtain ⟨s₂, hreach₂, hs₂⟩ := reaches_last hs₁
    obtain ⟨s₃, hstep, hs₃⟩ := hs₂.clear
    exact ⟨s₃, (hreach₁.trans hreach₂).tail hstep, hs₃⟩

/-! ## A column of squares -/

/-- `m` squares one on the other. -/
def Column (m : Nat) (i j : Int) : Prop := (i = 5 ∨ i = 6) ∧ 20 - 2 * m ≤ j

theorem reaches_column {score lines : Nat} {s : Game × Nat}
    (h : Flying (fun _ _ => False) 5 0 score lines s) : ∀ m : Nat, m ≤ 9 →
      ∃ s', Reaches s s' ∧ Flying (Column m) 5 0 (score + m) lines s'
  | 0, _ => by
    refine ⟨s, .refl, h.congr fun i j _ _ _ hj => iff_of_false id ?_⟩
    have hh : (GRID_HEIGHT : Int) = 20 := rfl
    unfold Column
    omega
  | m + 1, hm => by
    obtain ⟨s₁, hreach₁, hs₁⟩ := reaches_column h m (by omega)
    obtain ⟨s₂, hreach₂, hs₂⟩ := Flying.drops (x := 5) (b := 18 - 2 * m) (by decide) (by decide)
      (by omega) (fun i j _ hj hf => by unfold Column at hf; omega) (n := 18 - 2 * m) hs₁
      (by decide) (by omega)
    have hland : (18 - 2 * m : Int) = 18 ∨
        (18 - 2 * m : Int) < 18 ∧ Column m 5 (18 - 2 * m + 2) := by
      unfold Column
      omega
    have hw : (GRID_WIDTH : Int) = 10 := rfl
    obtain ⟨s₃, hstep, hs₃⟩ := hs₂.stack (c := 0) (by decide) (by omega) hland
      (fun i j hf => by unfold Column at hf; omega) (by decide) (by omega)
      fun j hf => by unfold Stacked Column at hf; omega
    refine ⟨s₃, (hreach₁.trans hreach₂).tail hstep, ?_⟩
    rw [← Nat.add_assoc]
    refine hs₃.congr fun i j _ _ _ _ => ?_
    unfold Stacked Column
    rw [Nat.cast_add, Nat.cast_one]
    omega

/-- The tenth square of a column ends the game. -/
theorem reaches_end {score lines : Nat} {s : Game × Nat}
    (h : Flying (fun _ _ => False) 5 0 score lines s) :
    ∃ s', Reaches s s' ∧ s'.1.gameOver = true ∧ s'.2 = lines := by
  obtain ⟨s₁, hreach, hs₁⟩ := reaches_column h 9 (by decide)
  have hw : (GRID_WIDTH : Int) = 10 := rfl
  have hlock := hs₁.locks (by decide) (by decide) (.inr ⟨by decide, .inl rfl, by decide⟩)
  refine ⟨_, hreach.tail ⟨.hardDrop, 0, 0, rfl⟩, (hs₁.over (by decide) hlock 0 0).mpr rfl, ?_⟩
  have hnone : s₁.1.placed.fullRows = 0 := by
    refine List.countP_eq_zero.mpr fun r hr hfull => ?_
    obtain ⟨j, hj, rfl⟩ := List.mem_map.mp hr
    rw [List.mem_range] at hj
    rw [fullRow_iff] at hfull
    have hf := (hs₁.placed (i := 0) (j := j) (by decide) (by omega) (by omega) (by omega)).mp
      (hfull 0 (by decide) (by omega))
    unfold Stacked Column at hf
    omega
  have hcleared : s₁.1.cleared .hardDrop = s₁.1.placed.fullRows :=
    if_pos ⟨hs₁.running, by decide, hlock⟩
  unfold tallyLoop
  rw [if_neg fun hc => by rw [hs₁.running] at hc; exact Bool.noConfusion hc.1, hcleared, hnone,
    hs₁.lines, Nat.add_zero]

end Game

end Tetris
