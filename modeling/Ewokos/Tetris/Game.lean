import Mathlib

/-!
# sdl_tetris: the game

`apps/sdl_tetris/game.c` without its drawing: the grid, the falling piece, and one round of
`game_loop`.  A round spawns at most one piece, so it is handed the two answers of `rand`.

The coordinates are `Int`, where the source has `int8_t`; `Inv.int8` shows that nothing overflows.
-/

set_option autoImplicit false

namespace Tetris

abbrev GRID_WIDTH : Nat := 10
abbrev GRID_HEIGHT : Nat := 20

def MAX_LEVEL_FREQ : Nat := 15
def LEVEL_FREQS : List Nat := [48, 43, 38, 33, 28, 23, 18, 13, 8, 6, 5, 4, 3, 2, 1]
def SOFT_FREQ : Nat := 3
def HARD_FREQ : Nat := 1
def N_COLORS : Nat := 14
def N_SHAPES : Nat := 7
def SCORE_SINGLE : Nat := 1
def SCORE_LINE : Nat := 100

/-- The blocks of a shape, as shifts from its position. -/
abbrev Shape := List (Int × Int)

/-- `SHAPES`. -/
def SHAPES : List Shape := [
  [(0, 0), (1, 0), (0, 1), (1, 1)],    -- O
  [(0, 0), (-1, 0), (1, 0), (0, 1)],   -- T
  [(0, 0), (0, -1), (0, 1), (1, 1)],   -- L
  [(0, 0), (0, -1), (0, 1), (-1, 1)],  -- J
  [(0, 0), (0, -1), (0, 1), (0, 2)],   -- I
  [(0, 0), (1, 0), (0, 1), (-1, 1)],   -- S
  [(0, 0), (-1, 0), (0, 1), (1, 1)]]   -- Z

/-- `grid[x][y]`: color indices, 0 for empty cells. -/
abbrev Grid := Int → Int → Nat

/-- The statics of `game.c`. -/
structure Game where
  grid : Grid
  toDestroy : Int → Bool
  gameOver : Bool
  score : Nat
  iteration : Nat
  linesCleared : Nat
  currentLevel : Nat
  fallFreq : Nat
  currentShape : Shape
  currentShapeColor : Nat
  currentShapeType : Nat
  currentX : Int
  currentY : Int
  stateChanged : Bool

/-- Their initial values. -/
def Game.zero : Game where
  grid _ _ := 0
  toDestroy _ := false
  gameOver := false
  score := 0
  iteration := 0
  linesCleared := 0
  currentLevel := 0
  fallFreq := 48
  currentShape := List.replicate 4 (0, 0)
  currentShapeColor := 0
  currentShapeType := 0
  currentX := 0
  currentY := 0
  stateChanged := false

/-- `enum InputEvent`. -/
inductive InputEvent where
  | quit
  | noInput
  | anyInput
  | left
  | right
  | down
  | rotate
  | softDrop
  | hardDrop
  deriving DecidableEq, Repr

namespace Game

/-- The cells of the current shape at `(x, y)`. -/
def cellsAt (g : Game) (x y : Int) : List (Int × Int) :=
  g.currentShape.map fun c => (c.1 + x, c.2 + y)

/-- The cells of the current shape. -/
def cells (g : Game) : List (Int × Int) := g.cellsAt g.currentX g.currentY

/-! ## Speed -/

/-- `get_curr_fall_freq`. -/
def getCurrFallFreq (g : Game) : Nat :=
  if g.currentLevel ≥ MAX_LEVEL_FREQ then LEVEL_FREQS.getD (MAX_LEVEL_FREQ - 1) 0
  else LEVEL_FREQS.getD g.currentLevel 0

/-- `reset_fall_freq`. -/
def resetFallFreq (g : Game) : Game := { g with fallFreq := g.getCurrFallFreq }

/-- `update_fall_freq`. -/
def updateFallFreq (g : Game) (new : Nat) : Game :=
  let calculated := g.getCurrFallFreq
  { g with fallFreq := if calculated < new then calculated else new }

/-! ## A new piece -/

/-- A cell of the shape is on a block when its position is `y`. -/
def blocked (g : Game) (y : Int) : Bool :=
  (g.cellsAt g.currentX y).any fun c => c.2 ≥ 0 && g.grid c.1 c.2 != 0

/-- The loop of `spawn_shape`: how far down the shape starts. -/
def descend (g : Game) : Nat → Int → Int
  | 0, y => y
  | n + 1, y => if g.blocked (y + 1) then y else descend g n (y + 1)

/-- `spawn_shape`, with the answers of `rand`. -/
def spawnShape (r₁ r₂ : Nat) (g : Game) : Game :=
  let type := r₁ % N_SHAPES
  let g := { g with
    stateChanged := true
    currentShapeType := type
    currentShapeColor := r₂ % (N_COLORS - 1) + 1
    currentShape := SHAPES.getD type []
    currentX := GRID_WIDTH / 2 }
  -- if we spot any collision, we'll start with negative current_y
  { g with currentY := g.descend 2 (-2) }

/-- `end_game`. -/
def endGame (g : Game) : Game := { g with gameOver := true }

/-- `restart_game`. -/
def restartGame (r₁ r₂ : Nat) (g : Game) : Game :=
  spawnShape r₁ r₂ { g with
    grid := fun x y =>
      if 0 ≤ x ∧ x < GRID_WIDTH ∧ 0 ≤ y ∧ y < GRID_HEIGHT then 0 else g.grid x y
    gameOver := false
    currentLevel := 0
    linesCleared := 0
    score := 0 }

/-! ## Full rows -/

/-- Row `j` becomes the row above it. -/
def copyRow (grid : Grid) (j : Int) : Grid :=
  fun x y => if 0 ≤ x ∧ x < GRID_WIDTH ∧ y = j then grid x (j - 1) else grid x y

/-- The loop of `destroy_row`. -/
def copyRows : Nat → Grid → Grid
  | 0, grid => grid
  | j + 1, grid => copyRows j (copyRow grid (j + 1 : Nat))

/-- `destroy_row`. -/
def destroyRow (g : Game) (row : Nat) : Game :=
  let g := { g with
    grid := copyRows row g.grid
    linesCleared := (g.linesCleared + 1) % 256 }
  if g.linesCleared % 10 = 0 then { g with currentLevel := (g.currentLevel + 1) % 256 } else g

/-- The loop of `clean_destroyed_blocks` over `n` rows from `j` on. -/
def cleanRows : Nat → Nat → Nat → Game → Nat × Game
  | 0, _, count, g => (count, g)
  | n + 1, j, count, g =>
    if g.toDestroy j then
      let g := { g with
        toDestroy := Function.update g.toDestroy j false
        grid := fun x y => if 0 ≤ x ∧ x < GRID_WIDTH ∧ y = j then 0 else g.grid x y }
      cleanRows n (j + 1) (count + 1) (g.destroyRow j)
    else cleanRows n (j + 1) count g

/-- `clean_destroyed_blocks`. -/
def cleanDestroyedBlocks (g : Game) : Game :=
  let (count, g) := cleanRows GRID_HEIGHT 0 0 g
  if count ≠ 0 then { g with score := (g.score + SCORE_LINE * (1 + 2 * (count - 1))) % 2 ^ 32 }
  else g

/-- `row_is_full`. -/
def rowIsFull (g : Game) (y : Int) : Bool × Game :=
  if y < 0 ∨ g.toDestroy y then (true, g)
  else if (List.range GRID_WIDTH).any fun i => g.grid i y == 0 then (false, g)
  else (true, { g with toDestroy := Function.update g.toDestroy y true })

/-! ## Locking -/

/-- The loop of `lock_shape`: the full rows met, and the game. -/
def lockCells : List (Int × Int) → Nat → Game → Nat × Game
  | [], full, g => (full, g)
  | (x, y) :: cells, full, g =>
    let g := if x ≥ 0 ∧ x < GRID_WIDTH ∧ y ≥ 0 ∧ y < GRID_HEIGHT then
        { g with grid := fun i j => if i = x ∧ j = y then g.currentShapeColor else g.grid i j }
      else g
    match g.rowIsFull y with
    | (true, g) => lockCells cells (full + 1) g
    | (false, g) => lockCells cells full (if y ≤ 0 then g.endGame else g)

/-- `lock_shape`. -/
def lockShape (r₁ r₂ : Nat) (g : Game) : Game :=
  let (full, g) := lockCells g.cells 0 g
  let g := if full ≠ 0 then g.cleanDestroyedBlocks else g
  let g := { g with iteration := 0, score := (g.score + SCORE_SINGLE) % 2 ^ 32 }
  g.resetFallFreq.spawnShape r₁ r₂

/-! ## Moving -/

/-- `detect_collision`. -/
def detectCollision (g : Game) (x y : Int) : Bool :=
  if x < 0 ∨ x ≥ GRID_WIDTH then true
  else if y ≥ GRID_HEIGHT then true  -- collisions at the top are OK
  else y ≥ 0 && g.grid x y != 0

/-- `rotate_shape`. -/
def rotateShape (g : Game) : Game :=
  let g := g.resetFallFreq
  if g.currentShapeType = 0 then g
  else
    let g := { g with stateChanged := true }
    let temp := g.currentShape.map fun c => (c.2, -c.1)
    if temp.any fun c => g.detectCollision (c.1 + g.currentX) (c.2 + g.currentY) then g
    else { g with currentShape := temp }

/-- `move_side`. -/
def moveSide (g : Game) (direction : Int) : Game :=
  let g := g.resetFallFreq
  if g.cells.any fun c => g.detectCollision (c.1 + direction) c.2 then g
  else { g with currentX := g.currentX + direction, stateChanged := true }

/-- A block of the shape has something below it. -/
def landed (g : Game) : Bool := g.cells.any fun c => g.detectCollision c.1 (c.2 + 1)

/-- `fall`. -/
def fall (r₁ r₂ : Nat) (g : Game) : Game :=
  let g := { g with iteration := (g.iteration + 1) % 256 }
  if g.iteration < g.fallFreq then g
  else
    let g := { g with iteration := 0 }
    if g.landed then g.lockShape r₁ r₂
    else { g with currentY := g.currentY + 1, stateChanged := true }

/-- `handle_input_event`. -/
def handleInputEvent (g : Game) : InputEvent → Game
  | .left => g.moveSide (-1)
  | .right => g.moveSide 1
  | .rotate => g.rotateShape
  | .hardDrop => g.updateFallFreq HARD_FREQ
  | .softDrop => g.updateFallFreq SOFT_FREQ
  | _ => g

/-- `update_frame`: a running game is drawn if it has changed. -/
def updateFrame (g : Game) : Game := if g.gameOver then g else { g with stateChanged := false }

/-- `init_game`. -/
def initGame (r₁ r₂ : Nat) : Game := Game.zero.spawnShape r₁ r₂

/-- `game_loop`; a `QUIT` ends the program. -/
def gameLoop (event : InputEvent) (r₁ r₂ : Nat) (g : Game) : Game :=
  if event = .quit then g
  else if g.gameOver then
    if event ≠ .noInput then g.restartGame r₁ r₂ else g
  else ((g.handleInputEvent event).fall r₁ r₂).updateFrame

end Game

end Tetris
