import Mathlib.Algebra.BigOperators.Fin
import Mathlib.Data.Fintype.Pi
import Mathlib.Tactic

/-!
# The 2048 board

`game.py`: the board, the four moves, the random tile and one turn, for any type of numbers
in the cells. `Board` has unbounded numbers. The outcomes of `random` are arguments.
-/
namespace OlinCourses.Game2048
open scoped BigOperators

abbrev GridOf (α : Type) := Fin 4 → Fin 4 → α

abbrev Grid := GridOf ℕ

structure BoardOf (α : Type) where
  board : GridOf α
  score : α

abbrev Board := BoardOf ℕ

instance {α : Type} [DecidableEq α] : DecidableEq (BoardOf α) := fun g g' =>
  decidable_of_iff (g.board = g'.board ∧ g.score = g'.score)
    (by cases g; cases g'; rw [BoardOf.mk.injEq])

/-- What becomes of a number in an array that `np.append` makes a float64 one, when the array
is assigned to a row of the board. -/
class ViaFloat (α : Type) where
  viaFloat : α → α

export ViaFloat (viaFloat)

/-- Unbounded numbers stay as they are. -/
instance : ViaFloat ℕ := ⟨id⟩

/-- The outcomes of `random.choice`, as a number that is read modulo the length of
the list, and of `random.random()`. -/
structure Draw where
  choice : ℕ
  tileProb : ℚ

/-- 90% chance to generate a 2, 10% chance of a 4. -/
def Draw.tileOf (α : Type) [OfNat α 2] [OfNat α 4] (draw : Draw) : α :=
  if draw.tileProb < 9 / 10 then 2 else 4

abbrev Draw.tile (draw : Draw) : ℕ := draw.tileOf ℕ

/-- `self.board[r] = row`. -/
def toRow {α : Type} [OfNat α 0] (row : List α) : Fin 4 → α := fun c => row.getD c 0

/-- `self.board = self.board.T`. -/
def transpose {α : Type} (g : BoardOf α) : BoardOf α := { g with board := fun r c => g.board c r }

def place {α : Type} (b : GridOf α) (r c : Fin 4) (tile : α) : GridOf α :=
  Function.update b r (Function.update (b r) c tile)

section Source

variable {α : Type} [DecidableEq α] [OfNat α 0]

/-- The coordinates of the blank tiles, row by row. -/
def emptyTiles (b : GridOf α) : List (Fin 4 × Fin 4) :=
  ((List.finRange 4).flatMap fun r => (List.finRange 4).map fun c => (r, c)).filter
    fun cell => b cell.1 cell.2 = 0

/-- `row[row != 0]`. -/
def compact (row : List α) : List α := row.filter (· ≠ 0)

def hasValidMoves (g : BoardOf α) : Bool :=
  decide (∃ r c, g.board r c = 0) ||
    decide (∃ r c, (0 < r ∧ g.board r c = g.board (r - 1) c) ∨
      (0 < c ∧ g.board r c = g.board r (c - 1)))

/-- `np.append(row, [0] * (4 - len(row)))`: without a zero to append, the empty list makes
the array a float64 one. -/
def append [ViaFloat α] (row : List α) : List α :=
  if 4 ≤ row.length then row.map viaFloat else row ++ List.replicate (4 - row.length) 0

variable [OfNat α 2]

def addRandomTile [OfNat α 4] (g : BoardOf α) (draw : Draw) : BoardOf α :=
  match (emptyTiles g.board)[draw.choice % (emptyTiles g.board).length]? with
  | none => g
  | some (r, c) => { g with board := place g.board r c (draw.tileOf α) }

/-- `Board()`: two random tiles on an empty board. -/
def newBoard [OfNat α 4] (first second : Draw) : BoardOf α :=
  addRandomTile (addRandomTile ⟨fun _ _ => 0, 0⟩ first) second

variable [Add α] [Mul α]

/-- The body of the loop over the columns in `left_pressed`, on the row and the score. -/
def leftColumn (s : List α × α) (c : ℕ) : List α × α :=
  if s.1.getD c 0 = s.1.getD (c + 1) 0 then
    let row := s.1.set c (s.1.getD c 0 * 2)
    (row.set (c + 1) 0, s.2 + row.getD c 0)
  else s

/-- The body of the loop over the columns in `right_pressed`. -/
def rightColumn (s : List α × α) (c : ℕ) : List α × α :=
  if s.1.getD c 0 = s.1.getD (c + 1) 0 then
    let row := s.1.set c (s.1.getD c 0 * 2)
    (row.set (c + 1) 0, s.2 + row.getD c 0)
  else s

variable [ViaFloat α]

/-- The body of the loop over the rows in `left_pressed`. -/
def leftRow (g : BoardOf α) (r : Fin 4) : BoardOf α :=
  let row := compact (List.ofFn (g.board r))
  let (row, score) := (List.range (row.length - 1)).foldl leftColumn (row, g.score)
  { board := Function.update g.board r (toRow (append (compact row))), score }

def leftPressed (g : BoardOf α) : BoardOf α := (List.finRange 4).foldl leftRow g

/-- The body of the loop over the rows in `right_pressed`. -/
def rightRow (g : BoardOf α) (r : Fin 4) : BoardOf α :=
  let row := compact (List.ofFn (g.board r)).reverse
  let (row, score) := (List.range (row.length - 1)).foldl rightColumn (row, g.score)
  { board := Function.update g.board r (toRow (append (compact row)).reverse), score }

def rightPressed (g : BoardOf α) : BoardOf α := (List.finRange 4).foldl rightRow g

def upPressed (g : BoardOf α) : BoardOf α := transpose (leftPressed (transpose g))

def downPressed (g : BoardOf α) : BoardOf α := transpose (rightPressed (transpose g))

/-- Whether the direction is known, and the board after it. -/
def move (g : BoardOf α) (direction : String) : Bool × BoardOf α :=
  if direction = "w" then (true, upPressed g)
  else if direction = "a" then (true, leftPressed g)
  else if direction = "s" then (true, downPressed g)
  else if direction = "d" then (true, rightPressed g)
  else (false, g)

/-- What holds of the four moved boards and of the board itself holds after any `move`. -/
theorem move_cases {P : BoardOf α → Prop} (g : BoardOf α) (direction : String)
    (hup : P (upPressed g)) (hleft : P (leftPressed g)) (hdown : P (downPressed g))
    (hright : P (rightPressed g)) (hself : P g) : P (move g direction).2 := by
  unfold move
  split_ifs
  · exact hup
  · exact hleft
  · exact hdown
  · exact hright
  · exact hself

/-- What the turn returns, and the board after it. -/
def playTurn [OfNat α 4] (g : BoardOf α) (direction : String) (draw : Draw) : Bool × BoardOf α :=
  let moved := move g direction
  if moved.1 then
    (true, if g.board ≠ moved.2.board then addRandomTile moved.2 draw else moved.2)
  else (false, moved.2)

end Source

/-- The arguments of one `play_turn` and the outcomes of its random tile. -/
structure Turn where
  direction : String
  draw : Draw

section Games

variable {α : Type} [DecidableEq α] [OfNat α 0] [OfNat α 2] [OfNat α 4] [Add α] [Mul α]
  [ViaFloat α]

def BoardOf.next (g : BoardOf α) (turn : Turn) : BoardOf α :=
  (playTurn g turn.direction turn.draw).2

def play (g : BoardOf α) (turns : List Turn) : BoardOf α := turns.foldl BoardOf.next g

@[simp] theorem play_nil (g : BoardOf α) : play g [] = g := rfl

@[simp] theorem play_cons (g : BoardOf α) (turn : Turn) (turns : List Turn) :
    play g (turn :: turns) = play (g.next turn) turns := rfl

/-- Whether the move of the turn changes the board. -/
def BoardOf.changed (g : BoardOf α) (turn : Turn) : Bool :=
  decide (g.board ≠ (move g turn.direction).2.board)

end Games

/-- The tile that `add_random_tile` places, if there is room. -/
def randomTile (g : Board) (draw : Draw) : List ℕ :=
  if emptyTiles g.board = [] then [] else [draw.tile]

/-- The tile that a turn spawns. -/
def BoardOf.spawned (g : Board) (turn : Turn) : List ℕ :=
  if g.changed turn then randomTile (move g turn.direction).2 turn.draw else []

/-- The tiles spawned by a list of turns, in order. -/
def spawns (g : Board) : List Turn → List ℕ
  | [] => []
  | turn :: turns => g.spawned turn ++ spawns (g.next turn) turns

end OlinCourses.Game2048
