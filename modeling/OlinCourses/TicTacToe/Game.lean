import Mathlib.Data.Fin.VecNotation
import Mathlib.Data.Fintype.Pi
import Mathlib.Tactic

/-!
# Tic-tac-toe

`tic_tac_toe.c` and the loop of `run_tic_tac_toe.c`. An access `spaces[i][j]` is the
flat cell `BOARD_DIM * i + j`. What `get_user_input` delivers is an argument.
-/
namespace OlinCourses.TicTacToe

def BOARD_DIM : ℕ := 3

/-- `EMPTY_SPACE`, `X_SPACE` and `O_SPACE`. -/
inductive Space
  | empty
  | x
  | o
  deriving DecidableEq

structure BoardSpace where
  row : ℤ
  col : ℤ

abbrev Board := Fin 9 → Space

/-- Numerals name cells. -/
scoped instance neZero_nine : NeZero 9 := ⟨by decide⟩

/-- `spaces[i][j]`. -/
def cell (i j : ℕ) : Fin 9 := Fin.ofNat 9 (BOARD_DIM * i + j)

def getOpposingPlayer (player : Space) : Space := if player = .x then .o else .x

def isValidSpace (space : BoardSpace) : Bool :=
  decide (0 ≤ space.row) && decide (space.row < BOARD_DIM) &&
    decide (0 ≤ space.col) && decide (space.col < BOARD_DIM)

def setupBoard : Board := fun _ => .empty

def isEmptySpace (board : Board) (space : BoardSpace) : Bool :=
  board (cell space.row.toNat space.col.toNat) = .empty

/-- The loop `for (int i = 0; i < BOARD_DIM; ++i)` that looks for a failure. -/
def allOf (p : ℕ → Bool) : Bool := (List.range BOARD_DIM).all p

/-- The same loop looking for a success. -/
def anyOf (p : ℕ → Bool) : Bool := (List.range BOARD_DIM).any p

def isFull (board : Board) : Bool :=
  allOf fun row => allOf fun col => board (cell row col) ≠ .empty

def isRowWin (board : Board) (player : Space) : Bool :=
  anyOf fun row => allOf fun col => board (cell row col) = player

def isColWin (board : Board) (player : Space) : Bool :=
  anyOf fun col => allOf fun row => board (cell row col) = player

def isDiagWin (board : Board) (player : Space) : Bool :=
  let traceWin := allOf fun index => board (cell index index) = player
  let crossWin := allOf fun index => board (cell index (BOARD_DIM - index)) = player
  traceWin || crossWin

def isWin (board : Board) (player : Space) : Bool :=
  isRowWin board player || isColWin board player || isDiagWin board player

structure State where
  board : Board
  numMoves : ℕ
  currentTurn : Space

def setupState : State where
  board := setupBoard
  numMoves := 0
  currentTurn := .x

def nextMove (turn : Space) : Space := if turn = .x then .o else .x

def playerWin (state : State) : Bool := isWin state.board (getOpposingPlayer state.currentTurn)

def gameOver (state : State) : Bool :=
  isFull state.board || isWin state.board .x || isWin state.board .o

/-- Whether the move succeeds, and the state after it. -/
def move (state : State) (space : BoardSpace) : Bool × State :=
  if !isValidSpace space || !isEmptySpace state.board space then (false, state)
  else
    (true,
      { board := Function.update state.board (cell space.row.toNat space.col.toNat)
          state.currentTurn
        currentTurn := nextMove state.currentTurn
        numMoves := state.numMoves + 1 })

/-- The body of the main loop: the space that `get_user_input` reads, or none when it
returns 0. -/
def attempt (state : State) : Option BoardSpace → Bool × State
  | none => (false, state)
  | some space => move state space

/-- The state of the main loop after `n` turns of it; it stays as it is once the loop
has stopped. -/
def loopState (input : ℕ → Option BoardSpace) : ℕ → State
  | 0 => setupState
  | n + 1 =>
    if gameOver (loopState input n) then loopState input n
    else (attempt (loopState input n) (input n)).2

end OlinCourses.TicTacToe
