import OlinCourses.Lib.LineGame
import OlinCourses.Lib.Transition
import OlinCourses.TicTacToe.Game

/-!
# Consistency of the game state

The move counter, the turn and the board stay in step through every turn of the main
loop, and the player to move never has a win.
-/
namespace OlinCourses.TicTacToe
open LineGame Transition

/-- The rows, the columns and the main diagonal. -/
def straightLines : List (List (Fin 9)) :=
  [[0, 1, 2], [3, 4, 5], [6, 7, 8], [0, 3, 6], [1, 4, 7], [2, 5, 8], [0, 4, 8]]

/-- The cells `spaces[index][BOARD_DIM - index]`. -/
def crossCells : List (Fin 9) := [3, 5, 7]

theorem cell_eq : cell 0 0 = 0 ∧ cell 0 1 = 1 ∧ cell 0 2 = 2 ∧ cell 1 0 = 3 ∧ cell 1 1 = 4 ∧
    cell 1 2 = 5 ∧ cell 2 0 = 6 ∧ cell 2 1 = 7 ∧ cell 2 2 = 8 ∧ cell 0 3 = 3 := by decide

theorem isWin_iff (board : Board) (player : Space) :
    isWin board player = true ↔ Completes (straightLines ++ [crossCells]) board player := by
  simp [isWin, isRowWin, isColWin, isDiagWin, anyOf, allOf, BOARD_DIM, cell_eq, Completes,
    straightLines, crossCells, List.range_succ, or_assoc]

theorem isFull_iff (board : Board) : isFull board = true ↔ ∀ c, board c ≠ .empty := by
  simp [isFull, allOf, BOARD_DIM, cell_eq, List.range_succ, Fin.forall_fin_succ, and_assoc]

/-- A move gives the other player no win. -/
theorem isWin_update {board : Board} {c : Fin 9} {player other : Space}
    (hne : player ≠ other) (h : isWin (Function.update board c player) other = true) :
    isWin board other = true := by
  rw [isWin_iff] at h ⊢
  exact h.of_update hne

theorem isWin_setupBoard {player : Space} (hplayer : player ≠ .empty) :
    isWin setupBoard player = false := by
  rw [← Bool.not_eq_true, isWin_iff]
  apply not_completes_of_forall
  intro line hline
  have hne : line ≠ [] := by
    rintro rfl
    simp [straightLines, crossCells] at hline
  obtain ⟨c, hc⟩ := List.exists_mem_of_ne_nil line hne
  exact ⟨c, hc, hplayer.symm⟩

/-- A move succeeds exactly on a free cell of the board, and marks it. -/
theorem move_cases (s : State) (space : BoardSpace) :
    move s space = (false, s) ∨
      ∃ c, s.board c = .empty ∧ move s space = (true,
        { board := Function.update s.board c s.currentTurn
          currentTurn := nextMove s.currentTurn
          numMoves := s.numMoves + 1 }) := by
  unfold move
  split_ifs with h
  · exact Or.inl rfl
  · refine Or.inr ⟨_, ?_, rfl⟩
    rw [Bool.not_eq_true, Bool.or_eq_false_iff, Bool.not_eq_false', Bool.not_eq_false'] at h
    exact of_decide_eq_true h.2

theorem attempt_cases (s : State) (space : Option BoardSpace) :
    attempt s space = (false, s) ∨
      ∃ c, s.board c = .empty ∧ attempt s space = (true,
        { board := Function.update s.board c s.currentTurn
          currentTurn := nextMove s.currentTurn
          numMoves := s.numMoves + 1 }) := by
  cases space with
  | none => exact Or.inl rfl
  | some space => exact move_cases s space

theorem attempt_of_failed {s : State} {space : Option BoardSpace}
    (h : (attempt s space).1 = false) : (attempt s space).2 = s := by
  obtain hfail | ⟨c, -, hmove⟩ := attempt_cases s space
  · rw [hfail]
  · rw [hmove] at h
    cases h

/-- The number of cells with a mark. -/
def count (board : Board) (mark : Space) : ℕ := tally board fun space => space = mark

/-- The number of cells that are not empty. -/
def marked (board : Board) : ℕ := tally board fun space => space ≠ .empty

structure Consistent (s : State) : Prop where
  moves : s.numMoves = marked s.board
  turn : (s.currentTurn = .x ∧ count s.board .x = count s.board .o) ∨
    (s.currentTurn = .o ∧ count s.board .x = count s.board .o + 1)
  noWin : isWin s.board s.currentTurn = false

theorem consistent_setup : Consistent setupState where
  moves := by decide
  turn := Or.inl ⟨rfl, by decide⟩
  noWin := isWin_setupBoard (by decide)

theorem Consistent.turn_eq {s : State} (h : Consistent s) :
    s.currentTurn = .x ∨ s.currentTurn = .o := h.turn.imp And.left And.left

/-- A player who has no win yet marks an empty cell. -/
theorem Consistent.mark {s : State} (h : Consistent s) {c : Fin 9} (hempty : s.board c = .empty)
    (hopen : isWin s.board (nextMove s.currentTurn) = false) :
    Consistent
      { board := Function.update s.board c s.currentTurn
        currentTurn := nextMove s.currentTurn
        numMoves := s.numMoves + 1 } := by
  have hmarked := tally_update s.board (fun space => space ≠ .empty) c s.currentTurn
  have hx := tally_update s.board (fun space => space = .x) c s.currentTurn
  have ho := tally_update s.board (fun space => space = .o) c s.currentTurn
  obtain ⟨hmoves, hturn, -⟩ := h
  refine ⟨?_, ?_, ?_⟩
  · obtain ⟨hmover, -⟩ | ⟨hmover, -⟩ := hturn
    · simp [hempty, hmover] at hmarked
      simp [hmover, marked, hmarked, hmoves]
    · simp [hempty, hmover] at hmarked
      simp [hmover, marked, hmarked, hmoves]
  · obtain ⟨hmover, hcount⟩ | ⟨hmover, hcount⟩ := hturn
    · refine Or.inr ⟨by simp [hmover, nextMove], ?_⟩
      simp [hempty, hmover] at hx ho
      simp only [count] at hcount ⊢
      rw [hmover]
      omega
    · refine Or.inl ⟨by simp [hmover, nextMove], ?_⟩
      simp [hempty, hmover] at hx ho
      simp only [count] at hcount ⊢
      rw [hmover]
      omega
  · rw [← Bool.not_eq_true]
    intro hwin
    have hne : s.currentTurn ≠ nextMove s.currentTurn := by
      obtain ⟨hmover, -⟩ | ⟨hmover, -⟩ := hturn <;> simp [hmover, nextMove]
    rw [isWin_update hne hwin] at hopen
    cases hopen

theorem isWin_eq_false_of_not_gameOver {s : State} (h : gameOver s = false) {player : Space}
    (hplayer : player = .x ∨ player = .o) : isWin s.board player = false := by
  unfold gameOver at h
  simp only [Bool.or_eq_false_iff] at h
  obtain rfl | rfl := hplayer
  · exact h.1.2
  · exact h.2

theorem nextMove_eq (turn : Space) : nextMove turn = .x ∨ nextMove turn = .o := by
  unfold nextMove
  split_ifs
  · exact Or.inr rfl
  · exact Or.inl rfl

theorem Consistent.attempt {s : State} (h : Consistent s) (hopen : gameOver s = false)
    (space : Option BoardSpace) : Consistent (attempt s space).2 := by
  obtain hfail | ⟨c, hempty, hmove⟩ := attempt_cases s space
  · rw [hfail]
    exact h
  · rw [hmove]
    exact h.mark hempty (isWin_eq_false_of_not_gameOver hopen (nextMove_eq _))

theorem consistent_loopState (input : ℕ → Option BoardSpace) (n : ℕ) :
    Consistent (loopState input n) := by
  induction n with
  | zero => exact consistent_setup
  | succ n ih =>
    rw [loopState]
    split_ifs with hover
    · exact ih
    · exact ih.attempt (by simpa using hover) _

/-- In a consistent state `player_win` tells whether somebody has a win. -/
theorem Consistent.playerWin_iff {s : State} (h : Consistent s) :
    ¬ (isWin s.board .x = true ∧ isWin s.board .o = true) ∧
      (playerWin s = true ↔ isWin s.board .x = true ∨ isWin s.board .o = true) := by
  have hnoWin := h.noWin
  obtain hturn | hturn := h.turn_eq
  · rw [hturn] at hnoWin
    simp [playerWin, getOpposingPlayer, hturn, hnoWin]
  · rw [hturn] at hnoWin
    simp [playerWin, getOpposingPlayer, hturn, hnoWin]

/-- In every run of the main loop, after every attempt: the move counter is the number of
marked cells; X and O have equally many marks when it is X's turn, and X one more when
it is O's; a failed attempt changes nothing. When the loop ends, at most one player has a
win, and `player_win` is true exactly if one has. -/
theorem loop_consistent (input : ℕ → Option BoardSpace) (n : ℕ) :
    let s := loopState input n
    s.numMoves = marked s.board ∧
      ((s.currentTurn = .x ∧ (count s.board .x : ℤ) - count s.board .o = 0) ∨
        (s.currentTurn = .o ∧ (count s.board .x : ℤ) - count s.board .o = 1)) ∧
      (∀ space, (attempt s space).1 = false → (attempt s space).2 = s) ∧
      (gameOver s = true → ¬ (isWin s.board .x = true ∧ isWin s.board .o = true) ∧
        (playerWin s = true ↔ isWin s.board .x = true ∨ isWin s.board .o = true)) := by
  intro s
  have h : Consistent s := consistent_loopState input n
  refine ⟨h.moves, ?_, fun _ => attempt_of_failed, fun _ => h.playerWin_iff⟩
  obtain ⟨hturn, hcount⟩ | ⟨hturn, hcount⟩ := h.turn
  · exact Or.inl ⟨hturn, by omega⟩
  · exact Or.inr ⟨hturn, by omega⟩

end OlinCourses.TicTacToe
