import OlinCourses.TicTacToe.Consistency

/-!
# The rules of the game

The lines of the rules are the rows, the columns and the two diagonals. `is_diag_win`
reads `spaces[index][BOARD_DIM - index]` for the second diagonal, so the main loop
follows the rules exactly in the games in which no move tells the two apart.
-/
namespace OlinCourses.TicTacToe
open LineGame

/-- The player's mark fills a whole row, a whole column or a diagonal. -/
def FillsLine (board : Board) (player : Space) : Prop :=
  (∃ row < BOARD_DIM, ∀ col < BOARD_DIM, board (cell row col) = player) ∨
    (∃ col < BOARD_DIM, ∀ row < BOARD_DIM, board (cell row col) = player) ∨
    (∀ index < BOARD_DIM, board (cell index index) = player) ∨
    ∀ index < BOARD_DIM, board (cell index (BOARD_DIM - 1 - index)) = player

instance (board : Board) (player : Space) : Decidable (FillsLine board player) :=
  inferInstanceAs (Decidable (_ ∨ _ ∨ _ ∨ _))

/-- The cells `spaces[index][BOARD_DIM - 1 - index]`. -/
def antiDiagonal : List (Fin 9) := [2, 4, 6]

theorem forall_lt_three {p : ℕ → Prop} : (∀ i < BOARD_DIM, p i) ↔ p 0 ∧ p 1 ∧ p 2 := by
  constructor
  · exact fun h => ⟨h 0 (by decide), h 1 (by decide), h 2 (by decide)⟩
  · rintro ⟨h0, h1, h2⟩ i hi
    obtain rfl | rfl | rfl : i = 0 ∨ i = 1 ∨ i = 2 := by
      unfold BOARD_DIM at hi
      omega
    · exact h0
    · exact h1
    · exact h2

theorem exists_lt_three {p : ℕ → Prop} : (∃ i < BOARD_DIM, p i) ↔ p 0 ∨ p 1 ∨ p 2 := by
  have h := not_congr (forall_lt_three (p := fun i => ¬ p i))
  push Not at h
  simpa [or_iff_not_imp_left] using h

theorem fillsLine_iff (board : Board) (player : Space) :
    FillsLine board player ↔ Completes (straightLines ++ [antiDiagonal]) board player := by
  rw [FillsLine]
  simp only [forall_lt_three, exists_lt_three]
  simp [BOARD_DIM, cell_eq, Completes, straightLines, antiDiagonal, or_assoc]

/-- The player's marks fill a row, a column or the main diagonal; or they fill both the
second diagonal and the cells that `is_diag_win` reads for it, or neither. -/
def SecondDiagonalAgrees (board : Board) (player : Space) : Prop :=
  Completes straightLines board player ∨
    (Completes [crossCells] board player ↔ Completes [antiDiagonal] board player)

theorem isWin_iff_fillsLine_iff (board : Board) (player : Space) :
    (isWin board player = true ↔ FillsLine board player) ↔
      SecondDiagonalAgrees board player := by
  rw [isWin_iff, fillsLine_iff, completes_append, completes_append, SecondDiagonalAgrees]
  by_cases hstraight : Completes straightLines board player
  · simp only [hstraight, true_or]
  · simp only [hstraight, false_or]

/-- The main loop stops exactly at the first successful move that fills a line of the
mover or the board, and `player_win` is then true exactly if it fills a line. -/
def FollowsRules (input : ℕ → Option BoardSpace) : Prop :=
  gameOver (loopState input 0) = false ∧
    ∀ n, gameOver (loopState input n) = false →
      let s := loopState input n
      let s' := loopState input (n + 1)
      (gameOver s' = true ↔ (attempt s (input n)).1 = true ∧
        (FillsLine s'.board s.currentTurn ∨ ∀ c, s'.board c ≠ .empty)) ∧
      (gameOver s' = true → (playerWin s' = true ↔ FillsLine s'.board s.currentTurn))

/-- After a successful move only the mover can have a win. -/
theorem gameOver_move_iff {s : State} (h : Consistent s) (hopen : gameOver s = false) {c : Fin 9}
    (hempty : s.board c = .empty) :
    let s' : State :=
      { board := Function.update s.board c s.currentTurn
        currentTurn := nextMove s.currentTurn
        numMoves := s.numMoves + 1 }
    (gameOver s' = true ↔
      isWin s'.board s.currentTurn = true ∨ ∀ c, s'.board c ≠ .empty) ∧
      (playerWin s' = true ↔ isWin s'.board s.currentTurn = true) := by
  intro s'
  have hother : isWin s'.board (nextMove s.currentTurn) = false :=
    (h.mark hempty (isWin_eq_false_of_not_gameOver hopen (nextMove_eq _))).noWin
  rw [gameOver, playerWin, Bool.or_eq_true, Bool.or_eq_true, isFull_iff]
  obtain hturn | hturn := h.turn_eq
  · rw [hturn, show nextMove .x = .o from rfl] at hother
    simp only [hother, hturn, Bool.false_eq_true, or_false]
    exact ⟨or_comm, by simp [s', hturn, nextMove, getOpposingPlayer]⟩
  · rw [hturn, show nextMove .o = .x from rfl] at hother
    simp only [hother, hturn, Bool.false_eq_true, or_false]
    exact ⟨or_comm, by simp [s', hturn, nextMove, getOpposingPlayer]⟩

/-- One turn of the loop: it follows the rules exactly if a successful move leaves the two
readings of the second diagonal in agreement. -/
theorem turn_followsRules_iff {s : State} (h : Consistent s) (hopen : gameOver s = false)
    (space : Option BoardSpace) :
    let s' := (attempt s space).2
    ((gameOver s' = true ↔ (attempt s space).1 = true ∧
        (FillsLine s'.board s.currentTurn ∨ ∀ c, s'.board c ≠ .empty)) ∧
      (gameOver s' = true → (playerWin s' = true ↔ FillsLine s'.board s.currentTurn))) ↔
    ((attempt s space).1 = true → SecondDiagonalAgrees s'.board s.currentTurn) := by
  obtain hfail | ⟨c, hempty, hmove⟩ := attempt_cases s space
  · simp [hfail, hopen]
  · obtain ⟨hover, hwin⟩ := gameOver_move_iff h hopen hempty
    rw [hmove]
    simp only [true_and, true_imp_iff, ← isWin_iff_fillsLine_iff, hover, hwin]
    constructor
    · rintro ⟨hstop, hverdict⟩
      by_cases hfull : ∀ c', Function.update s.board c s.currentTurn c' ≠ .empty
      · exact hverdict (Or.inr hfull)
      · simpa only [hfull, or_false] using hstop
    · exact fun hverdict => ⟨or_congr_left hverdict, fun _ => hverdict⟩

theorem loopState_succ {input : ℕ → Option BoardSpace} {n : ℕ}
    (h : gameOver (loopState input n) = false) :
    loopState input (n + 1) = (attempt (loopState input n) (input n)).2 := by
  rw [loopState, if_neg (by simp [h])]

/-- For every sequence of attempted moves the main loop follows the rules if and only if
every successful move of it leaves the mover's marks on a row, a column or the main
diagonal, or on both or neither of the second diagonal (0,2), (1,1), (2,0) and the cells
(1,0), (1,2), (2,1). -/
theorem followsRules_iff (input : ℕ → Option BoardSpace) :
    FollowsRules input ↔ ∀ n, gameOver (loopState input n) = false →
      (attempt (loopState input n) (input n)).1 = true →
      SecondDiagonalAgrees (attempt (loopState input n) (input n)).2.board
        (loopState input n).currentTurn := by
  have hstart : gameOver (loopState input 0) = false := by
    have hx := isWin_setupBoard (show Space.x ≠ .empty by decide)
    have ho := isWin_setupBoard (show Space.o ≠ .empty by decide)
    rw [loopState, gameOver, setupState, hx, ho]
    decide
  rw [FollowsRules, and_iff_right hstart]
  refine forall_congr' fun n => imp_congr_right fun hopen => ?_
  rw [loopState_succ hopen]
  exact turn_followsRules_iff (consistent_loopState input n) hopen (input n)

/-- X takes (1,0), (1,2) and (2,1), O takes (0,0) and (0,1). -/
def phantomInput : ℕ → Option BoardSpace
  | 0 => some ⟨1, 0⟩
  | 1 => some ⟨0, 0⟩
  | 2 => some ⟨1, 2⟩
  | 3 => some ⟨0, 1⟩
  | 4 => some ⟨2, 1⟩
  | _ => none

/-- The loop announces a win of X, who has filled no line. -/
theorem not_followsRules_phantom : ¬ FollowsRules phantomInput := by
  intro h
  have hstop := ((h.2 4 (by decide)).1.mp (by decide)).2
  exact absurd hstop (by decide)

end OlinCourses.TicTacToe
