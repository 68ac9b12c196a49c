import OlinCourses.Input.Stdin
import OlinCourses.TicTacToe.Consistency

/-!
# The program on standard input

`main` of `run_tic_tac_toe.c` with what it reads and prints. On complete lines it takes one
line for each turn of its loop, and what it announces at the end is what the board shows.
-/
namespace OlinCourses.TicTacToe
open Input LineInput Loop Transition

def Space.char : Space → String
  | .empty => " "
  | .x => "X"
  | .o => "O"

/-- `printf` and `puts` in order, a text for each. -/
def printBoard (board : Board) : List String :=
  let rowDivider := "+-+-+-+\n"
  (List.range BOARD_DIM).flatMap (fun row =>
    [rowDivider] ++ (List.range BOARD_DIM).map (fun col => "|" ++ (board (cell row col)).char) ++
      ["|\n"]) ++ [rowDivider]

def INPUT_PROMPT : String :=
  "Enter the row and column number of your desired move:\n" ++
  "+---+---+---+\n" ++ "|0 0|0 1|0 2|\n" ++
  "+---+---+---+\n" ++ "|1 0|1 1|1 2|\n" ++
  "+---+---+---+\n" ++ "|2 0|2 1|2 2|\n" ++
  "+---+---+---+"

structure Program where
  state : State
  stdin : List Byte
  stdout : List String
  turn : ℕ

/-- What is in the variables of a turn that the source leaves uninitialised. -/
structure Garbage where
  inputBuffer : List Byte
  nullBuffer : List Byte
  space : BoardSpace

/-- What is printed before a move is read. -/
def prompt (s : State) : List String :=
  printBoard s.board ++ ["It is now " ++ s.currentTurn.char ++ "'s move.\n", INPUT_PROMPT ++ "\n"]

def verdict (s : State) : String :=
  if playerWin s then
    (getOpposingPlayer s.currentTurn).char ++ " wins in " ++ toString s.numMoves ++ " moves!\n"
  else "It's a draw.\n"

/-- The condition and the body of the main loop. -/
def mainTurn (fuel : ℕ) (garbage : ℕ → Garbage) (p : Program) : Option (Program ⊕ Program) :=
  if gameOver p.state then some (.inr { p with stdout := p.stdout ++ [verdict p.state] })
  else do
    let g := garbage p.turn
    let input ← UserInput.getUserInput fuel g.inputBuffer g.nullBuffer g.space p.stdin
    let (moved, state) :=
      if input.returned = 0 then (false, p.state) else move p.state input.space
    let stdout := p.stdout ++ prompt p.state ++
      if moved then [] else ["Invalid move, please try again.\n"]
    return .inl { state, stdin := input.stdin, stdout, turn := p.turn + 1 }

def main (fuel : ℕ) (garbage : ℕ → Garbage) (stdin : List Byte) : Option Program :=
  loop (mainTurn fuel garbage) fuel { state := setupState, stdin, stdout := [], turn := 0 }

/-- The space that a line enters, if the line is accepted. -/
def entered (line : TextLine) : Option BoardSpace :=
  if line.text.length < 4 then
    if (parseSpace line.bytes ⟨0, 0⟩).1 = 0 then none else some (parseSpace line.bytes ⟨0, 0⟩).2
  else none

/-- The moves that the lines of an input enter. -/
def enteredAt (lines : List TextLine) (n : ℕ) : Option BoardSpace := lines[n]?.bind entered

/-- An accepted line sets both coordinates. -/
theorem parseSpace_of_accepted {inputBuffer : List Byte} {space : BoardSpace}
    (h : (parseSpace inputBuffer space).1 ≠ 0) (space' : BoardSpace) :
    parseSpace inputBuffer space' = parseSpace inputBuffer space := by
  have hread : (Strtol.strtol inputBuffer).2 = 1 := by
    by_contra hne
    rw [parseSpace_fst, if_neg hne] at h
    exact h rfl
  simp only [parseSpace, hread, ne_eq, not_true_eq_false, if_false]

theorem parseSpace_fst_eq (inputBuffer : List Byte) (space space' : BoardSpace) :
    (parseSpace inputBuffer space').1 = (parseSpace inputBuffer space).1 := by
  rw [parseSpace_fst, parseSpace_fst]

@[simp] theorem deliver_stdin (space : BoardSpace) (string : Option (List Byte))
    (rest : List Byte) : (UserInput.deliver space (string, rest)).stdin = rest := by
  cases string <;> rfl

/-- A call on a line, and the move that follows it, are an attempt. -/
theorem attempt_entered (line : TextLine) (s : State) (space : BoardSpace) (rest : List Byte) :
    let input := UserInput.deliver space
      (if line.text.length < 4 then some line.bytes else none, rest)
    (if input.returned = 0 then (false, s) else move s input.space) = attempt s (entered line) := by
  intro input
  by_cases hfits : line.text.length < 4
  · by_cases hzero : (parseSpace line.bytes ⟨0, 0⟩).1 = 0
    · have hreturned : input.returned = 0 := by
        simp only [input, if_pos hfits, UserInput.deliver]
        rw [parseSpace_fst_eq _ ⟨0, 0⟩, hzero]
      rw [if_pos hreturned, entered, if_pos hfits, if_pos hzero]
      rfl
    · have hparse := parseSpace_of_accepted hzero space
      have hinput : input =
          ⟨(parseSpace line.bytes ⟨0, 0⟩).1, (parseSpace line.bytes ⟨0, 0⟩).2, rest⟩ := by
        simp only [input, if_pos hfits, UserInput.deliver, hparse]
      rw [hinput, entered, if_pos hfits, if_neg hzero, if_neg hzero]
      rfl
  · have hinput : input = ⟨0, space, rest⟩ := by
      simp only [input, if_neg hfits, UserInput.deliver]
    rw [hinput, entered, if_neg hfits]
    rfl

/-- What a turn prints. -/
def turnOutput (s : State) (space : Option BoardSpace) : List String :=
  prompt s ++ if (attempt s space).1 then [] else ["Invalid move, please try again.\n"]

/-- How many of the first `n` turns make a move. -/
def movesMade (input : ℕ → Option BoardSpace) (n : ℕ) : ℕ :=
  (List.range n).countP fun k => (attempt (loopState input k) (input k)).1

theorem numMoves_attempt (s : State) (space : Option BoardSpace) :
    (attempt s space).2.numMoves = s.numMoves + if (attempt s space).1 then 1 else 0 := by
  cases space with
  | none => rfl
  | some space =>
    rw [attempt, move]
    by_cases hrefused : (!isValidSpace space || !isEmptySpace s.board space) = true
    · rw [if_pos hrefused]
      rfl
    · rw [if_neg hrefused]
      rfl

/-- `num_moves` counts the turns that make a move. -/
theorem numMoves_loopState {input : ℕ → Option BoardSpace} {n : ℕ}
    (hopen : ∀ k < n, gameOver (loopState input k) = false) :
    (loopState input n).numMoves = movesMade input n := by
  induction n with
  | zero => rfl
  | succ n ih =>
    have hnot : ¬ gameOver (loopState input n) = true := by
      rw [hopen n (Nat.lt_succ_self n), Bool.not_eq_true]
    rw [loopState, if_neg hnot, numMoves_attempt, ih fun k hk => hopen k (by omega), movesMade,
      movesMade, List.range_succ, List.countP_append, List.countP_singleton]

section Run

variable (lines : List TextLine) (garbage : ℕ → Garbage)

/-- The program after its first `n` turns. -/
def programAt (n : ℕ) : Program where
  state := loopState (enteredAt lines) n
  stdin := linesBytes (lines.drop n)
  stdout := (List.range n).flatMap fun k =>
    turnOutput (loopState (enteredAt lines) k) (enteredAt lines k)
  turn := n

/-- The program as it ends after `n` turns. -/
def finished (n : ℕ) : Program :=
  { programAt lines n with
    stdout := (programAt lines n).stdout ++ [verdict (programAt lines n).state] }

variable {lines garbage} {n : ℕ}

theorem mainTurn_of_over (hover : gameOver (loopState (enteredAt lines) n) = true) (fuel : ℕ) :
    mainTurn fuel garbage (programAt lines n) = some (.inr (finished lines n)) :=
  if_pos hover

/-- A turn takes a line. -/
theorem mainTurn_of_line (hopen : gameOver (loopState (enteredAt lines) n) = false)
    (hn : n < lines.length) {fuel : ℕ} (hfuel : ∀ line ∈ lines, line.text.length < fuel) :
    mainTurn fuel garbage (programAt lines n) = some (.inl (programAt lines (n + 1))) := by
  have hstdin : (programAt lines n).stdin = lines[n].bytes ++ linesBytes (lines.drop (n + 1)) := by
    rw [programAt, List.drop_eq_getElem_cons hn, linesBytes, List.flatMap_cons]
    rfl
  have hentered : enteredAt lines n = entered lines[n] := by
    rw [enteredAt, List.getElem?_eq_getElem hn, Option.bind_some]
  have hread := UserInput.getUserInput_line lines[n] (hfuel _ (List.getElem_mem hn))
    (garbage n).inputBuffer (garbage n).nullBuffer (garbage n).space
    (linesBytes (lines.drop (n + 1)))
  rw [← hstdin] at hread
  have hmove := attempt_entered lines[n] (programAt lines n).state (garbage n).space
    (linesBytes (lines.drop (n + 1)))
  have hnext : programAt lines (n + 1) =
      { state := (attempt (programAt lines n).state (entered lines[n])).2
        stdin := linesBytes (lines.drop (n + 1))
        stdout := (programAt lines n).stdout ++ turnOutput (programAt lines n).state
          (entered lines[n])
        turn := n + 1 } := by
    rw [← hentered]
    simp only [programAt, loopState, hopen, List.range_succ, List.flatMap_append,
      List.flatMap_singleton, Bool.false_eq_true, if_false]
  have hopen' : ¬ gameOver (programAt lines n).state = true := by
    rw [Bool.not_eq_true]
    exact hopen
  rw [mainTurn, if_neg hopen', hnext]
  simp only [show (programAt lines n).turn = n from rfl, hread, Option.bind_eq_bind,
    Option.bind_some, hmove, turnOutput, List.append_assoc, Option.pure_def, deliver_stdin]

/-- Without a line left, a call waits forever, unless an uninitialised buffer shows a newline. -/
theorem mainTurn_of_nil (hopen : gameOver (loopState (enteredAt lines) n) = false)
    (hn : lines.length ≤ n) (hinput : newline ∉ cString (garbage n).inputBuffer)
    (hnull : newline ∉ cString (garbage n).nullBuffer) (fuel : ℕ) :
    mainTurn fuel garbage (programAt lines n) = none := by
  have hstdin : (programAt lines n).stdin = [] := by
    rw [programAt, List.drop_of_length_le hn]
    rfl
  have hwait : ¬ NewlineAhead INPUT_BUFFER_SIZE (garbage n).inputBuffer (garbage n).nullBuffer
      [] := by
    rintro (hshows | ⟨-, hmem⟩ | ⟨-, hmem⟩)
    · exact not_showsNewline_nil _ hshows
    · exact hinput hmem
    · exact hnull hmem
  have hread : UserInput.getUserInput fuel (garbage n).inputBuffer (garbage n).nullBuffer
      (garbage n).space [] = none := by
    rw [UserInput.getUserInput_eq, Option.map_eq_none_iff, Option.eq_none_iff_forall_ne_some]
    intro result hresult
    exact hwait ((readLine_returns_iff (by decide) _ _ _).mp ⟨fuel, result, hresult⟩)
  have hopen' : ¬ gameOver (programAt lines n).state = true := by
    rw [Bool.not_eq_true]
    exact hopen
  rw [mainTurn, if_neg hopen', hstdin]
  simp only [show (programAt lines n).turn = n from rfl, hread, Option.bind_eq_bind,
    Option.bind_none]

theorem getUserInput_mono {fuel fuel' : ℕ} (hle : fuel ≤ fuel')
    {inputBuffer nullBuffer : List Byte} {space : BoardSpace} {stdin : List Byte}
    {result : UserInput}
    (h : UserInput.getUserInput fuel inputBuffer nullBuffer space stdin = some result) :
    UserInput.getUserInput fuel' inputBuffer nullBuffer space stdin = some result := by
  rw [UserInput.getUserInput_eq, Option.map_eq_some_iff] at h ⊢
  obtain ⟨read, hread, rfl⟩ := h
  refine ⟨read, ?_, rfl⟩
  rw [readLine_eq] at hread ⊢
  split_ifs at hread ⊢
  · exact hread
  · obtain ⟨rest, hdrain, rfl⟩ := Option.map_eq_some_iff.mp hread
    have hdrain' : drain INPUT_BUFFER_SIZE fuel' nullBuffer _ = some rest :=
      loop_mono (fun _ _ h => h) hdrain hle
    rw [hdrain', Option.map_some]

theorem mainTurn_mono {fuel fuel' : ℕ} (hle : fuel ≤ fuel') (p : Program)
    (out : Program ⊕ Program) (h : mainTurn fuel garbage p = some out) :
    mainTurn fuel' garbage p = some out := by
  rw [mainTurn] at h ⊢
  split_ifs at h ⊢
  · exact h
  · rw [Option.bind_eq_bind, Option.bind_eq_some_iff] at h ⊢
    obtain ⟨input, hinput, hout⟩ := h
    exact ⟨input, getUserInput_mono hle hinput, hout⟩

/-- The game that the lines play ends within them: the program ends there. -/
theorem loop_finished (hover : gameOver (loopState (enteredAt lines) n) = true)
    (hfirst : ∀ k < n, gameOver (loopState (enteredAt lines) k) = false)
    (hn : n ≤ lines.length) {fuel : ℕ} (hfuel : ∀ line ∈ lines, line.text.length < fuel)
    {rounds : ℕ} (hrounds : n < rounds) :
    loop (mainTurn fuel garbage) rounds (programAt lines 0) = some (finished lines n) := by
  have hbody : ∀ p, (∃ k ≤ n, p = programAt lines k) →
      (∃ p', mainTurn fuel garbage p = some (.inl p') ∧ (∃ k ≤ n, p' = programAt lines k) ∧
        n - p'.turn < n - p.turn) ∨
      ∃ r, mainTurn fuel garbage p = some (.inr r) ∧ r = finished lines n := by
    rintro p ⟨k, hk, rfl⟩
    by_cases hlast : k = n
    · subst hlast
      exact Or.inr ⟨_, mainTurn_of_over hover fuel, rfl⟩
    · refine Or.inl ⟨_, mainTurn_of_line (hfirst k (by omega)) (by omega) hfuel,
        ⟨k + 1, by omega, rfl⟩, ?_⟩
      simp only [programAt]
      omega
  obtain ⟨p, hloop, rfl⟩ := loop_total (fun p => ∃ k ≤ n, p = programAt lines k)
    (fun p : Program => n - p.turn) hbody ⟨0, Nat.zero_le n, rfl⟩ hrounds
  exact hloop

/-- Otherwise it does not end. -/
theorem loop_waits (hopen : ∀ k ≤ lines.length, gameOver (loopState (enteredAt lines) k) = false)
    (hgarbage : ∀ n, newline ∉ cString (garbage n).inputBuffer ∧
      newline ∉ cString (garbage n).nullBuffer) (fuel rounds : ℕ) (hn : n ≤ lines.length) :
    loop (mainTurn fuel garbage) rounds (programAt lines n) = none := by
  induction rounds generalizing n with
  | zero => rfl
  | succ rounds ih =>
    rw [loop]
    cases hturn : mainTurn fuel garbage (programAt lines n) with
    | none => rfl
    | some out =>
      by_cases hlast : lines.length ≤ n
      · rw [mainTurn_of_nil (hopen n hn) hlast (hgarbage n).1 (hgarbage n).2] at hturn
        cases hturn
      · obtain ⟨enough, henough⟩ := exists_fuel lines
        have hline : mainTurn (max fuel enough) garbage (programAt lines n) =
            some (.inl (programAt lines (n + 1))) :=
          mainTurn_of_line (hopen n hn) (not_le.mp hlast)
            fun line hline => (henough line hline).trans_le (le_max_right _ _)
        rw [mainTurn_mono (le_max_left fuel enough) _ _ hturn, Option.some_inj] at hline
        subst hline
        exact ih (by omega)

end Run

theorem marked_eq (board : Board) : marked board = count board .x + count board .o := by
  rw [marked, count, count, tally, tally, tally, total, total, total, ← Finset.sum_add_distrib]
  apply Finset.sum_congr rfl
  intro c _
  cases board c <;> rfl

/-- A completed line has three marks. -/
theorem three_le_count {board : Board} {player : Space} (h : isWin board player = true) :
    3 ≤ count board player := by
  rw [isWin_iff] at h
  have hthree : ∀ line ∈ straightLines ++ [crossCells], line.toFinset.card = 3 := by decide
  obtain ⟨line, hline, hmarked⟩ := h
  rw [count, tally_eq_card, ← hthree line hline]
  apply Finset.card_le_card
  intro c hc
  simpa using hmarked c (List.mem_toFinset.mp hc)

/-- The text is right about the player to whom `is_win` gives the board, or that there is none,
and the number of moves. -/
def Announces (s : State) (text : String) : Prop :=
  (isWin s.board .x = true ∧ isWin s.board .o = false ∧ s.numMoves ∈ [5, 7, 9] ∧
      text = "X wins in " ++ toString s.numMoves ++ " moves!\n") ∨
    (isWin s.board .o = true ∧ isWin s.board .x = false ∧ s.numMoves ∈ [6, 8] ∧
      text = "O wins in " ++ toString s.numMoves ++ " moves!\n") ∨
    (isWin s.board .x = false ∧ isWin s.board .o = false ∧ s.numMoves = 9 ∧
      text = "It's a draw.\n")

theorem Consistent.announces {s : State} (h : Consistent s) (hover : gameOver s = true) :
    Announces s (verdict s) := by
  have hmoves := h.moves
  have hle : marked s.board ≤ 9 := tally_le s.board _
  have hfull : isFull s.board = true → marked s.board = 9 := by
    intro hfull
    rw [isFull_iff] at hfull
    exact (tally_eq_card_iff s.board _).mpr fun c => by simpa using hfull c
  have hnoWin := h.noWin
  rw [marked_eq] at hmoves hle hfull
  obtain ⟨hturn, hcount⟩ | ⟨hturn, hcount⟩ := h.turn
  · rw [hturn] at hnoWin
    by_cases hwin : isWin s.board .o = true
    · have hthree := three_le_count hwin
      refine Or.inr (Or.inl ⟨hwin, hnoWin, ?_, ?_⟩)
      · simp
        omega
      · simp [verdict, playerWin, hturn, getOpposingPlayer, hwin, Space.char]
    · -- a full board has an odd number of marks
      rw [Bool.not_eq_true] at hwin
      rw [gameOver, hwin, hnoWin] at hover
      have hnine := hfull (by simpa using hover)
      omega
  · rw [hturn] at hnoWin
    by_cases hwin : isWin s.board .x = true
    · have hthree := three_le_count hwin
      refine Or.inl ⟨hwin, hnoWin, ?_, ?_⟩
      · simp
        omega
      · simp [verdict, playerWin, hturn, getOpposingPlayer, hwin, Space.char]
    · rw [Bool.not_eq_true] at hwin
      rw [gameOver, hwin, hnoWin] at hover
      have hnine := hfull (by simpa using hover)
      refine Or.inr (Or.inr ⟨hwin, hnoWin, by omega, ?_⟩)
      simp [verdict, playerWin, hturn, getOpposingPlayer, hwin]

/-- The first end of the game decides what enough fuel gives. -/
theorem main_of_first {lines : List TextLine} {garbage : ℕ → Garbage} {n : ℕ}
    (hover : gameOver (loopState (enteredAt lines) n) = true)
    (hfirst : ∀ k < n, gameOver (loopState (enteredAt lines) k) = false)
    (hn : n ≤ lines.length) :
    ∃ enough, ∀ fuel, enough ≤ fuel →
      main fuel garbage (linesBytes lines) = some (finished lines n) := by
  obtain ⟨enough, henough⟩ := exists_fuel lines
  refine ⟨max enough (n + 1), fun fuel hfuel => ?_⟩
  rw [max_le_iff] at hfuel
  exact loop_finished hover hfirst hn (fun line hline => (henough line hline).trans_le hfuel.1)
    hfuel.2

/-- On complete lines, with nothing in the uninitialised buffers that reads as a newline:
the program ends exactly if the turns that the lines enter reach, within them, a board that is
full or that `is_win` gives to a player. It has then taken one line for each turn of the loop up
to the first such board, has counted the turns that made a move, and the last text that it prints
is right about that board. -/
theorem main_on_lines (lines : List TextLine) (garbage : ℕ → Garbage)
    (hgarbage : ∀ n, newline ∉ cString (garbage n).inputBuffer ∧
      newline ∉ cString (garbage n).nullBuffer) :
    ((∃ fuel p, main fuel garbage (linesBytes lines) = some p) ↔
      ∃ n ≤ lines.length, gameOver (loopState (enteredAt lines) n) = true) ∧
    ∀ fuel p, main fuel garbage (linesBytes lines) = some p →
      ∃ n ≤ lines.length, (∀ k < n, gameOver (loopState (enteredAt lines) k) = false) ∧
        p.state = loopState (enteredAt lines) n ∧ gameOver p.state = true ∧
        p.state.numMoves = movesMade (enteredAt lines) n ∧
        p.stdin = linesBytes (lines.drop n) ∧
        ∃ text, p.stdout = ((List.range n).flatMap fun k =>
            turnOutput (loopState (enteredAt lines) k) (enteredAt lines k)) ++ [text] ∧
          Announces p.state text := by
  have hfirst : (∃ n ≤ lines.length, gameOver (loopState (enteredAt lines) n) = true) →
      ∃ n ≤ lines.length, gameOver (loopState (enteredAt lines) n) = true ∧
        ∀ k < n, gameOver (loopState (enteredAt lines) k) = false := by
    rintro ⟨n, hn, hover⟩
    have hex : ∃ n, gameOver (loopState (enteredAt lines) n) = true := ⟨n, hover⟩
    refine ⟨Nat.find hex, (Nat.find_le hover).trans hn, Nat.find_spec hex, fun k hk => ?_⟩
    simpa using Nat.find_min hex hk
  have hends : ∀ fuel p, main fuel garbage (linesBytes lines) = some p →
      ∃ n ≤ lines.length, gameOver (loopState (enteredAt lines) n) = true := by
    intro fuel p hmain
    by_contra hopen
    push Not at hopen
    have hwaits : main fuel garbage (linesBytes lines) = none :=
      loop_waits (fun k hk => by simpa using hopen k hk) hgarbage fuel fuel (Nat.zero_le _)
    rw [hwaits] at hmain
    cases hmain
  refine ⟨⟨fun ⟨fuel, p, hmain⟩ => hends fuel p hmain, fun hex => ?_⟩, fun fuel p hmain => ?_⟩
  · obtain ⟨n, hn, hover, hmin⟩ := hfirst hex
    obtain ⟨enough, henough⟩ := main_of_first hover hmin hn
    exact ⟨enough, _, henough enough le_rfl⟩
  · obtain ⟨n, hn, hover, hmin⟩ := hfirst (hends fuel p hmain)
    obtain ⟨enough, henough⟩ := main_of_first hover hmin hn
    have hmore : main (max fuel enough) garbage (linesBytes lines) = some p :=
      loop_mono (mainTurn_mono (le_max_left _ _)) hmain (le_max_left _ _)
    rw [henough _ (le_max_right _ _), Option.some_inj] at hmore
    subst hmore
    exact ⟨n, hn, hmin, rfl, hover, numMoves_loopState hmin, rfl,
      verdict (loopState (enteredAt lines) n), rfl, (consistent_loopState _ n).announces hover⟩

/-- X fills the first row, with a repeated move and a line that is none in between. -/
def firstRow : List TextLine :=
  [⟨[48#8, 32#8, 48#8], by decide, by decide⟩, ⟨[49#8, 32#8, 48#8], by decide, by decide⟩,
    ⟨[48#8, 32#8, 48#8], by decide, by decide⟩, ⟨[48#8, 32#8, 49#8], by decide, by decide⟩,
    ⟨[120#8], by decide, by decide⟩, ⟨[49#8, 32#8, 49#8], by decide, by decide⟩,
    ⟨[48#8, 32#8, 50#8], by decide, by decide⟩]

theorem main_on_lines_first_row :
    ∃ fuel p, main fuel (fun _ => ⟨[], [], ⟨0, 0⟩⟩) (linesBytes firstRow) = some p ∧
      p.stdin = [] ∧ p.stdout.getLast? = some "X wins in 5 moves!\n" := by
  have hmain := main_on_lines firstRow (fun _ => ⟨[], [], ⟨0, 0⟩⟩) (fun _ => by decide)
  obtain ⟨fuel, p, hp⟩ := hmain.1.mpr ⟨7, by decide, by decide⟩
  obtain ⟨n, hn, -, hstate, hover, hmoves, hstdin, text, hstdout, hannounces⟩ := hmain.2 fuel p hp
  have hseven : n = 7 := by
    rw [hstate] at hover
    revert hn hover
    generalize n = k
    revert k
    decide
  subst hseven
  have hfive : p.state.numMoves = 5 := hmoves.trans (by decide)
  have hwin : isWin p.state.board .x = true := by
    rw [hstate]
    decide
  refine ⟨fuel, p, hp, hstdin, ?_⟩
  rw [hstdout, List.getLast?_concat]
  obtain ⟨-, -, -, rfl⟩ | ⟨-, hnot, -⟩ | ⟨hnot, -⟩ := hannounces
  · rw [hfive]
    rfl
  · rw [hwin] at hnot
    cases hnot
  · rw [hwin] at hnot
    cases hnot

end OlinCourses.TicTacToe
