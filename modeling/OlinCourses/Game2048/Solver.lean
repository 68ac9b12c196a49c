import OlinCourses.Lib.Argmax
import OlinCourses.Lib.Transition
import OlinCourses.Game2048.Bound

/-!
# The solver

The notebook's `evaluate_game` and `run_solver`. A heuristic is a function of the game
with values in any linear order; the outcomes of `random` are arguments.
-/
namespace OlinCourses.Game2048
open Argmax Transition

/-- `Board.copy`: a new board whose two random tiles are overwritten. -/
def BoardOf.copy (g : Board) (first second : Draw) : Board :=
  { newBoard first second with board := g.board, score := g.score }

/-- The random outcomes for one direction: the two tiles of the copy's `Board()` and the
tile of its turn. -/
structure CopyDraws where
  first : Draw
  second : Draw
  turn : Draw

/-- `game_copy.play_turn(move)`. -/
def playCopy (g : Board) (draws : String → CopyDraws) (move : String) : Bool × Board :=
  playTurn (g.copy (draws move).first (draws move).second) move (draws move).turn

/-- The outcomes of one iteration of `run_solver`: those of the four copies, the number
of `random.choice(list(best_moves))`, read modulo the length, and the random tile. -/
structure Iteration where
  copies : String → CopyDraws
  pick : ℕ
  draw : Draw

section Solver

variable {K : Type*} [LinearOrder K] [Neg K] [One K] (heuristic : Board → K)

def evaluateGame (g : Board) (moves : List String) (draws : String → CopyDraws) : List String :=
  (moves.foldl (fun best move =>
    let played := playCopy g draws move
    if played.1 then
      let currentScore := heuristic played.2
      if best.1 < currentScore then (currentScore, [move])
      else if currentScore = best.1 then (best.1, best.2.insert move)
      else best
    else best) (-1, [])).2

/-- One iteration of `run_solver`; it stops without a valid move or a best move. -/
def solverIteration (g : Board) (iteration : Iteration) : Option Board :=
  if hasValidMoves g then
    let best := evaluateGame heuristic g directions iteration.copies
    best[iteration.pick % best.length]?.map fun selected =>
      (playTurn g selected iteration.draw).2
  else none

/-- The score that a direction gets. -/
def score (g : Board) (draws : String → CopyDraws) (direction : String) : K :=
  heuristic (playCopy g draws direction).2

variable {heuristic}

theorem move_fst_of_mem {direction : String} (h : direction ∈ directions) (g : Board) :
    (move g direction).1 = true := by
  simp only [directions, List.mem_cons, List.not_mem_nil, or_false] at h
  obtain rfl | rfl | rfl | rfl := h <;> rfl

theorem playTurn_fst (g : Board) (direction : String) (draw : Draw) :
    (playTurn g direction draw).1 = (move g direction).1 := by
  cases h : (move g direction).1 <;> simp [playTurn, h]

theorem evaluateGame_eq (g : Board) (draws : String → CopyDraws) :
    evaluateGame heuristic g directions draws =
      (collectAll (score heuristic g draws) (-1) directions).2 := by
  refine congrArg Prod.snd (List.foldl_ext _ _ _ fun best direction hdirection => ?_)
  have hplayed : (playCopy g draws direction).1 = true := by
    rw [playCopy, playTurn_fst]
    exact move_fst_of_mem hdirection _
  simp only [hplayed, if_true]
  rfl

/-- `evaluate_game` returns the directions of greatest score, if that reaches -1. -/
theorem mem_evaluateGame (g : Board) (draws : String → CopyDraws) (direction : String) :
    direction ∈ evaluateGame heuristic g directions draws ↔
      direction ∈ directions ∧ -1 ≤ score heuristic g draws direction ∧
        ∀ other ∈ directions,
          score heuristic g draws other ≤ score heuristic g draws direction := by
  rw [evaluateGame_eq, mem_collectAll]

variable (heuristic)

/-- The evaluation finds a move, and only moves that change the board. -/
def Progress (g : Board) (draws : String → CopyDraws) : Prop :=
  evaluateGame heuristic g directions draws ≠ [] ∧
    ∀ direction ∈ evaluateGame heuristic g directions draws, Moves g direction

/-- Some direction that changes the board scores at least -1 and more than every
direction that does not. -/
def MoveScoresBest (g : Board) (draws : String → CopyDraws) : Prop :=
  ∃ direction ∈ directions, Moves g direction ∧ -1 ≤ score heuristic g draws direction ∧
    ∀ other ∈ directions, ¬ Moves g other →
      score heuristic g draws other < score heuristic g draws direction

instance (g : Board) (draws : String → CopyDraws) : Decidable (MoveScoresBest heuristic g draws) :=
  inferInstanceAs (Decidable (∃ direction ∈ directions, _))

variable {heuristic}

theorem progress_iff (g : Board) (draws : String → CopyDraws) :
    Progress heuristic g draws ↔ MoveScoresBest heuristic g draws := by
  constructor
  · rintro ⟨hne, hmoves⟩
    obtain ⟨direction, hbest⟩ := List.exists_mem_of_ne_nil _ hne
    obtain ⟨hmem, hstart, hmax⟩ := (mem_evaluateGame g draws direction).mp hbest
    refine ⟨direction, hmem, hmoves direction hbest, hstart, fun other hother hstays => ?_⟩
    -- a direction that changes nothing and scores as much would be among the best
    refine lt_of_le_of_ne (hmax other hother) fun heq => hstays (hmoves other ?_)
    exact (mem_evaluateGame g draws other).mpr ⟨hother, heq ▸ hstart, heq ▸ hmax⟩
  · rintro ⟨direction, hmem, -, hstart, hless⟩
    obtain ⟨best, hbest, hmax⟩ := Finset.exists_max_image directions.toFinset
      (score heuristic g draws) ⟨direction, List.mem_toFinset.mpr hmem⟩
    simp only [List.mem_toFinset] at hbest hmax
    refine ⟨List.ne_nil_of_mem ((mem_evaluateGame g draws best).mpr
      ⟨hbest, hstart.trans (hmax direction hmem), hmax⟩), fun other hother => ?_⟩
    obtain ⟨hmem', -, hmax'⟩ := (mem_evaluateGame g draws other).mp hother
    by_contra hstays
    exact absurd (hmax' direction hmem) (not_le.mpr (hless other hmem' hstays))

variable (heuristic)

/-- A property of the game and the random outcomes at the start of every iteration. -/
def AlongRun (P : Board → Iteration → Prop) : Board → List Iteration → Prop
  | _, [] => True
  | g, iteration :: rest =>
    P g iteration ∧ ∀ g', solverIteration heuristic g iteration = some g' → AlongRun P g' rest

/-- The iteration changes the board, if it does not end the loop. -/
def ChangesGame (g : Board) (iteration : Iteration) : Prop :=
  ∀ g', solverIteration heuristic g iteration = some g' → g'.board ≠ g.board

variable {heuristic}

/-- An iteration plays a turn with one of the best moves. -/
theorem solverIteration_eq_some {g g' : Board} {iteration : Iteration}
    (h : solverIteration heuristic g iteration = some g') :
    ∃ selected ∈ evaluateGame heuristic g directions iteration.copies,
      g' = g.next ⟨selected, iteration.draw⟩ := by
  unfold solverIteration at h
  split_ifs at h
  obtain ⟨selected, hselected, hplay⟩ := Option.map_eq_some_iff.mp h
  exact ⟨selected, List.mem_of_getElem? hselected, hplay.symm⟩

theorem MoveScoresBest.exists_turn {g g' : Board} {iteration : Iteration}
    (h : MoveScoresBest heuristic g iteration.copies)
    (hstep : solverIteration heuristic g iteration = some g') :
    ∃ turn, g' = g.next turn ∧ (g.next turn).board ≠ g.board := by
  obtain ⟨selected, hselected, hnext⟩ := solverIteration_eq_some hstep
  exact ⟨_, hnext, next_board_ne_iff.mpr (((progress_iff _ _).mpr h).2 selected hselected)⟩

theorem MoveScoresBest.changesGame {g : Board} {iteration : Iteration}
    (h : MoveScoresBest heuristic g iteration.copies) : ChangesGame heuristic g iteration := by
  intro g' hstep
  obtain ⟨turn, rfl, hne⟩ := h.exists_turn hstep
  exact hne

theorem AlongRun.imp {P Q : Board → Iteration → Prop} (hPQ : ∀ g iteration, P g iteration →
    Q g iteration) {g : Board} {iterations : List Iteration}
    (h : AlongRun heuristic P g iterations) : AlongRun heuristic Q g iterations := by
  induction iterations generalizing g with
  | nil => exact trivial
  | cons iteration rest ih => exact ⟨hPQ _ _ h.1, fun g' hstep => ih (h.2 g' hstep)⟩

/-- Such a run is a game in which every turn changes the board. -/
theorem exists_turns {g g' : Board} {iterations : List Iteration}
    (hrun : run (solverIteration heuristic) g iterations = some g')
    (hbest : AlongRun heuristic (fun g iteration => MoveScoresBest heuristic g iteration.copies)
      g iterations) :
    ∃ turns, g' = play g turns ∧ changes g turns = iterations.length := by
  induction iterations generalizing g with
  | nil => exact ⟨[], (Option.some.inj hrun).symm, rfl⟩
  | cons iteration rest ih =>
    rw [run_cons, Option.bind_eq_some_iff] at hrun
    obtain ⟨mid, hstep, hrest⟩ := hrun
    obtain ⟨turn, rfl, hne⟩ := hbest.1.exists_turn hstep
    obtain ⟨turns, hplay, hchanges⟩ := ih hrest (hbest.2 _ hstep)
    refine ⟨turn :: turns, hplay, ?_⟩
    rw [changes, if_neg hne, hchanges, List.length_cons, Nat.add_comm]

/-- From every game the runs whose iterations change the board are of bounded length. -/
theorem exists_run_bound (g : Board) :
    ∃ bound, ∀ iterations g', run (solverIteration heuristic) g iterations = some g' →
      AlongRun heuristic (fun g iteration => MoveScoresBest heuristic g iteration.copies)
        g iterations → iterations.length ≤ bound := by
  obtain ⟨c, hc, hbounded⟩ := exists_bounded g
  refine ⟨∑ i ∈ Finset.range 16, 2 ^ (16 + c - i), fun iterations g' hrun hbest => ?_⟩
  obtain ⟨turns, -, hchanges⟩ := exists_turns hrun hbest
  have hplay := total_play g turns
  have hend := total_le_of_bounded (bounded_play hbounded hc turns)
  omega

/-- From a game started by `Board()` they have at most 131068 iterations. -/
theorem run_length_le_of_play (first second : Draw) (turns : List Turn)
    {iterations : List Iteration} {g' : Board}
    (hrun : run (solverIteration heuristic) (play (newBoard first second) turns) iterations =
      some g')
    (hbest : AlongRun heuristic (fun g iteration => MoveScoresBest heuristic g iteration.copies)
      (play (newBoard first second) turns) iterations) : iterations.length ≤ 131068 := by
  obtain ⟨more, -, hchanges⟩ := exists_turns hrun hbest
  have hstart := total_newBoard first second
  have hplay := total_play (newBoard first second) (turns ++ more)
  have hend := total_play_le first second (turns ++ more)
  rw [changes_append] at hplay
  omega

/-- A board with a tile and a valid move is changed by one of the four directions. The
evaluation finds a move, and only moves that change the board, when a direction that
changes it scores at least -1 and more than every direction that does not. In a run of
`run_solver` where that is so at every iteration, every iteration changes the board, and
the run ends: its length is bounded, by 131068 for the games started by `Board()`. -/
theorem solver_progress (heuristic : Board → K) :
    (∀ g, (∃ r c, g.board r c ≠ 0) → hasValidMoves g = true → ∃ d ∈ directions, Moves g d) ∧
      (∀ g draws, MoveScoresBest heuristic g draws → Progress heuristic g draws) ∧
      (∀ g iterations,
        AlongRun heuristic (fun g iteration => MoveScoresBest heuristic g iteration.copies)
          g iterations → AlongRun heuristic (ChangesGame heuristic) g iterations) ∧
      (∀ g, ∃ bound, ∀ iterations g', run (solverIteration heuristic) g iterations = some g' →
        AlongRun heuristic (fun g iteration => MoveScoresBest heuristic g iteration.copies)
          g iterations → iterations.length ≤ bound) ∧
      ∀ first second turns iterations g',
        run (solverIteration heuristic) (play (newBoard first second) turns) iterations =
          some g' →
        AlongRun heuristic (fun g iteration => MoveScoresBest heuristic g iteration.copies)
          (play (newBoard first second) turns) iterations → iterations.length ≤ 131068 := by
  refine ⟨fun g htile hvalid => ?_, fun g draws h => (progress_iff g draws).mpr h,
    fun g iterations h => h.imp fun _ _ hbest => hbest.changesGame, exists_run_bound,
    fun first second turns iterations g' hrun hbest =>
      run_length_le_of_play first second turns hrun hbest⟩
  by_contra hnone
  push Not at hnone
  rw [(hasValidMoves_eq_false_iff htile).mpr hnone] at hvalid
  cases hvalid

end Solver

/-- A 2-tile and a 4-tile in the upper left corner. -/
def cornerStart : Board := newBoard ⟨0, 0⟩ ⟨0, 19 / 20⟩

/-- All copies spawn a 2-tile on the first blank cell, and the pick is `w`. -/
def upIteration : Iteration := ⟨fun _ => ⟨⟨0, 0⟩, ⟨0, 0⟩, ⟨0, 0⟩⟩, 3, ⟨0, 0⟩⟩

/-- The notebook's `game_score`. -/
def gameScore (g : Board) : ℤ := g.score

/-- At the start of a game, with the score of the game as the heuristic, the evaluation
returns a move that does nothing, and `run_solver` can repeat it for ever. -/
theorem not_solver_progress :
    hasValidMoves cornerStart = true ∧ ¬ Progress gameScore cornerStart upIteration.copies ∧
      ∀ n, run (solverIteration gameScore) cornerStart (List.replicate n upIteration) =
        some cornerStart := by
  have hbest : evaluateGame gameScore cornerStart directions upIteration.copies =
      ["d", "s", "a", "w"] := by decide +kernel
  have hstays : ¬ Moves cornerStart "w" := by decide +kernel
  refine ⟨by decide +kernel, fun h => hstays (h.2 "w" (by simp [hbest])), fun n => ?_⟩
  have hstep : solverIteration gameScore cornerStart upIteration = some cornerStart := by
    decide +kernel
  induction n with
  | zero => rfl
  | succ n ih => rw [List.replicate_succ, run_cons, hstep, Option.bind_some, ih]

end OlinCourses.Game2048
