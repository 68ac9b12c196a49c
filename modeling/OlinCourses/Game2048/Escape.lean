import OlinCourses.Game2048.Traps

/-!
# The solver that escapes

The notebook's last `run_solver`: after a direction was selected eight times in a row it
selects one of all four at random. A run can still repeat useless moves, but no state that
it comes to is a trap: from there the game can be brought to an end.
-/
namespace OlinCourses.Game2048
open Transition

/-- The game and the variables of the loop. -/
structure SolverState where
  game : Board
  previousMove : Option String
  repeatCount : ℕ

def threshold : ℕ := 7

/-- The variables before the first iteration. -/
def SolverState.start (g : Board) : SolverState := ⟨g, none, 0⟩

/-- The list that `random.choice` selects from, and `repeat_count` after that. -/
def SolverState.choices (s : SolverState) (best : List String) : List String × ℕ :=
  if threshold ≤ s.repeatCount then (directions, 0) else (best, s.repeatCount)

/-- The rest of the iteration. -/
def SolverState.select (s : SolverState) (repeatCount : ℕ) (selected : String) (draw : Draw) :
    SolverState where
  repeatCount := if some selected = s.previousMove then repeatCount + 1 else 0
  previousMove := some selected
  game := (playTurn s.game selected draw).2

section Loop

variable {K : Type*} [LinearOrder K] [Neg K] [One K] (heuristic : Board → K)

/-- One iteration; the number `pick` is read modulo the length of the list that the
iteration selects from. -/
def escapingIteration (s : SolverState) (iteration : Iteration) : Option SolverState :=
  if hasValidMoves s.game then
    let best := evaluateGame heuristic s.game directions iteration.copies
    if best = [] then none
    else
      let choices := s.choices best
      choices.1[iteration.pick % choices.1.length]?.map fun selected =>
        s.select choices.2 selected iteration.draw
  else none

variable {heuristic}

theorem mem_of_mem_choices {s : SolverState} {draws : String → CopyDraws} {direction : String}
    (h : direction ∈ (s.choices (evaluateGame heuristic s.game directions draws)).1) :
    direction ∈ directions := by
  unfold SolverState.choices at h
  split_ifs at h
  · exact h
  · exact ((mem_evaluateGame _ _ _).mp h).1

/-- What an iteration can do. -/
theorem escapingIteration_eq_some {s s' : SolverState} {iteration : Iteration}
    (h : escapingIteration heuristic s iteration = some s') :
    hasValidMoves s.game = true ∧ ∃ selected ∈ directions,
      s' = s.select (s.choices (evaluateGame heuristic s.game directions iteration.copies)).2
        selected iteration.draw := by
  unfold escapingIteration at h
  split_ifs at h with hvalid
  dsimp only at h
  split_ifs at h with hnone
  obtain ⟨selected, hselected, rfl⟩ := Option.map_eq_some_iff.mp h
  exact ⟨hvalid, selected, mem_of_mem_choices (List.mem_of_getElem? hselected), rfl⟩

/-- Every one of the choices can be selected. -/
theorem exists_iteration {s : SolverState} (hvalid : hasValidMoves s.game = true)
    {copies : String → CopyDraws} (hbest : evaluateGame heuristic s.game directions copies ≠ [])
    {direction : String}
    (hdirection : direction ∈ (s.choices (evaluateGame heuristic s.game directions copies)).1)
    (draw : Draw) : ∃ iteration, escapingIteration heuristic s iteration =
      some (s.select (s.choices (evaluateGame heuristic s.game directions copies)).2
        direction draw) := by
  obtain ⟨pick, hpick⟩ := exists_pick hdirection
  refine ⟨⟨copies, pick, draw⟩, ?_⟩
  simp only [escapingIteration, hvalid, if_true, if_neg hbest, hpick, Option.map_some]

/-- With values of at least -1 the loop ends at a game without a valid move only. -/
theorem escapingIteration_eq_none (hheuristic : ∀ g, -1 ≤ heuristic g) (s : SolverState)
    (iteration : Iteration) :
    escapingIteration heuristic s iteration = none ↔ hasValidMoves s.game = false := by
  cases hvalid : hasValidMoves s.game with
  | false => simp [escapingIteration, hvalid]
  | true =>
    obtain ⟨direction, hdirection⟩ := exists_best hheuristic s.game iteration.copies
    have hbest := List.ne_nil_of_mem hdirection
    have hchoices : 0 <
        (s.choices (evaluateGame heuristic s.game directions iteration.copies)).1.length := by
      unfold SolverState.choices
      split_ifs
      · decide
      · exact List.length_pos_iff.mpr hbest
    have hpick := Nat.mod_lt iteration.pick hchoices
    simp [escapingIteration, hvalid, hbest, List.getElem?_eq_getElem hpick]

theorem select_repeatCount_le (s : SolverState) (best : List String) (selected : String)
    (draw : Draw) :
    (s.select (s.choices best).2 selected draw).repeatCount ≤ threshold := by
  unfold SolverState.select SolverState.choices
  by_cases h : threshold ≤ s.repeatCount
  · rw [if_pos h]
    dsimp only
    split_ifs <;> decide
  · rw [if_neg h]
    dsimp only
    split_ifs <;> omega

theorem select_of_stays {s : SolverState} {selected : String} (h : ¬ Moves s.game selected)
    (repeatCount : ℕ) (draw : Draw) :
    s.select repeatCount selected draw =
      ⟨s.game, some selected, if some selected = s.previousMove then repeatCount + 1 else 0⟩ := by
  have hsame : (playTurn s.game selected draw).2 = s.game := next_eq_self h draw
  rw [SolverState.select, hsame]

/-- A best direction that does nothing can be selected until the count is at the threshold. -/
theorem exists_repeats {g : Board} (hvalid : hasValidMoves g = true)
    {copies : String → CopyDraws} {direction : String}
    (hbest : direction ∈ evaluateGame heuristic g directions copies)
    (hstays : ¬ Moves g direction) {n k : ℕ} (hk : n + k ≤ threshold) :
    ∃ iterations, run (escapingIteration heuristic) ⟨g, some direction, n⟩ iterations =
      some ⟨g, some direction, n + k⟩ ∧ iterations.length = k := by
  induction k generalizing n with
  | zero => exact ⟨[], rfl, rfl⟩
  | succ k ih =>
    have hchoices : ∀ best, (SolverState.mk g (some direction) n).choices best = (best, n) :=
      fun best => if_neg (show ¬ threshold ≤ n by omega)
    obtain ⟨iteration, hstep⟩ := exists_iteration (s := ⟨g, some direction, n⟩) hvalid
      (List.ne_nil_of_mem hbest) (by rwa [hchoices]) ⟨0, 0⟩
    rw [select_of_stays (s := ⟨g, some direction, n⟩) hstays, hchoices, if_pos rfl] at hstep
    obtain ⟨rest, hrest, hlen⟩ := ih (n := n + 1) (by omega)
    refine ⟨iteration :: rest, ?_, by rw [List.length_cons, hlen]⟩
    rw [run_cons, hstep, Option.bind_some, hrest, Nat.add_right_comm, Nat.add_assoc]

/-- At the threshold the count says nothing against a direction that changes the board. -/
theorem exists_escape {s : SolverState} (hvalid : hasValidMoves s.game = true)
    (hcount : threshold ≤ s.repeatCount) {copies : String → CopyDraws}
    (hbest : evaluateGame heuristic s.game directions copies ≠ []) {direction : String}
    (hmem : direction ∈ directions) : ∃ iteration s', escapingIteration heuristic s iteration =
      some s' ∧ s'.game = s.game.next ⟨direction, ⟨0, 0⟩⟩ := by
  have hchoices : ∀ best, s.choices best = (directions, 0) := fun best => if_pos hcount
  obtain ⟨iteration, hstep⟩ := exists_iteration hvalid hbest (by rwa [hchoices]) ⟨0, 0⟩
  exact ⟨iteration, _, hstep, rfl⟩

/-- Nine iterations are enough to change the board: one that selects a best direction, seven
that repeat it, and the escape. -/
theorem exists_progress (hheuristic : ∀ g, -1 ≤ heuristic g) {s : SolverState}
    (hvalid : hasValidMoves s.game = true) (htile : ∃ r c, s.game.board r c ≠ 0) :
    ∃ iterations s', run (escapingIteration heuristic) s iterations = some s' ∧
      iterations.length ≤ 9 ∧ ∃ turn, s'.game = s.game.next turn ∧
        Moves s.game turn.direction := by
  obtain ⟨direction, hmem, hmoves⟩ : ∃ direction ∈ directions, Moves s.game direction := by
    by_contra hnone
    push Not at hnone
    rw [(hasValidMoves_eq_false_iff htile).mpr hnone] at hvalid
    cases hvalid
  obtain ⟨best, hbest⟩ := exists_best hheuristic s.game fun _ => ⟨⟨0, 0⟩, ⟨0, 0⟩, ⟨0, 0⟩⟩
  have hne := List.ne_nil_of_mem hbest
  by_cases hcount : threshold ≤ s.repeatCount
  · obtain ⟨iteration, s', hstep, hgame⟩ := exists_escape hvalid hcount hne hmem
    exact ⟨[iteration], s', by rw [run_cons, hstep]; rfl, by simp, _, hgame, hmoves⟩
  · have hchoices : ∀ best, s.choices best = (best, s.repeatCount) := fun best => if_neg hcount
    obtain ⟨first, hfirst⟩ := exists_iteration hvalid hne (by rwa [hchoices]) ⟨0, 0⟩
    by_cases hbestMoves : Moves s.game best
    · exact ⟨[first], _, by rw [run_cons, hfirst]; rfl, by simp, ⟨best, ⟨0, 0⟩⟩, rfl, hbestMoves⟩
    · have hle := select_repeatCount_le s [] best ⟨0, 0⟩
      rw [select_of_stays hbestMoves, hchoices] at hfirst hle
      obtain ⟨repeats, hrepeats, hlen⟩ := exists_repeats hvalid hbest hbestMoves
        (Nat.add_sub_of_le hle).le
      rw [Nat.add_sub_of_le hle] at hrepeats
      obtain ⟨last, s', hlast, hgame⟩ := exists_escape (s := ⟨s.game, some best, threshold⟩)
        hvalid le_rfl hne hmem
      refine ⟨first :: (repeats ++ [last]), s', ?_, ?_, _, hgame, hmoves⟩
      · rw [run_cons, hfirst, Option.bind_some, run_append, hrepeats, Option.bind_some, run_cons,
          hlast]
        rfl
      · rw [List.length_cons, List.length_append, hlen, List.length_singleton]
        unfold threshold
        omega

theorem exists_tile (first second : Draw) (turns : List Turn) :
    ∃ r c, (play (newBoard first second) turns).board r c ≠ 0 := by
  have hstart := total_newBoard first second
  have hplay := total_play (newBoard first second) turns
  by_contra hblank
  push Not at hblank
  have hzero := total_eq_zero hblank
  omega

/-- No move is valid. -/
def SolverState.Over (s : SolverState) : Prop := hasValidMoves s.game = false

/-- The game comes from `Board()` by turns. -/
def FromBoard (first second : Draw) (s : SolverState) : Prop :=
  ∃ turns, s.game = play (newBoard first second) turns

theorem FromBoard.next {first second : Draw} {s s' : SolverState}
    (h : FromBoard first second s) {turn : Turn} (hnext : s'.game = s.game.next turn) :
    FromBoard first second s' := by
  obtain ⟨turns, hturns⟩ := h
  refine ⟨turns ++ [turn], ?_⟩
  rw [hnext, hturns, play, play, List.foldl_append]
  rfl

/-- From every state that a run of `run_solver` on a new board comes to, whatever the
heuristic with values of at least -1: the loop ends there only if no move is valid, the
next nine iterations can change the board if a move is, and within 1179612 iterations the
game can be brought to an end. -/
theorem escapingSolver_ends (hheuristic : ∀ g, -1 ≤ heuristic g) (first second : Draw)
    {iterations : List Iteration} {s : SolverState}
    (hrun : run (escapingIteration heuristic) (.start (newBoard first second)) iterations =
      some s) :
    (∀ iteration, escapingIteration heuristic s iteration = none ↔
      hasValidMoves s.game = false) ∧
      (hasValidMoves s.game = true → ∃ more s', more.length ≤ 9 ∧
        run (escapingIteration heuristic) s more = some s' ∧ s'.game.board ≠ s.game.board) ∧
      ∃ more s', more.length ≤ 1179612 ∧ run (escapingIteration heuristic) s more = some s' ∧
        hasValidMoves s'.game = false := by
  have hstep : ∀ s iteration s', FromBoard first second s →
      escapingIteration heuristic s iteration = some s' → FromBoard first second s' := by
    intro s iteration s' hs hiteration
    obtain ⟨-, selected, -, rfl⟩ := escapingIteration_eq_some hiteration
    exact hs.next (rfl : _ = s.game.next ⟨selected, iteration.draw⟩)
  have hs : FromBoard first second s := run_invariant hstep ⟨[], rfl⟩ hrun
  have hprogress : ∀ s, FromBoard first second s → hasValidMoves s.game = true →
      ∃ more s', run (escapingIteration heuristic) s more = some s' ∧ more.length ≤ 9 ∧
        ∃ turn, s'.game = s.game.next turn ∧ Moves s.game turn.direction := by
    rintro s ⟨turns, hturns⟩ hvalid
    exact exists_progress hheuristic hvalid (hturns ▸ exists_tile first second turns)
  refine ⟨escapingIteration_eq_none hheuristic s, fun hvalid => ?_, ?_⟩
  · obtain ⟨more, s', hmore, hlen, turn, hnext, hmoves⟩ := hprogress s hs hvalid
    exact ⟨more, s', hlen, hmore, hnext ▸ next_board_ne_iff.mpr hmoves⟩
  · -- a turn adds at least 2 to the tiles, and their sum is bounded
    have hlower : ∀ s, FromBoard first second s → ¬ s.Over →
        ∃ more s', run (escapingIteration heuristic) s more = some s' ∧ more.length ≤ 9 ∧
          FromBoard first second s' ∧
            (262140 - total s'.game) / 2 < (262140 - total s.game) / 2 := by
      intro s hs hover
      obtain ⟨more, s', hmore, hlen, turn, hnext, hmoves⟩ :=
        hprogress s hs (Bool.eq_true_of_not_eq_false hover)
      have hs' := hs.next hnext
      refine ⟨more, s', hmore, hlen, hs', ?_⟩
      obtain ⟨turns, hturns⟩ := hs'
      have hadd := total_next hmoves
      have hbound := total_play_le first second turns
      rw [← hnext] at hadd
      rw [← hturns] at hbound
      omega
    obtain ⟨more, s', hmore, hend, hlen⟩ := exists_run_to_final hlower hs
    refine ⟨more, s', ?_, hmore, hend⟩
    obtain ⟨turns, hturns⟩ := hs
    have hstart := total_newBoard first second
    have hplay := total_play (newBoard first second) turns
    rw [← hturns] at hplay
    omega

/-- The combined heuristic, at the start on which the plain solver can repeat a useless move
for ever: after eight times of it the escape is due. -/
theorem escapingSolver_ends_combined :
    ∃ s, run (escapingIteration combinedHeuristic) (.start cornerStart)
        (List.replicate 8 upIteration) = some s ∧ s.game = cornerStart ∧
      (∃ more s', more.length ≤ 9 ∧ run (escapingIteration combinedHeuristic) s more = some s' ∧
        s'.game.board ≠ cornerStart.board) ∧
      ∃ more s', more.length ≤ 1179612 ∧
        run (escapingIteration combinedHeuristic) s more = some s' ∧
          hasValidMoves s'.game = false := by
  have hheuristic := neg_one_le_heuristic (by simp [heuristics] : combinedHeuristic ∈ heuristics)
  have hgame : (run (escapingIteration combinedHeuristic) (.start cornerStart)
      (List.replicate 8 upIteration)).map SolverState.game = some cornerStart := by
    decide +kernel
  obtain ⟨s, hrun, hs⟩ := Option.map_eq_some_iff.mp hgame
  obtain ⟨-, hprogress, hends⟩ := escapingSolver_ends hheuristic ⟨0, 0⟩ ⟨0, 19 / 20⟩ hrun
  rw [hs] at hprogress
  exact ⟨s, hrun, hs, hprogress (by decide +kernel), hends⟩

end Loop

end OlinCourses.Game2048
