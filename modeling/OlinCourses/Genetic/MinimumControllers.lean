import OlinCourses.Genetic.Evolution

/-!
# The minimum number of controllers

`find_minimum_controllers` of the scheduling notebook: five runs of the genetic algorithm for
each number of controllers, until four of them succeed. What it finds is the first number that
is reliable in this sense; a number with fewer successes is passed over.
-/
namespace OlinCourses.Genetic
open Loop

def POPULATION_SIZE : ℕ := 100
def GENERATIONS : ℕ := 150
def MUTATION_RATE : ℚ := 2 / 100
def CROSSOVER_RATE : ℚ := 7 / 10

/-- The arguments of `genetic_algorithm`. -/
def parameters (numControllers : ℕ) : Parameters where
  populationSize := POPULATION_SIZE
  numPeople := numControllers
  shiftsPerWeek := SHIFTS_PER_WEEK
  shiftsPerDay := SHIFTS_PER_DAY
  mutationRate := MUTATION_RATE
  crossoverRate := CROSSOVER_RATE

/-- The draws of each trial for each number of controllers. -/
abbrev TrialDraws := (numControllers : ℕ) → ℕ → Draws (parameters numControllers)

def TOTAL_RUNS : ℕ := 5

/-- `best_fitness == 0`. -/
def isPerfect (result : State) : Bool := result.bestFitness = ((0 : ℤ) : WithBot ℤ)

section Source

variable (draws : TrialDraws)

def successfulRuns (numControllers : ℕ) : Option ℕ :=
  (List.range TOTAL_RUNS).foldlM (fun (successfulRuns : ℕ) trial => do
    let result ← geneticAlgorithm (draws numControllers trial) GENERATIONS
    return if isPerfect result then successfulRuns + 1 else successfulRuns) 0

/-- The loop over the numbers of controllers; the result `none` is `None`. -/
def findMinimumIn : List ℕ → Option (Option ℕ)
  | [] => some none
  | numControllers :: rest => do
    let successfulRuns ← successfulRuns draws numControllers
    let successRate : ℚ := successfulRuns / TOTAL_RUNS
    if successRate ≥ 8 / 10 then return some numControllers else findMinimumIn rest

def findMinimumControllers : Option (Option ℕ) := findMinimumIn draws (List.range' 3 5)

end Source

/-- The run ends with `best_fitness` 0. -/
def succeeds (draws : TrialDraws) (numControllers trial : ℕ) : Bool :=
  (geneticAlgorithm (draws numControllers trial) GENERATIONS).any isPerfect

/-- How many of the five runs succeed. -/
def successes (draws : TrialDraws) (numControllers : ℕ) : ℕ :=
  (List.range TOTAL_RUNS).countP (succeeds draws numControllers)

/-- A schedule of entries 0 and 1 without violations. -/
def PerfectSchedule (numControllers : ℕ) : Prop :=
  ∃ rows, Shaped (parameters numControllers) rows ∧
    evaluateFitness (parameters numControllers) rows = some 0

variable (draws : TrialDraws)

/-- Every run ends, with the fitness of a schedule. -/
theorem run_spec (numControllers trial : ℕ) : ∃ result rows,
    geneticAlgorithm (draws numControllers trial) GENERATIONS = some result ∧
    Shaped (parameters numControllers) rows ∧
    evaluateFitness (parameters numControllers) rows =
      some (fitness (parameters numControllers) rows) ∧
    result.bestFitness = fitness (parameters numControllers) rows := by
  have hweek : (parameters numControllers).shiftsPerWeek ≤ SHIFTS_PER_WEEK := le_rfl
  obtain ⟨states, values, h⟩ := exists_evolution (draws numControllers trial) hweek
  obtain ⟨schedule, rows, -, ⟨-, hshape⟩, hbest⟩ := h.exists_best 149
  exact ⟨states 150, rows, h.run 150, hshape, hshape.evaluateFitness_eq hweek, hbest⟩

theorem perfectSchedule_of_succeeds {numControllers trial : ℕ}
    (h : succeeds draws numControllers trial = true) : PerfectSchedule numControllers := by
  obtain ⟨result, rows, hrun, hshape, hfitness, hbest⟩ := run_spec draws numControllers trial
  rw [succeeds, hrun, Option.any_some, isPerfect, decide_eq_true_eq, hbest, WithBot.coe_inj] at h
  exact ⟨rows, hshape, by rw [hfitness, h]⟩

theorem successfulRuns_eq (numControllers : ℕ) :
    successfulRuns draws numControllers = some (successes draws numControllers) := by
  have hruns : ∀ trial ∈ List.range TOTAL_RUNS, ∃ result,
      geneticAlgorithm (draws numControllers trial) GENERATIONS = some result := by
    intro trial _
    obtain ⟨result, rows, hrun, -⟩ := run_spec draws numControllers trial
    exact ⟨result, hrun⟩
  rw [successfulRuns, foldlM_count isPerfect hruns 0, Nat.zero_add]
  rfl

/-- The search stops at the first number with four successes. -/
theorem findMinimumIn_eq (numbers : List ℕ) : findMinimumIn draws numbers =
    some (numbers.find? fun numControllers => decide (4 ≤ successes draws numControllers)) := by
  induction numbers with
  | nil => rfl
  | cons numControllers rest ih =>
    have hrate : (successes draws numControllers : ℚ) / (TOTAL_RUNS : ℕ) ≥ 8 / 10 ↔
        4 ≤ successes draws numControllers := by
      rw [TOTAL_RUNS, ge_iff_le, div_le_div_iff₀ (by norm_num) (by norm_num)]
      norm_cast
      omega
    simp only [findMinimumIn, successfulRuns_eq, Option.bind_eq_bind, Option.bind_some, hrate, ih,
      Option.pure_def, List.find?_cons]
    by_cases h : 4 ≤ successes draws numControllers
    · simp [h]
    · simp [h]

/-- The answer is the first number of controllers from 3 to 7 with four or five successful
runs, and for this number a schedule without violations exists. -/
theorem findMinimumControllers_reliable : ∃ answer, findMinimumControllers draws = some answer ∧
    (∀ P, answer = some P → 3 ≤ P ∧ P ≤ 7 ∧ PerfectSchedule P ∧ 4 ≤ successes draws P ∧
      ∀ n, 3 ≤ n → n < P → successes draws n ≤ 3) ∧
    (answer = none → ∀ n, 3 ≤ n → n ≤ 7 → successes draws n ≤ 3) := by
  refine ⟨_, findMinimumIn_eq draws (List.range' 3 5), ?_, ?_⟩
  · intro P hP
    obtain ⟨hlow, hhigh, hmany, hbefore⟩ := find?_range'_eq_some hP
    rw [decide_eq_true_eq] at hmany
    obtain ⟨trial, -, htrial⟩ := List.countP_pos_iff.mp (Nat.zero_lt_of_lt hmany)
    refine ⟨hlow, by omega, perfectSchedule_of_succeeds draws htrial, hmany, ?_⟩
    intro n hn hnP
    have hfew := hbefore n hn hnP
    rw [decide_eq_false_iff_not] at hfew
    omega
  · intro hnone n hlow hhigh
    have hfew := find?_range'_eq_none hnone n hlow (by omega)
    rw [decide_eq_false_iff_not] at hfew
    omega

/-- No run of a smaller number of controllers, or of any number where none is found, ends
without violations. -/
def FindsMinimum : Prop := ∃ answer, findMinimumControllers draws = some answer ∧
  (∀ P, answer = some P → PerfectSchedule P ∧
    ∀ n, 3 ≤ n → n < P → ∀ trial < TOTAL_RUNS, succeeds draws n trial = false) ∧
  (answer = none → ∀ n, 3 ≤ n → n ≤ 7 → ∀ trial < TOTAL_RUNS, succeeds draws n trial = false)

/-- The draws of a run whose first schedules are all the same, and whose children are copies. -/
def uniformDraws (numControllers : ℕ) (choice : ℕ → ℕ → Fin 2) :
    Draws (parameters numControllers) where
  choice _ := choice
  generation _ :=
    { tournament := fun _ => Fin.castLEEmb (show 3 ≤ POPULATION_SIZE by decide)
      child := fun _ =>
        { mate := ⟨0, show 0 < POPULATION_SIZE by decide⟩
          crossoverRoll := 9 / 10
          crossoverPoint := fun _ => ⟨1, show 1 ≤ 1 ∧ 1 ≤ SHIFTS_PER_WEEK - 1 by decide⟩
          mutationRoll := fun _ _ => 1 / 2 } }

theorem mapIdx_self {α : Type*} (xs : List α) : (xs.mapIdx fun _ x => x) = xs := by
  apply List.ext_getElem
  · simp
  · intro i hi hi'
    simp

/-- Without flips a child stays as it is. -/
theorem mutateRows_uniform {par : Parameters} {draws : ChildDraws par}
    (h : ∀ person shift, ¬ draws.mutationRoll person shift < par.mutationRate) (rows : List Row) :
    mutateRows draws rows = rows := by
  have hentry : ∀ person, mutateEntry draws person = fun _ entry => entry := by
    intro person
    funext shift entry
    exact if_neg (h person shift)
  rw [mutateRows]
  simp only [hentry, mapIdx_self]

theorem offspringRows_uniform {numControllers : ℕ} {choice : ℕ → ℕ → Fin 2} {g : ℕ}
    {rows : List Row} {parents : List (List Row)}
    (hlength : parents.length = (parameters numControllers).populationSize)
    (hparents : ∀ rows' ∈ parents, rows' = rows) :
    ∀ child ∈ offspringRows ((uniformDraws numControllers choice).generation g) parents,
      child = rows := by
  intro child hchild
  obtain ⟨i, -, rfl⟩ := List.mem_map.mp hchild
  have hparent : parentRows ((uniformDraws numControllers choice).generation g) parents i =
      rows := by
    refine hparents _ ?_
    have hlt : (parentIdx ((uniformDraws numControllers choice).generation g) parents i).val <
        parents.length := by
      rw [hlength]
      exact Fin.isLt _
    rw [parentRows, List.getD_eq_getElem?_getD, List.getElem?_eq_getElem hlt, Option.getD_some]
    exact List.getElem_mem hlt
  have hroll : ¬ ((1 : ℚ) / 2 < MUTATION_RATE) := by
    norm_num [MUTATION_RATE]
  have hcross : (((uniformDraws numControllers choice).generation g).child i).crossoverRoll >
      (parameters numControllers).crossoverRate := by
    change (9 : ℚ) / 10 > CROSSOVER_RATE
    norm_num [CROSSOVER_RATE]
  rw [childRows, mutateRows_uniform (fun _ _ => hroll), crossoverRows, if_pos hcross, hparent]

/-- Such a run ends with the fitness of this schedule. -/
theorem bestFitness_uniform (numControllers : ℕ) (choice : ℕ → ℕ → Fin 2) :
    ∃ result, geneticAlgorithm (uniformDraws numControllers choice) GENERATIONS = some result ∧
      result.bestFitness = fitness (parameters numControllers)
        (generateInitialRepresentation (parameters numControllers) choice) := by
  have hweek : (parameters numControllers).shiftsPerWeek ≤ SHIFTS_PER_WEEK := le_rfl
  obtain ⟨states, values, h⟩ := exists_evolution (uniformDraws numControllers choice) hweek
  refine ⟨states 150, h.run 150, ?_⟩
  have hsame := h.forall_mem_values hweek (P := fun rows =>
    rows = generateInitialRepresentation (parameters numControllers) choice) (fun i => rfl)
    (fun g parents hlength hparents => offspringRows_uniform hlength hparents) 149
  have hpos : 0 < (values 149).length := by
    rw [(h.running 149).size]
    exact show 0 < POPULATION_SIZE by decide
  obtain ⟨rows, hrows⟩ := List.exists_mem_of_length_pos hpos
  rw [h.bestFitness_succ 149, maxFitness, List.maximum_eq_coe_iff]
  refine ⟨?_, fun value hvalue => ?_⟩
  · rw [← hsame rows hrows]
    exact List.mem_map_of_mem hrows
  · obtain ⟨rows', hrows', rfl⟩ := List.mem_map.mp hvalue
    rw [hsame rows' hrows']

/-- Two controllers alternate on mornings and nights, two share all afternoons. -/
def pairRoster (person shift : ℕ) : Fin 2 :=
  if (person = 0 ∧ (shift % 6 = 0 ∨ shift % 6 = 2)) ∨
      (person = 1 ∧ (shift % 6 = 3 ∨ shift % 6 = 5)) ∨ (2 ≤ person ∧ shift % 3 = 1) then
    ⟨1, by decide⟩
  else ⟨0, by decide⟩

/-- The first run with four controllers starts from this roster, all others from empty
schedules. -/
def mixedDraws : TrialDraws := fun numControllers trial =>
  uniformDraws numControllers
    (if numControllers = 4 ∧ trial = 0 then pairRoster else fun _ _ => ⟨0, by decide⟩)

theorem succeeds_mixedDraws (numControllers trial : ℕ) :
    succeeds mixedDraws numControllers trial = true ↔
      fitness (parameters numControllers)
        (generateInitialRepresentation (parameters numControllers)
          (if numControllers = 4 ∧ trial = 0 then pairRoster else fun _ _ => ⟨0, by decide⟩)) =
        0 := by
  obtain ⟨result, hrun, hbest⟩ := bestFitness_uniform numControllers
    (if numControllers = 4 ∧ trial = 0 then pairRoster else fun _ _ => ⟨0, by decide⟩)
  rw [succeeds, mixedDraws, hrun, Option.any_some, isPerfect, decide_eq_true_eq, hbest,
    WithBot.coe_inj]

/-- Only the first run with four controllers succeeds. -/
theorem succeeds_mixedDraws_iff {numControllers : ℕ} (hnumber : numControllers ∈ List.range' 3 5)
    (trial : ℕ) :
    succeeds mixedDraws numControllers trial = true ↔ numControllers = 4 ∧ trial = 0 := by
  have hroster : fitness (parameters 4) (generateInitialRepresentation (parameters 4) pairRoster) =
      0 := by decide +kernel
  have hempty : ∀ n ∈ List.range' 3 5, fitness (parameters n)
      (generateInitialRepresentation (parameters n) fun _ _ => ⟨0, by decide⟩) ≠ 0 := by
    decide +kernel
  rw [succeeds_mixedDraws]
  by_cases hfirst : numControllers = 4 ∧ trial = 0
  · obtain ⟨rfl, rfl⟩ := hfirst
    simp [hroster]
  · rw [if_neg hfirst]
    exact iff_of_false (hempty numControllers hnumber) hfirst

theorem successes_mixedDraws_le {numControllers : ℕ} (hnumber : numControllers ∈ List.range' 3 5) :
    successes mixedDraws numControllers ≤ 1 := by
  have hle : successes mixedDraws numControllers ≤
      (List.range TOTAL_RUNS).countP fun trial => decide (trial = 0) := by
    refine List.countP_mono_left fun trial _ hsucceeds => ?_
    exact decide_eq_true ((succeeds_mixedDraws_iff hnumber trial).mp hsucceeds).2
  exact hle

/-- The one success with four controllers is not enough, and nothing is found. -/
theorem not_findsMinimum_mixedDraws : ¬ FindsMinimum mixedDraws := by
  rintro ⟨answer, hanswer, -, hnone⟩
  have hnumber : 4 ∈ List.range' 3 5 := by decide
  have hsearch : findMinimumControllers mixedDraws = some none := by
    rw [findMinimumControllers, findMinimumIn_eq, Option.some_inj, List.find?_eq_none]
    intro n hn hmany
    have hfew := successes_mixedDraws_le hn
    rw [decide_eq_true_eq] at hmany
    omega
  rw [hsearch, Option.some_inj] at hanswer
  have hfails := hnone hanswer.symm 4 (by decide) (by decide) 0 (by decide)
  rw [(succeeds_mixedDraws_iff hnumber 0).mpr ⟨rfl, rfl⟩] at hfails
  cases hfails

end OlinCourses.Genetic
