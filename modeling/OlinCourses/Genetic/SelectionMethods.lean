import OlinCourses.Genetic.Invariants
import OlinCourses.Genetic.Roulette

/-!
# The genetic algorithm with a selection method

`genetic_algorithm_with_selection_method` of the scheduling notebook with the notebook's
three methods, in exact arithmetic. With tournaments it is `genetic_algorithm`.
-/
namespace OlinCourses.Genetic
open Loop Pointers Truncation

/-- The outcomes of `random.random()`. -/
abbrev Chance := {x : ℚ // 0 ≤ x ∧ x < 1}

/-- A selection method with its draws. -/
inductive SelectionMethod (par : Parameters)
  | parentSelection (tournament : ℕ → Fin 3 ↪ Fin par.populationSize)
  | rouletteWheelSelection (pick : ℕ → Chance)
  | stochasticUniversalSampling (random : Chance)

variable {par : Parameters}

/-- `selection_method(population, fitness_scores)`. -/
def SelectionMethod.select (population : List Schedule) (fitnessScores : List ℤ) :
    SelectionMethod par → Option (List Schedule)
  | parentSelection tournament => Genetic.parentSelection par population fitnessScores tournament
  | rouletteWheelSelection pick =>
    Genetic.rouletteWheelSelection population fitnessScores fun i => pick i
  | stochasticUniversalSampling random =>
    Genetic.stochasticUniversalSampling population fitnessScores random

def generationWith (method : SelectionMethod par) (child : ℕ → ChildDraws par) (s : State) :
    Option State := do
  let (s, scores) ← record par s
  let parents ← method.select s.population scores
  let (heap, offspring) ← breed child s.heap parents
  let population ← selectSurvivors par heap s.population offspring
  return { s with heap, population }

variable {heap : Heap} {population offspring parents : List Schedule}
  {values children parentValues : List (List Row)}

theorem IsPopulation.of_indices (h : IsPopulation par heap population values) {indices : List ℕ}
    (hparents : indices.mapM (fun j => population[j]?) = some parents) :
    IsPopulation par heap parents (indices.map fun j => values.getD j []) := by
  rw [IsPopulation, List.forall₂_map_right_iff]
  refine (mapM_eq_some_iff.mp hparents).flip.imp fun parent j hparent => ?_
  obtain ⟨hj, -⟩ := List.getElem?_eq_some_iff.mp hparent
  obtain ⟨schedule, hget, hschedule⟩ := h.getElem? (h.length_eq ▸ hj)
  rw [hparent, Option.some_inj] at hget
  exact hget ▸ hschedule

/-- Every method selects as many parents as there are schedules. -/
theorem SelectionMethod.select_spec (method : SelectionMethod par) (child : ℕ → ChildDraws par)
    (h : IsPopulation par heap population values) (hlength : values.length = par.populationSize) :
    ∃ parents parentValues, method.select population (values.map (fitness par)) = some parents ∧
      IsPopulation par heap parents parentValues ∧
        parentValues.length = par.populationSize := by
  have hpos : 0 < par.populationSize := Nat.zero_lt_of_lt (child 0).mate.isLt
  have hscores : (values.map (fitness par)).length = population.length := by
    rw [List.length_map, h.length_eq]
  have hne : values.map (fitness par) ≠ [] := by
    rw [← List.length_pos_iff, List.length_map, hlength]
    exact hpos
  have hwheel : ∀ pick : ℕ → ℚ, (∀ i < (values.map (fitness par)).length, pick i < 1) →
      ∃ parents parentValues,
        Genetic.rouletteWheelSelection population (values.map (fitness par)) pick =
          some parents ∧ IsPopulation par heap parents parentValues ∧
            parentValues.length = par.populationSize := by
    intro pick hpick
    obtain ⟨parents, hparents⟩ := mapM_stops hscores hpick
    refine ⟨parents, _, (rouletteWheelSelection_eq hne hscores hpick).trans hparents,
      h.of_indices hparents, ?_⟩
    rw [List.length_map, stops, List.length_map, List.length_range, List.length_map, hlength]
  cases method with
  | parentSelection tournament =>
    obtain ⟨parents, hselect, hparents⟩ := parentSelection_spec ⟨tournament, child⟩ h hlength
    exact ⟨parents, _, hselect, hparents, by simp⟩
  | rouletteWheelSelection pick => exact hwheel _ fun i _ => (pick i).2.2
  | stochasticUniversalSampling random =>
    rw [select, stochasticUniversalSampling_eq_roulette hne hscores random.2.2]
    exact hwheel _ fun i hi => pointer_lt_one random.2.2 (hscores ▸ hi)

/-- A generation keeps the fittest of the population and of some offspring. -/
theorem generationWith_spec (method : SelectionMethod par) (child : ℕ → ChildDraws par)
    (hweek : par.shiftsPerWeek ≤ SHIFTS_PER_WEEK) {s : State} (h : Running par s values) :
    ∃ s' values' children, generationWith method child s = some s' ∧ Running par s' values' ∧
      s'.bestFitness = max s.bestFitness (maxFitness par values) ∧
      s'.fitnessHistory = s.fitnessHistory ++ [s'.bestFitness] ∧
      s'.avgFitnessHistory = s.avgFitnessHistory ++ [avgFitness par values] ∧
      IsTop par.populationSize ((values ++ children).map (fitness par))
        (values'.map (fitness par)) := by
  have hpos : 0 < par.populationSize := Nat.zero_lt_of_lt (child 0).mate.isLt
  obtain ⟨s₁, hrecord, h₁, -, hbest, hhistory, havg⟩ := record_spec hweek hpos h
  obtain ⟨parents, parentValues, hselect, hparents, hlength⟩ :=
    method.select_spec child h₁.population h₁.size
  obtain ⟨heap₂, offspring, hbreed, hheap₂, hoffspring⟩ := breed_spec child hparents hlength
  obtain ⟨survivors, values', hsurvive, hsurvivors, htop⟩ :=
    selectSurvivors_spec hweek (h₁.population.mono hheap₂) hoffspring h₁.size
  have hsize : values'.length = par.populationSize := by
    rw [← htop.1, List.length_map]
  refine ⟨{ s₁ with heap := heap₂, population := survivors }, values', _, ?_,
    ⟨hsurvivors, hsize, h₁.best.imp_right ?_⟩, hbest, hhistory, havg, htop⟩
  · simp only [generationWith, hrecord, hselect, hbreed, hsurvive, Option.bind_eq_bind,
      Option.bind_some, Option.pure_def]
  · rintro ⟨schedule, rows, hschedule, hrows, hfitness⟩
    exact ⟨schedule, rows, hschedule, hrows.mono hheap₂, hfitness⟩

/-- The state after `g` generations: the histories ascend to the fitness of the population. -/
structure Ascended (par : Parameters) (g : ℕ) (s : State) (values : List (List Row)) : Prop
    extends Running par s values where
  length : s.fitnessHistory.length = g
  length_avg : s.avgFitnessHistory.length = g
  ascending : s.fitnessHistory.Pairwise (· ≤ ·)
  ascending_avg : s.avgFitnessHistory.Pairwise (· ≤ ·)
  history_le : ∀ x ∈ s.fitnessHistory, x ≤ s.bestFitness
  avg_le : ∀ x ∈ s.avgFitnessHistory, x ≤ avgFitness par values
  best_le : s.bestFitness ≤ maxFitness par values
  last : 0 < g → s.fitnessHistory.getLast? = some s.bestFitness ∧ s.bestFitness ≠ ⊥

theorem Ascended.step {g : ℕ} {s : State} (h : Ascended par g s values)
    (hweek : par.shiftsPerWeek ≤ SHIFTS_PER_WEEK) (method : SelectionMethod par)
    (child : ℕ → ChildDraws par) :
    ∃ s' values', generationWith method child s = some s' ∧ Ascended par (g + 1) s' values' := by
  have hpos : 0 < par.populationSize := Nat.zero_lt_of_lt (child 0).mate.isLt
  obtain ⟨s', values', children, hstep, hrunning, hbest, hhistory, havg, htop⟩ :=
    generationWith_spec method child hweek h.toRunning
  rw [max_eq_right h.best_le] at hbest
  have hle : ∀ x ∈ s.fitnessHistory, x ≤ s'.bestFitness := fun x hx =>
    hbest ▸ (h.history_le x hx).trans h.best_le
  have hmono := avgFitness_le_of_isTop htop h.size hrunning.size
  have hne : s'.bestFitness ≠ ⊥ := by
    rw [hbest]
    refine List.maximum_ne_bot_of_length_pos ?_
    rw [List.length_map, h.size]
    exact hpos
  refine ⟨s', values', hstep, hrunning, ?_, ?_, ?_, ?_, ?_, ?_, ?_, fun _ => ⟨?_, hne⟩⟩
  · rw [hhistory, List.length_append, h.length, List.length_singleton]
  · rw [havg, List.length_append, h.length_avg, List.length_singleton]
  · rw [hhistory, List.pairwise_append]
    refine ⟨h.ascending, List.pairwise_singleton _ _, fun x hx y hy => ?_⟩
    rw [List.mem_singleton.mp hy]
    exact hle x hx
  · rw [havg, List.pairwise_append]
    refine ⟨h.ascending_avg, List.pairwise_singleton _ _, fun x hx y hy => ?_⟩
    rw [List.mem_singleton.mp hy]
    exact h.avg_le x hx
  · rw [hhistory]
    intro x hx
    obtain hold | hnew := List.mem_append.mp hx
    · exact hle x hold
    · exact (List.mem_singleton.mp hnew).le
  · rw [havg]
    intro x hx
    obtain hold | hnew := List.mem_append.mp hx
    · exact (h.avg_le x hold).trans hmono
    · exact (List.mem_singleton.mp hnew).trans_le hmono
  · rw [hbest]
    exact maxFitness_le_of_isTop htop hpos
  · rw [hhistory, List.getLast?_concat]

end OlinCourses.Genetic
