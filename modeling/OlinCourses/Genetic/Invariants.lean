import OlinCourses.Genetic.Evolution

/-!
# Invariants of the genetic algorithm

The shape of the populations, the histories and the recorded schedule, for all draws;
and when the recorded schedule is the best one that was ever bred.
-/
namespace OlinCourses.Genetic

variable {par : Parameters}

/-- The operators leave the schedules they are given unchanged. -/
structure ParentsUnchanged (par : Parameters) : Prop where
  crossover : ∀ (draws : ChildDraws par) heap parent1 parent2 heap' child,
    crossover par draws heap parent1 parent2 = some (heap', child) →
    ∀ schedule rows, load heap schedule = some rows → load heap' schedule = some rows
  mutate : ∀ (draws : ChildDraws par) heap schedule heap' child,
    mutate par draws heap schedule = some (heap', child) →
    ∀ schedule rows, load heap schedule = some rows → load heap' schedule = some rows

theorem parentsUnchanged (par : Parameters) : ParentsUnchanged par where
  crossover _ _ _ _ _ _ h _ _ hload := load_mono (prefix_crossover h) hload
  mutate _ _ _ _ _ h _ _ hload := load_mono (prefix_mutate h) hload

/-- What holds of the populations of a run and of its result. -/
structure Lawful (draws : Draws par) (generations : ℕ) (result : State) : Prop where
  population : ∀ g ≤ generations, ∃ s, geneticAlgorithm draws g = some s ∧
    s.population.length = par.populationSize ∧
    ∀ schedule ∈ s.population, ∃ rows, load s.heap schedule = some rows ∧
      load result.heap schedule = some rows ∧ Shaped par rows
  fitnessHistory : ∀ g < generations, ∃ s scores, geneticAlgorithm draws g = some s ∧
    fitnessScores par s.heap s.population = some scores ∧
    result.fitnessHistory[g]? = some scores.maximum
  lengths : result.fitnessHistory.length = generations ∧
    result.avgFitnessHistory.length = generations
  monotone : result.fitnessHistory.Pairwise (· ≤ ·)
  monotone_avg : result.avgFitnessHistory.Pairwise (· ≤ ·)
  best : ∃ schedule rows value, result.bestSchedule = some schedule ∧
    load result.heap schedule = some rows ∧ evaluateFitness par rows = some value ∧
    result.bestFitness = (value : WithBot ℤ) ∧
    result.fitnessHistory.getLast? = some (value : WithBot ℤ)

theorem pairwise_map_range {α : Type*} [Preorder α] {f : ℕ → α} (hf : Monotone f) (n : ℕ) :
    ((List.range n).map f).Pairwise (· ≤ ·) := by
  rw [List.pairwise_map]
  exact List.pairwise_lt_range.imp fun hlt => hf hlt.le

theorem Evolution.lawful {draws : Draws par} {states : ℕ → State}
    {values : ℕ → List (List Row)} (h : Evolution draws states values)
    (hweek : par.shiftsPerWeek ≤ SHIFTS_PER_WEEK) (n : ℕ) :
    Lawful draws (n + 1) (states (n + 1)) := by
  have hhistory := h.fitnessHistory_eq (n + 1)
  refine ⟨fun g hg => ⟨states g, h.run g, ?_, fun schedule hschedule => ?_⟩, fun g hg => ?_,
    ⟨?_, ?_⟩, ?_, ?_, ?_⟩
  · rw [(h.running g).population.length_eq, (h.running g).size]
  · obtain ⟨i, hi, rfl⟩ := List.getElem_of_mem hschedule
    obtain ⟨schedule, hget, hload, hshape⟩ := (h.running g).population.getElem?
      ((h.running g).population.length_eq ▸ hi)
    rw [List.getElem?_eq_getElem hi, Option.some_inj] at hget
    exact ⟨_, hget ▸ hload, load_mono (h.heap_mono hg) (hget ▸ hload), hshape⟩
  · refine ⟨states g, _, h.run g, (h.running g).population.fitnessScores_eq hweek, ?_⟩
    rw [hhistory, List.getElem?_map, List.getElem?_range hg]
    rfl
  · rw [hhistory, List.length_map, List.length_range]
  · rw [h.avgFitnessHistory_eq, List.length_map, List.length_range]
  · rw [hhistory]
    exact pairwise_map_range h.monotone_maxFitness (n + 1)
  · rw [h.avgFitnessHistory_eq]
    exact pairwise_map_range h.monotone_avgFitness (n + 1)
  · have hmax := h.bestFitness_succ n
    have hlast : (states (n + 1)).fitnessHistory.getLast? =
        some (states (n + 1)).bestFitness := by
      rw [hhistory, List.range_succ, List.map_append, List.map_singleton, List.getLast?_concat,
        hmax]
    obtain ⟨schedule, rows, hschedule, ⟨hload, hshape⟩, hvalue⟩ := h.exists_best n
    exact ⟨schedule, rows, fitness par rows, hschedule, hload, hshape.evaluateFitness_eq hweek,
      hvalue, hvalue ▸ hlast⟩

/-- For every sequence of draws the populations keep their shape and the parents their rows,
the histories do not decrease, and the recorded schedule has the recorded fitness. -/
theorem geneticAlgorithm_lawful (draws : Draws par) (hweek : par.shiftsPerWeek ≤ SHIFTS_PER_WEEK)
    {generations : ℕ} (hgenerations : 1 ≤ generations) :
    ParentsUnchanged par ∧ ∃ result, geneticAlgorithm draws generations = some result ∧
      Lawful draws generations result := by
  obtain ⟨n, rfl⟩ : ∃ n, generations = n + 1 := ⟨generations - 1, by omega⟩
  obtain ⟨states, values, h⟩ := exists_evolution draws hweek
  exact ⟨parentsUnchanged par, states (n + 1), h.run (n + 1), h.lawful hweek n⟩

/-- Three schedules of one person and two shifts. -/
def small : Parameters where
  populationSize := 3
  numPeople := 1
  shiftsPerWeek := 2
  shiftsPerDay := 3
  mutationRate := 1 / 2
  crossoverRate := 1 / 2

/-- Empty schedules at first; every child is a copy with the first shift flipped. -/
def smallDraws : Draws small where
  choice _ _ _ := 0
  generation _ :=
    { tournament := fun _ => Function.Embedding.refl (Fin 3)
      child := fun _ =>
        { mate := ⟨0, by decide⟩
          crossoverRoll := 1
          crossoverPoint := fun _ => ⟨1, by decide⟩
          mutationRoll := fun _ shift => shift } }

theorem geneticAlgorithm_lawful_small :
    ∃ result, geneticAlgorithm smallDraws 2 = some result ∧ Lawful smallDraws 2 result :=
  (geneticAlgorithm_lawful smallDraws (by decide) (by decide)).2

/-- The rows of a schedule that was in a population or among the offspring. -/
def WasCandidate (draws : Draws par) (generations : ℕ) (rows : List Row) : Prop :=
  (∃ g ≤ generations, ∃ s, geneticAlgorithm draws g = some s ∧
    ∃ schedule ∈ s.population, load s.heap schedule = some rows) ∨
  ∃ g < generations, ∃ s heap offspring, geneticAlgorithm draws g = some s ∧
    offspringOf (draws.generation g) s = some (heap, offspring) ∧
    ∃ schedule ∈ offspring, load heap schedule = some rows

def ReportsBest (draws : Draws par) (generations : ℕ) : Prop :=
  ∀ result, geneticAlgorithm draws generations = some result →
    ∀ rows, WasCandidate draws generations rows →
      ∀ value : ℤ, evaluateFitness par rows = some value → value ≤ result.bestFitness

/-- No child that the draws of generation `g` breed from its population is fitter than the
fittest of the population. -/
def BreedsNoFitter (draws : Draws par) (g : ℕ) : Prop :=
  ∀ s values, geneticAlgorithm draws g = some s → IsPopulation par s.heap s.population values →
    ∀ child ∈ offspringRows (draws.generation g) values,
      ∀ value : ℤ, evaluateFitness par child = some value → value ≤ maxFitness par values

/-- The candidates of a run are the rows of its populations and of their offspring. -/
theorem Evolution.wasCandidate_iff {draws : Draws par} {states : ℕ → State}
    {values : ℕ → List (List Row)} (h : Evolution draws states values) {n : ℕ} {rows : List Row} :
    WasCandidate draws n rows ↔ (∃ g ≤ n, rows ∈ values g) ∨
      ∃ g < n, rows ∈ offspringRows (draws.generation g) (values g) := by
  constructor
  · rintro (⟨g, hg, s, hs, schedule, hschedule, hload⟩ |
      ⟨g, hg, s, heap, offspring, hs, hoffspring, schedule, hschedule, hload⟩)
    all_goals obtain rfl : states g = s := Option.some_inj.mp ((h.run g).symm.trans hs)
    · exact Or.inl ⟨g, hg, (h.running g).population.mem_of_load hschedule hload⟩
    · obtain ⟨heap', offspring', hoffspring', hvalues⟩ := (h.evolves g).offspring
      obtain ⟨rfl, rfl⟩ : heap = heap' ∧ offspring = offspring' := by
        rw [hoffspring, Option.some_inj, Prod.mk.injEq] at hoffspring'
        exact hoffspring'
      exact Or.inr ⟨g, hg, hvalues.mem_of_load hschedule hload⟩
  · rintro (⟨g, hg, hrows⟩ | ⟨g, hg, hrows⟩)
    · obtain ⟨schedule, hschedule, hload, -⟩ := (h.running g).population.exists_of_mem hrows
      exact Or.inl ⟨g, hg, states g, h.run g, schedule, hschedule, hload⟩
    · obtain ⟨heap, offspring, hoffspring, hvalues⟩ := (h.evolves g).offspring
      obtain ⟨schedule, hschedule, hload, -⟩ := hvalues.exists_of_mem hrows
      exact Or.inr ⟨g, hg, states g, heap, offspring, h.run g, hoffspring, schedule, hschedule,
        hload⟩

theorem Evolution.reportsBest_iff_breedsNoFitter {draws : Draws par} {states : ℕ → State}
    {values : ℕ → List (List Row)} (h : Evolution draws states values)
    (hweek : par.shiftsPerWeek ≤ SHIFTS_PER_WEEK) (n : ℕ) :
    ReportsBest draws (n + 1) ↔ BreedsNoFitter draws n := by
  constructor
  · intro hreports s values' hrun hpopulation child hchild value hvalue
    obtain rfl : states n = s := Option.some_inj.mp ((h.run n).symm.trans hrun)
    obtain rfl := hpopulation.unique (h.running n).population
    have hcandidate := h.wasCandidate_iff.mpr (Or.inr ⟨n, Nat.lt_succ_self n, hchild⟩)
    have hle := hreports (states (n + 1)) (h.run (n + 1)) child hcandidate value hvalue
    rwa [h.bestFitness_succ] at hle
  · intro hbreeds result hrun rows hcandidate value hvalue
    obtain rfl : states (n + 1) = result := Option.some_inj.mp ((h.run (n + 1)).symm.trans hrun)
    obtain rfl : fitness par rows = value := by rw [fitness, hvalue, Option.getD_some]
    rw [h.bestFitness_succ]
    -- The last population with its offspring: only here are the draws restricted.
    have hlast : ∀ x ∈ (values n ++ offspringRows (draws.generation n) (values n)).map
        (fitness par), (x : WithBot ℤ) ≤ maxFitness par (values n) := by
      intro x hx
      obtain ⟨rows', hrows', rfl⟩ := List.mem_map.mp hx
      obtain hold | hnew := List.mem_append.mp hrows'
      · exact List.le_maximum_of_mem' (List.mem_map_of_mem hold)
      · obtain ⟨heap, offspring, -, hvalues⟩ := (h.evolves n).offspring
        obtain ⟨schedule, -, -, hshape⟩ := hvalues.exists_of_mem hnew
        exact hbreeds (states n) (values n) (h.run n) (h.running n).population rows' hnew _
          (hshape.evaluateFitness_eq hweek)
    obtain ⟨g, hg, hrows⟩ | ⟨g, hg, hrows⟩ := h.wasCandidate_iff.mp hcandidate
    · obtain rfl | hlt := hg.eq_or_lt
      · exact hlast _ ((h.evolves n).survivors.subset (List.mem_map_of_mem hrows))
      · exact (List.le_maximum_of_mem' (List.mem_map_of_mem hrows)).trans
          (h.monotone_maxFitness (Nat.lt_succ_iff.mp hlt))
    · have hbred := List.mem_append_right (values g) hrows
      obtain rfl | hlt := (Nat.lt_succ_iff.mp hg).eq_or_lt
      · exact hlast _ (List.mem_map_of_mem hbred)
      · exact (h.le_maxFitness_succ hbred).trans (h.monotone_maxFitness hlt)

/-- The reported fitness covers every schedule of the run exactly when the last generation,
whose offspring are never recorded, breeds nothing fitter than the population it starts from. -/
theorem reportsBest_iff (draws : Draws par) (n : ℕ) :
    ReportsBest draws (n + 1) ↔ BreedsNoFitter draws n := by
  by_cases hweek : par.shiftsPerWeek ≤ SHIFTS_PER_WEEK
  · obtain ⟨states, values, h⟩ := exists_evolution draws hweek
    exact h.reportsBest_iff_breedsNoFitter hweek n
  · have hnone := evaluateFitness_eq_none (not_le.mp hweek)
    constructor
    · intro _ s values _ _ child _ value hvalue
      rw [hnone] at hvalue
      cases hvalue
    · intro _ result _ rows _ value hvalue
      rw [hnone] at hvalue
      cases hvalue

/-- The children of the only generation have one shift staffed, their parents none. -/
theorem not_reportsBest_small : ¬ ReportsBest smallDraws 1 := by
  intro h
  obtain ⟨result, hrun, hbest⟩ : ∃ result, geneticAlgorithm smallDraws 1 = some result ∧
      result.bestFitness = ((-6 : ℤ) : WithBot ℤ) := by
    rw [← Option.map_eq_some_iff]
    decide +kernel
  have hoffspring : offspringOf (smallDraws.generation 0) (start smallDraws) =
      some ([[0, 0], [0, 0], [0, 0], [0, 0], [0, 0], [1, 0], [0, 0], [1, 0], [0, 0], [1, 0]],
        [[5], [7], [9]]) := by decide +kernel
  have hle := h result hrun [[1, 0]] (Or.inr ⟨0, by decide, start smallDraws, _, _, rfl,
    hoffspring, [5], List.mem_cons_self, rfl⟩) (-4) (by decide +kernel)
  rw [hbest] at hle
  exact absurd hle (by decide)

end OlinCourses.Genetic
