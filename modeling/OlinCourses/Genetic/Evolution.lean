import OlinCourses.Genetic.Population

/-!
# Evolution

A run of the genetic algorithm as a sequence of states with the rows of their
populations, what one generation does to them, and how the fitness develops.
-/
namespace OlinCourses.Genetic
open Loop Transition Truncation

variable {par : Parameters}

noncomputable def maxFitness (par : Parameters) (values : List (List Row)) : WithBot ℤ :=
  (values.map (fitness par)).maximum

def avgFitness (par : Parameters) (values : List (List Row)) : ℚ :=
  ((values.map (fitness par)).sum : ℤ) / values.length

/-- A state between two rounds of the loop, whose population has these rows. -/
structure Running (par : Parameters) (s : State) (values : List (List Row)) : Prop where
  population : IsPopulation par s.heap s.population values
  size : values.length = par.populationSize
  best : s.bestFitness = ⊥ ∨ ∃ schedule rows, s.bestSchedule = some schedule ∧
    IsSchedule par s.heap schedule rows ∧ s.bestFitness = fitness par rows

/-- A tournament needs three schedules. -/
theorem populationSize_pos (draws : GenerationDraws par) : 0 < par.populationSize := by
  have hcard := Fintype.card_le_of_embedding (draws.tournament 0)
  rw [Fintype.card_fin, Fintype.card_fin] at hcard
  omega

theorem exceeds_iff {value : ℤ} {best : WithBot ℤ} : exceeds value best = true ↔ best < value := by
  cases best with
  | bot => simp [exceeds]
  | coe best => simp [exceeds]

theorem exists_idxOf? {scores : List ℤ} {m : ℤ} (h : m ∈ scores) :
    ∃ i, scores.idxOf? m = some i ∧ scores[i]? = some m := by
  induction scores with
  | nil => cases h
  | cons x scores ih =>
    rw [List.idxOf?_cons]
    by_cases hx : x = m
    · exact ⟨0, by simp [hx], by simp [hx]⟩
    · obtain ⟨i, hidx, hget⟩ := ih ((List.mem_cons.mp h).resolve_left (Ne.symm hx))
      exact ⟨i + 1, by simp [hx, hidx], by simpa using hget⟩

/-- The maximum of the scores and its first index. -/
theorem exists_max {scores : List ℤ} (h : scores ≠ []) :
    ∃ m i, scores.max? = some m ∧ scores.maximum = m ∧ scores.idxOf? m = some i ∧
      scores[i]? = some m := by
  obtain ⟨m, hm⟩ := Option.ne_none_iff_exists'.mp (mt List.max?_eq_none_iff.mp h)
  have hspec := List.max?_eq_some_iff.mp hm
  obtain ⟨i, hidx, hget⟩ := exists_idxOf? hspec.1
  exact ⟨m, i, hm, List.maximum_eq_coe_iff.mpr hspec, hidx, hget⟩

theorem recordBest_spec {s : State} {values : List (List Row)} (h : Running par s values)
    {i : ℕ} (hi : i < values.length) :
    ∃ s', recordBest s i (fitness par (values.getD i [])) = some s' ∧ Running par s' values ∧
      s.heap <+: s'.heap ∧ s'.bestFitness = max s.bestFitness (fitness par (values.getD i [])) ∧
      s'.fitnessHistory = s.fitnessHistory ∧ s'.avgFitnessHistory = s.avgFitnessHistory := by
  obtain ⟨schedule, hschedule, hload, hshape⟩ := h.population.getElem? hi
  rw [recordBest]
  by_cases hexceeds : exceeds (fitness par (values.getD i [])) s.bestFitness = true
  · have hgrow := prefix_store s.heap (values.getD i [])
    refine ⟨{ s with
      heap := (store s.heap (values.getD i [])).1
      bestSchedule := some (store s.heap (values.getD i [])).2
      bestFitness := fitness par (values.getD i []) }, ?_, ⟨h.population.mono hgrow, h.size,
        Or.inr ⟨_, _, rfl, isSchedule_store s.heap hshape, rfl⟩⟩, hgrow, ?_, rfl, rfl⟩
    · simp only [hexceeds, if_true, hschedule, hload, Option.bind_eq_bind, Option.bind_some,
        Option.pure_def]
    · exact (max_eq_right (exceeds_iff.mp hexceeds).le).symm
  · refine ⟨s, by simp only [hexceeds, Bool.false_eq_true, if_false], h, List.prefix_rfl, ?_, rfl,
      rfl⟩
    exact (max_eq_left (not_lt.mp fun hlt => hexceeds (exceeds_iff.mpr hlt))).symm

theorem record_spec (hweek : par.shiftsPerWeek ≤ SHIFTS_PER_WEEK) (hpos : 0 < par.populationSize)
    {s : State} {values : List (List Row)} (h : Running par s values) :
    ∃ s', record par s = some (s', values.map (fitness par)) ∧ Running par s' values ∧
      s.heap <+: s'.heap ∧ s'.bestFitness = max s.bestFitness (maxFitness par values) ∧
      s'.fitnessHistory = s.fitnessHistory ++ [s'.bestFitness] ∧
      s'.avgFitnessHistory = s.avgFitnessHistory ++ [avgFitness par values] := by
  have hscores := h.population.fitnessScores_eq hweek
  have hne : values.map (fitness par) ≠ [] := by
    intro hnil
    have hlength := congrArg List.length hnil
    rw [List.length_map, h.size, List.length_nil] at hlength
    omega
  obtain ⟨m, i, hmax, hmaximum, hidx, hget⟩ := exists_max hne
  have hlt : i < values.length := by
    obtain ⟨hi, -⟩ := List.getElem?_eq_some_iff.mp hget
    rwa [List.length_map] at hi
  have hfitness : fitness par (values.getD i []) = m := by
    rw [List.getElem?_map, List.getElem?_eq_getElem hlt, Option.map_some, Option.some_inj] at hget
    rw [List.getD_eq_getElem?_getD, List.getElem?_eq_getElem hlt, Option.getD_some, hget]
  obtain ⟨s', hrecord, hrunning, hheap, hbest, hhistory, havg⟩ := recordBest_spec h hlt
  rw [hfitness] at hrecord hbest
  refine ⟨{ s' with
    fitnessHistory := s'.fitnessHistory ++ [s'.bestFitness]
    avgFitnessHistory := s'.avgFitnessHistory ++ [avgFitness par values] }, ?_,
    ⟨hrunning.population, hrunning.size, hrunning.best⟩, hheap, ?_, by rw [hhistory], by rw [havg]⟩
  · simp only [record, hscores, hmax, hidx, hget, hrecord, avgFitness, List.length_map,
      Option.bind_eq_bind, Option.bind_some, Option.pure_def]
  · rw [maxFitness, hmaximum, ← hbest]

/-- The schedules bred in the round that starts from a state. -/
def offspringOf (draws : GenerationDraws par) (s : State) : Option (Heap × List Schedule) := do
  let (s, scores) ← record par s
  reproduce draws s.heap s.population scores

/-- What a generation does to a state and its population's rows. -/
structure Evolves (draws : GenerationDraws par) (s : State) (values : List (List Row))
    (s' : State) (values' : List (List Row)) : Prop where
  step : generation draws s = some s'
  heap : s.heap <+: s'.heap
  bestFitness : s'.bestFitness = max s.bestFitness (maxFitness par values)
  fitnessHistory : s'.fitnessHistory = s.fitnessHistory ++ [s'.bestFitness]
  avgFitnessHistory : s'.avgFitnessHistory = s.avgFitnessHistory ++ [avgFitness par values]
  offspring : ∃ heap offspring, offspringOf draws s = some (heap, offspring) ∧
    IsPopulation par heap offspring (offspringRows draws values)
  survivors : IsTop par.populationSize ((values ++ offspringRows draws values).map (fitness par))
    (values'.map (fitness par))

theorem generation_spec (draws : GenerationDraws par)
    (hweek : par.shiftsPerWeek ≤ SHIFTS_PER_WEEK) {s : State} {values : List (List Row)}
    (h : Running par s values) :
    ∃ s' values', Running par s' values' ∧ Evolves draws s values s' values' := by
  obtain ⟨s₁, hrecord, h₁, hheap₁, hbest, hhistory, havg⟩ :=
    record_spec hweek (populationSize_pos draws) h
  obtain ⟨heap₂, offspring, hreproduce, hheap₂, hoffspring⟩ :=
    reproduce_spec draws h₁.population h₁.size
  obtain ⟨survivors, values', hselect, hsurvivors, htop⟩ :=
    selectSurvivors_spec hweek (h₁.population.mono hheap₂) hoffspring h₁.size
  have hsize : values'.length = par.populationSize := by
    rw [← htop.1, List.length_map]
  refine ⟨{ s₁ with heap := heap₂, population := survivors }, values',
    ⟨hsurvivors, hsize, h₁.best.imp_right ?_⟩, ?_⟩
  · rintro ⟨schedule, rows, hschedule, hrows, hfitness⟩
    exact ⟨schedule, rows, hschedule, hrows.mono hheap₂, hfitness⟩
  · refine ⟨?_, hheap₁.trans hheap₂, hbest, hhistory, havg, ⟨heap₂, offspring, ?_, hoffspring⟩,
      htop⟩
    · simp only [generation, hrecord, hreproduce, hselect, Option.bind_eq_bind, Option.bind_some,
        Option.pure_def]
    · simp only [offspringOf, hrecord, hreproduce, Option.bind_eq_bind, Option.bind_some]

/-- The next population is made of the old one and its offspring. -/
theorem generation_subset {draws : GenerationDraws par}
    (hweek : par.shiftsPerWeek ≤ SHIFTS_PER_WEEK) {s s' : State}
    {values values' : List (List Row)} (h : Running par s values) (h' : Running par s' values')
    (hstep : generation draws s = some s') {rows : List Row} (hrows : rows ∈ values') :
    rows ∈ values ++ offspringRows draws values := by
  obtain ⟨s₁, hrecord, h₁, -⟩ := record_spec hweek (populationSize_pos draws) h
  obtain ⟨heap₂, offspring, hreproduce, hheap₂, hoffspring⟩ :=
    reproduce_spec draws h₁.population h₁.size
  simp only [generation, hrecord, hreproduce, Option.bind_eq_bind, Option.bind_some,
    Option.pure_def, Option.bind_eq_some_iff, Option.some_inj] at hstep
  obtain ⟨survivors, hselect, rfl⟩ := hstep
  obtain ⟨schedule, hschedule, hload, -⟩ := h'.population.exists_of_mem hrows
  exact ((h₁.population.mono hheap₂).append hoffspring).mem_of_load
    (selectSurvivors_subset hselect hschedule) hload

section Survivors

variable {values children values' : List (List Row)}
  (h : IsTop par.populationSize ((values ++ children).map (fitness par))
    (values'.map (fitness par)))
include h

theorem le_maxFitness_of_isTop (hpos : 0 < par.populationSize) {rows : List Row}
    (hrows : rows ∈ values ++ children) :
    (fitness par rows : WithBot ℤ) ≤ maxFitness par values' := by
  obtain ⟨y, hy, hle⟩ := h.exists_ge hpos (List.mem_map_of_mem hrows)
  exact (WithBot.coe_le_coe.mpr hle).trans (List.le_maximum_of_mem' hy)

theorem maxFitness_le_of_isTop (hpos : 0 < par.populationSize) :
    maxFitness par values ≤ maxFitness par values' := by
  refine List.maximum_le_of_forall_le fun x hx => ?_
  obtain ⟨rows, hrows, rfl⟩ := List.mem_map.mp hx
  exact le_maxFitness_of_isTop h hpos (List.mem_append_left _ hrows)

theorem avgFitness_le_of_isTop (hvalues : values.length = par.populationSize)
    (hvalues' : values'.length = par.populationSize) :
    avgFitness par values ≤ avgFitness par values' := by
  have hsum : (values.map (fitness par)).sum ≤ (values'.map (fitness par)).sum := by
    refine h.sum_le ?_ (by rw [List.length_map, hvalues])
    rw [List.map_append]
    exact (List.sublist_append_left _ _).subperm
  rw [avgFitness, avgFitness, hvalues, hvalues']
  exact div_le_div_of_nonneg_right (by exact_mod_cast hsum) (Nat.cast_nonneg _)

end Survivors

/-- The states of a run, before each generation, and the rows of their populations. -/
structure Evolution (draws : Draws par) (states : ℕ → State) (values : ℕ → List (List Row)) :
    Prop where
  run : ∀ g, geneticAlgorithm draws g = some (states g)
  start : states 0 = start draws
  running : ∀ g, Running par (states g) (values g)
  evolves : ∀ g, Evolves (draws.generation g) (states g) (values g) (states (g + 1))
    (values (g + 1))

theorem exists_evolution (draws : Draws par) (hweek : par.shiftsPerWeek ≤ SHIFTS_PER_WEEK) :
    ∃ states values, Evolution draws states values := by
  have hfirst := generatePopulation_spec par draws.choice par.populationSize
  have hstart : Running par (start draws) _ := ⟨hfirst, by simp, Or.inl rfl⟩
  obtain ⟨f, hzero, hf⟩ := exists_infinite_run
    (fun x : State × List (List Row) => Running par x.1 x.2)
    (fun g x x' => Evolves (draws.generation g) x.1 x.2 x'.1 x'.2)
    (s := (start draws, _)) hstart fun g x hx => by
      obtain ⟨s', values', hrunning, hevolves⟩ := generation_spec (draws.generation g) hweek hx
      exact ⟨(s', values'), hrunning, hevolves⟩
  have hrun : ∀ g, geneticAlgorithm draws g = some (f g).1 := by
    intro g
    induction g with
    | zero => rw [hzero]; rfl
    | succ g ih =>
      rw [geneticAlgorithm] at ih ⊢
      rw [List.range_succ, List.foldlM_append, ih, Option.bind_eq_bind, Option.bind_some,
        List.foldlM_cons, (hf g).2.step]
      rfl
  exact ⟨fun g => (f g).1, fun g => (f g).2, hrun, by rw [hzero], fun g => (hf g).1,
    fun g => (hf g).2⟩

namespace Evolution

variable {draws : Draws par} {states : ℕ → State} {values : ℕ → List (List Row)}
  (h : Evolution draws states values)
include h

theorem heap_mono {g g' : ℕ} (hle : g ≤ g') : (states g).heap <+: (states g').heap := by
  induction g', hle using Nat.le_induction with
  | base => exact List.prefix_rfl
  | succ g' _ ih => exact ih.trans (h.evolves g').heap

/-- What was bred or in the population does not exceed the next population's maximum. -/
theorem le_maxFitness_succ {g : ℕ} {rows : List Row}
    (hrows : rows ∈ values g ++ offspringRows (draws.generation g) (values g)) :
    (fitness par rows : WithBot ℤ) ≤ maxFitness par (values (g + 1)) :=
  le_maxFitness_of_isTop (h.evolves g).survivors (populationSize_pos (draws.generation g)) hrows

theorem monotone_maxFitness : Monotone fun g => maxFitness par (values g) :=
  monotone_nat_of_le_succ fun g =>
    maxFitness_le_of_isTop (h.evolves g).survivors (populationSize_pos (draws.generation g))

theorem monotone_avgFitness : Monotone fun g => avgFitness par (values g) :=
  monotone_nat_of_le_succ fun g => avgFitness_le_of_isTop (h.evolves g).survivors
    (h.running g).size (h.running (g + 1)).size

/-- The best fitness is that of the population evaluated last. -/
theorem bestFitness_succ (g : ℕ) : (states (g + 1)).bestFitness = maxFitness par (values g) := by
  induction g with
  | zero =>
    rw [(h.evolves 0).bestFitness, h.start]
    exact max_eq_right bot_le
  | succ g ih =>
    rw [(h.evolves (g + 1)).bestFitness, ih]
    exact max_eq_right (h.monotone_maxFitness (Nat.le_succ g))

/-- After a generation there is a best schedule, and the best fitness is its fitness. -/
theorem exists_best (n : ℕ) : ∃ schedule rows, (states (n + 1)).bestSchedule = some schedule ∧
    IsSchedule par (states (n + 1)).heap schedule rows ∧
    (states (n + 1)).bestFitness = fitness par rows := by
  obtain hbot | hbest := (h.running (n + 1)).best
  · have hpos : 0 < ((values n).map (fitness par)).length := by
      rw [List.length_map, (h.running n).size]
      exact populationSize_pos (draws.generation n)
    rw [h.bestFitness_succ] at hbot
    exact absurd hbot (List.maximum_ne_bot_of_length_pos hpos)
  · exact hbest

theorem values_zero : values 0 = (List.range par.populationSize).map fun i =>
    generateInitialRepresentation par (draws.choice i) := by
  have hpopulation := (h.running 0).population
  rw [h.start] at hpopulation
  exact hpopulation.unique (generatePopulation_spec par draws.choice par.populationSize)

/-- What holds of the first schedules and is inherited by offspring holds of all schedules. -/
theorem forall_mem_values (hweek : par.shiftsPerWeek ≤ SHIFTS_PER_WEEK) {P : List Row → Prop}
    (hfirst : ∀ i, P (generateInitialRepresentation par (draws.choice i)))
    (hbreed : ∀ g parents, parents.length = par.populationSize → (∀ rows ∈ parents, P rows) →
      ∀ child ∈ offspringRows (draws.generation g) parents, P child) (g : ℕ) :
    ∀ rows ∈ values g, P rows := by
  induction g with
  | zero =>
    intro rows hrows
    rw [h.values_zero] at hrows
    obtain ⟨i, -, rfl⟩ := List.mem_map.mp hrows
    exact hfirst i
  | succ g ih =>
    intro rows hrows
    have hmem := generation_subset hweek (h.running g) (h.running (g + 1)) (h.evolves g).step hrows
    obtain hold | hnew := List.mem_append.mp hmem
    · exact ih rows hold
    · exact hbreed g _ (h.running g).size ih rows hnew

theorem fitnessHistory_eq (n : ℕ) :
    (states n).fitnessHistory = (List.range n).map fun g => maxFitness par (values g) := by
  induction n with
  | zero => rw [h.start]; rfl
  | succ n ih =>
    rw [(h.evolves n).fitnessHistory, ih, h.bestFitness_succ, List.range_succ, List.map_append,
      List.map_singleton]

theorem avgFitnessHistory_eq (n : ℕ) :
    (states n).avgFitnessHistory = (List.range n).map fun g => avgFitness par (values g) := by
  induction n with
  | zero => rw [h.start]; rfl
  | succ n ih =>
    rw [(h.evolves n).avgFitnessHistory, ih, List.range_succ, List.map_append,
      List.map_singleton]

end Evolution

end OlinCourses.Genetic
