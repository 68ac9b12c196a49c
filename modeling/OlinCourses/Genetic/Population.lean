import OlinCourses.Genetic.Algorithm

/-!
# Populations and their values

A population on the heap stands for the rows of its schedules. Each part of a
generation succeeds, extends the heap, and computes on these rows what it would
without sharing.
-/
namespace OlinCourses.Genetic
open Loop Truncation

variable {par : Parameters}

/-- The fitness of rows of the right shape. -/
def fitness (par : Parameters) (rows : List Row) : ℤ := (evaluateFitness par rows).getD 0

theorem Shaped.evaluateFitness_eq {rows : List Row} (h : Shaped par rows)
    (hweek : par.shiftsPerWeek ≤ SHIFTS_PER_WEEK) :
    evaluateFitness par rows = some (fitness par rows) := by
  obtain ⟨value, hvalue⟩ := h.exists_fitness hweek
  rw [fitness, hvalue, Option.getD_some]

/-- The schedule's row objects hold these rows. -/
def IsSchedule (par : Parameters) (heap : Heap) (schedule : Schedule) (rows : List Row) : Prop :=
  load heap schedule = some rows ∧ Shaped par rows

def IsPopulation (par : Parameters) (heap : Heap) (population : List Schedule)
    (values : List (List Row)) : Prop :=
  List.Forall₂ (IsSchedule par heap) population values

variable {heap heap' : Heap} {population offspring parents : List Schedule}
  {values children parentValues : List (List Row)}

theorem IsSchedule.mono {schedule : Schedule} {rows : List Row}
    (h : IsSchedule par heap schedule rows) (hheap : heap <+: heap') :
    IsSchedule par heap' schedule rows :=
  ⟨load_mono hheap h.1, h.2⟩

theorem isSchedule_store (heap : Heap) {rows : List Row} (h : Shaped par rows) :
    IsSchedule par (store heap rows).1 (store heap rows).2 rows :=
  ⟨load_store heap rows, h⟩

theorem crossover_isSchedule (draws : ChildDraws par) {parent1 parent2 : Schedule}
    {rows1 rows2 : List Row} (h1 : IsSchedule par heap parent1 rows1)
    (h2 : IsSchedule par heap parent2 rows2) :
    ∃ heap' child, crossover par draws heap parent1 parent2 = some (heap', child) ∧
      heap <+: heap' ∧ IsSchedule par heap' child (crossoverRows draws rows1 rows2) :=
  ⟨_, _, crossover_spec draws h1.1 h2.1 h1.2 h2.2, prefix_store heap _,
    isSchedule_store heap (h1.2.crossoverRows h2.2)⟩

theorem mutate_isSchedule (draws : ChildDraws par) {schedule : Schedule} {rows : List Row}
    (h : IsSchedule par heap schedule rows) :
    ∃ heap' child, mutate par draws heap schedule = some (heap', child) ∧
      heap <+: heap' ∧ IsSchedule par heap' child (mutateRows draws rows) :=
  ⟨_, _, mutate_spec draws h.1 h.2, prefix_store heap _, isSchedule_store heap h.2.mutateRows⟩

namespace IsPopulation

theorem of_forall {ι : Type*} {indices : List ι} {schedule : ι → Schedule} {rows : ι → List Row}
    (h : ∀ i ∈ indices, IsSchedule par heap (schedule i) (rows i)) :
    IsPopulation par heap (indices.map schedule) (indices.map rows) := by
  rw [IsPopulation, List.forall₂_map_left_iff, List.forall₂_map_right_iff, List.forall₂_same]
  exact h

theorem mono (h : IsPopulation par heap population values) (hheap : heap <+: heap') :
    IsPopulation par heap' population values :=
  h.imp fun _ _ hschedule => hschedule.mono hheap

theorem append (h : IsPopulation par heap population values)
    (h' : IsPopulation par heap offspring children) :
    IsPopulation par heap (population ++ offspring) (values ++ children) :=
  List.rel_append h h'

theorem length_eq (h : IsPopulation par heap population values) :
    population.length = values.length := List.Forall₂.length_eq h

theorem mem_of_load (h : IsPopulation par heap population values) {schedule : Schedule}
    (hschedule : schedule ∈ population) {rows : List Row} (hload : load heap schedule = some rows) :
    rows ∈ values := by
  obtain ⟨i, hi, rfl⟩ := List.getElem_of_mem hschedule
  have hi' : i < values.length := h.length_eq ▸ hi
  have hrows := (List.Forall₂.get h hi hi').1
  rw [List.get_eq_getElem, hload, Option.some_inj] at hrows
  rw [hrows]
  exact List.get_mem values ⟨i, hi'⟩

theorem exists_of_mem (h : IsPopulation par heap population values) {rows : List Row}
    (hrows : rows ∈ values) : ∃ schedule ∈ population, IsSchedule par heap schedule rows := by
  obtain ⟨i, hi, rfl⟩ := List.getElem_of_mem hrows
  have hi' : i < population.length := h.length_eq ▸ hi
  exact ⟨population[i], List.getElem_mem hi', List.Forall₂.get h hi' hi⟩

theorem getElem? (h : IsPopulation par heap population values) {i : ℕ} (hi : i < values.length) :
    ∃ schedule, population[i]? = some schedule ∧
      IsSchedule par heap schedule (values.getD i []) := by
  have hi' : i < population.length := h.length_eq ▸ hi
  refine ⟨population[i], List.getElem?_eq_getElem hi', ?_⟩
  rw [List.getD_eq_getElem?_getD, List.getElem?_eq_getElem hi, Option.getD_some]
  exact List.Forall₂.get h hi' hi

theorem unique (h : IsPopulation par heap population values)
    (h' : IsPopulation par heap population children) : values = children := by
  refine List.right_unique_forall₂' (fun schedule rows rows' hrows hrows' => ?_) h h'
  exact Option.some_inj.mp (hrows.1.symm.trans hrows'.1)

theorem fitnessScores_eq (h : IsPopulation par heap population values)
    (hweek : par.shiftsPerWeek ≤ SHIFTS_PER_WEEK) :
    fitnessScores par heap population = some (values.map (fitness par)) := by
  rw [fitnessScores, mapM_eq_some_iff, List.forall₂_map_right_iff]
  refine h.imp fun schedule rows hschedule => ?_
  rw [hschedule.1, Option.bind_eq_bind, Option.bind_some, hschedule.2.evaluateFitness_eq hweek]

end IsPopulation

theorem shaped_generateInitialRepresentation (par : Parameters) (choice : ℕ → ℕ → Fin 2) :
    Shaped par (generateInitialRepresentation par choice) := by
  refine ⟨by simp [generateInitialRepresentation], fun row hrow => ?_,
    fun row hrow entry hentry => ?_⟩
  all_goals obtain ⟨person, -, rfl⟩ := List.mem_map.mp hrow
  · simp
  · obtain ⟨shift, -, rfl⟩ := List.mem_map.mp hentry
    have hlt := (choice person shift).isLt
    omega

theorem generatePopulation_spec (par : Parameters) (choice : ℕ → ℕ → ℕ → Fin 2) (n : ℕ) :
    IsPopulation par (generatePopulation par choice n).1 (generatePopulation par choice n).2
      ((List.range n).map fun i => generateInitialRepresentation par (choice i)) := by
  induction n with
  | zero => exact List.Forall₂.nil
  | succ n ih =>
    have hshape := shaped_generateInitialRepresentation par (choice n)
    rw [List.range_succ, List.map_append, List.map_singleton]
    exact (ih.mono (prefix_store _ _)).append (.cons (isSchedule_store _ hshape) .nil)

theorem exists_tournamentBest {n : ℕ} {scores : List ℤ} (h : scores.length = n)
    (tournamentIndices : Fin 3 ↪ Fin n) :
    ∃ best, tournamentBest scores tournamentIndices = some best := by
  have hscore : ∀ i : Fin n, scores[i.val]? = some scores[i.val] := fun i =>
    List.getElem?_eq_getElem (h ▸ i.isLt)
  refine foldlM_succeeds (fun idx _ best => ?_) (tournamentIndices 0)
  simp only [hscore, Option.bind_eq_bind, Option.bind_some, Option.pure_def]
  split_ifs <;> exact ⟨_, rfl⟩

/-- The rows of the child of round `i`, computed from those of the parents. -/
def bredRows (child : ℕ → ChildDraws par) (parentValues : List (List Row)) (i : ℕ) : List Row :=
  mutateRows (child i) (crossoverRows (child i) (parentValues.getD i [])
    (parentValues.getD (child i).mate []))

/-- A round breeds the child of its parents, on an extended heap. -/
theorem breedRound_spec (child : ℕ → ChildDraws par)
    (hparents : IsPopulation par heap parents parentValues)
    (hlength : parentValues.length = par.populationSize) {k : ℕ} (hk : k < par.populationSize)
    (h : IsPopulation par heap offspring children) :
    ∃ heap' offspring', breedRound child parents (heap, offspring) k =
        some (heap', offspring') ∧ heap <+: heap' ∧
      IsPopulation par heap' offspring' (children ++ [bredRows child parentValues k]) := by
  have hmate := (child k).mate.isLt.trans_eq hlength.symm
  obtain ⟨parent1, hget1, hparent1⟩ := hparents.getElem? (hlength ▸ hk)
  obtain ⟨parent2, hget2, hparent2⟩ := hparents.getElem? hmate
  obtain ⟨heap₁, crossed, hcross, hheap₁, hcrossed⟩ :=
    crossover_isSchedule (child k) hparent1 hparent2
  obtain ⟨heap₂, bred, hmutate, hheap₂, hbred⟩ := mutate_isSchedule (child k) hcrossed
  have hgrow := hheap₁.trans hheap₂
  refine ⟨heap₂, offspring ++ [bred], ?_, hgrow, (h.mono hgrow).append (.cons hbred .nil)⟩
  simp only [breedRound, hget1, hget2, hcross, hmutate, Option.bind_eq_bind, Option.bind_some,
    Option.pure_def]

theorem breed_spec (child : ℕ → ChildDraws par)
    (hparents : IsPopulation par heap parents parentValues)
    (hlength : parentValues.length = par.populationSize) :
    ∃ heap' offspring, breed child heap parents = some (heap', offspring) ∧ heap <+: heap' ∧
      IsPopulation par heap' offspring
        ((List.range par.populationSize).map (bredRows child parentValues)) := by
  have hround : ∀ k < par.populationSize, ∀ s : Heap × List Schedule,
      (heap <+: s.1 ∧
        IsPopulation par s.1 s.2 ((List.range k).map (bredRows child parentValues))) →
      ∃ s', breedRound child parents s k = some s' ∧ heap <+: s'.1 ∧
        IsPopulation par s'.1 s'.2 ((List.range (k + 1)).map (bredRows child parentValues)) := by
    rintro k hk ⟨heap₁, offspring⟩ ⟨hheap₁, hoffspring⟩
    obtain ⟨heap₂, offspring', hbreed, hheap₂, hoffspring'⟩ :=
      breedRound_spec child (hparents.mono hheap₁) hlength hk hoffspring
    refine ⟨(heap₂, offspring'), hbreed, hheap₁.trans hheap₂, ?_⟩
    rwa [List.range_succ, List.map_append, List.map_singleton]
  obtain ⟨⟨heap', offspring⟩, hloop, hheap', hoffspring⟩ := foldlM_range_total _
    par.populationSize hround (s := (heap, [])) ⟨List.prefix_rfl, List.Forall₂.nil⟩
  exact ⟨heap', offspring, hloop, hheap', hoffspring⟩

/-- The winner of the `i`th tournament. -/
def parentIdx (draws : GenerationDraws par) (values : List (List Row)) (i : ℕ) :
    Fin par.populationSize :=
  (tournamentBest (values.map (fitness par)) (draws.tournament i)).getD (draws.tournament i 0)

def parentRows (draws : GenerationDraws par) (values : List (List Row)) (i : ℕ) : List Row :=
  values.getD (parentIdx draws values i) []

theorem parentSelection_spec (draws : GenerationDraws par)
    (h : IsPopulation par heap population values) (hlength : values.length = par.populationSize) :
    ∃ parents, parentSelection par population (values.map (fitness par)) draws.tournament =
        some parents ∧
      IsPopulation par heap parents
        ((List.range par.populationSize).map (parentRows draws values)) := by
  have hround : ∀ i, ∃ parent, ((tournamentBest (values.map (fitness par))
      (draws.tournament i)).bind fun bestIdx => population[bestIdx.val]?) = some parent ∧
      IsSchedule par heap parent (parentRows draws values i) := by
    intro i
    obtain ⟨best, hbest⟩ := exists_tournamentBest
      (show (values.map (fitness par)).length = _ by rw [List.length_map, hlength])
      (draws.tournament i)
    obtain ⟨parent, hparent, hschedule⟩ := h.getElem? (show best.val < values.length by
      rw [hlength]
      exact best.isLt)
    refine ⟨parent, by rw [hbest, Option.bind_some, hparent], ?_⟩
    rwa [parentRows, parentIdx, hbest, Option.getD_some]
  choose parent hselect hschedule using hround
  refine ⟨(List.range par.populationSize).map parent, ?_,
    IsPopulation.of_forall fun i _ => hschedule i⟩
  rw [parentSelection, h.length_eq, hlength]
  exact mapM_eq_map fun i _ => hselect i

def childRows (draws : GenerationDraws par) (values : List (List Row)) (i : ℕ) : List Row :=
  mutateRows (draws.child i) (crossoverRows (draws.child i) (parentRows draws values i)
    (parentRows draws values (draws.child i).mate))

/-- The rows of the offspring, computed from those of the population. -/
def offspringRows (draws : GenerationDraws par) (values : List (List Row)) : List (List Row) :=
  (List.range par.populationSize).map (childRows draws values)

theorem bredRows_parentRows (draws : GenerationDraws par) (values : List (List Row)) {i : ℕ}
    (hi : i < par.populationSize) :
    bredRows draws.child ((List.range par.populationSize).map (parentRows draws values)) i =
      childRows draws values i := by
  have hparent : ∀ k < par.populationSize, ((List.range par.populationSize).map
      (parentRows draws values)).getD k [] = parentRows draws values k := by
    intro k hk
    rw [List.getD_eq_getElem?_getD, List.getElem?_map, List.getElem?_range hk, Option.map_some,
      Option.getD_some]
  rw [bredRows, childRows, hparent i hi, hparent _ (draws.child i).mate.isLt]

theorem reproduce_spec (draws : GenerationDraws par)
    (h : IsPopulation par heap population values) (hlength : values.length = par.populationSize) :
    ∃ heap' offspring, reproduce draws heap population (values.map (fitness par)) =
        some (heap', offspring) ∧ heap <+: heap' ∧
      IsPopulation par heap' offspring (offspringRows draws values) := by
  obtain ⟨parents, hselect, hparents⟩ := parentSelection_spec draws h hlength
  obtain ⟨heap', offspring, hbreed, hheap', hoffspring⟩ :=
    breed_spec draws.child hparents (by rw [List.length_map, List.length_range])
  refine ⟨heap', offspring, ?_, hheap', ?_⟩
  · rw [reproduce, hselect, Option.bind_eq_bind, Option.bind_some, hbreed]
  · rwa [List.map_congr_left fun i hi => bredRows_parentRows draws values (List.mem_range.mp hi)]
      at hoffspring

theorem selectSurvivors_subset {survivors : List Schedule}
    (h : selectSurvivors par heap population offspring = some survivors) {schedule : Schedule}
    (hschedule : schedule ∈ survivors) : schedule ∈ population ++ offspring := by
  rw [selectSurvivors, Option.bind_eq_bind, Option.bind_eq_some_iff] at h
  obtain ⟨scores, -, hselect⟩ := h
  obtain ⟨i, hi, rfl⟩ := List.getElem_of_mem hschedule
  have hpick := mapM_eq_some_iff.mp hselect
  have hget := List.Forall₂.get hpick (hpick.length_eq ▸ hi) hi
  exact List.mem_of_getElem? hget

theorem comp_getD_eq_get {α β : Type} {f : α → β} {l : List α} {l' : List β}
    (h : l' = l.map f) (d : α) : (f ∘ fun i : Fin l'.length => l.getD i.val d) = l'.get := by
  subst h
  funext i
  have hi : i.val < l.length := List.length_map f ▸ i.isLt
  rw [Function.comp_apply, List.getD_eq_getElem?_getD, List.getElem?_eq_getElem hi,
    Option.getD_some, List.get_eq_getElem, List.getElem_map]

theorem selectSurvivors_spec (hweek : par.shiftsPerWeek ≤ SHIFTS_PER_WEEK)
    (h : IsPopulation par heap population values)
    (h' : IsPopulation par heap offspring children)
    (hlength : values.length = par.populationSize) :
    ∃ survivors values', selectSurvivors par heap population offspring = some survivors ∧
      IsPopulation par heap survivors values' ∧
      IsTop par.populationSize ((values ++ children).map (fitness par))
        (values'.map (fitness par)) := by
  have hcombined := h.append h'
  have hscores := hcombined.fitnessScores_eq hweek
  obtain ⟨scores, hscoresEq⟩ : ∃ scores, scores = (values ++ children).map (fitness par) :=
    ⟨_, rfl⟩
  rw [← hscoresEq] at hscores ⊢
  have hlen : scores.length = (values ++ children).length := by rw [hscoresEq, List.length_map]
  have hle : par.populationSize ≤ (List.finRange scores.length).length := by
    rw [List.length_finRange, hlen, List.length_append, hlength]
    exact Nat.le_add_right _ _
  have hsurvivor : ∀ i : Fin scores.length, ∃ schedule,
      (population ++ offspring)[i.val]? = some schedule ∧
      IsSchedule par heap schedule ((values ++ children).getD i []) := fun i =>
    hcombined.getElem? (hlen ▸ i.isLt)
  choose survivor hget hschedule using hsurvivor
  refine ⟨((sortedIndices scores).take par.populationSize).map survivor,
    ((sortedIndices scores).take par.populationSize).map
      fun i => (values ++ children).getD i.val [], ?_,
    IsPopulation.of_forall fun i _ => hschedule i, ?_⟩
  · rw [selectSurvivors, hscores, Option.bind_eq_bind, Option.bind_some]
    exact mapM_eq_map fun i _ => hget i
  · have htop := isTop_insertionSort scores.get (List.finRange scores.length) hle
    rw [List.map_get_finRange] at htop
    rw [List.map_map, comp_getD_eq_get hscoresEq]
    exact htop

end OlinCourses.Genetic
