import Mathlib.Data.Fin.Embedding
import Mathlib.Data.List.MinMax
import OlinCourses.Genetic.Fitness
import OlinCourses.Lib.Truncation

/-!
# The genetic algorithm

`genetic_algorithm` of the scheduling notebook with selection, reproduction and
survival. `none` is an exception.
-/
namespace OlinCourses.Genetic
open Loop Truncation

/-- The draws of a generation: a tournament for each parent, and those for each child. -/
structure GenerationDraws (par : Parameters) where
  tournament : ℕ → Fin 3 ↪ Fin par.populationSize
  child : ℕ → ChildDraws par

/-- The draws of a run. `choice` is by schedule, person and shift. -/
structure Draws (par : Parameters) where
  choice : ℕ → ℕ → ℕ → Fin 2
  generation : ℕ → GenerationDraws par

/-- The variables of `genetic_algorithm`; `⊥` is `float('-inf')`. -/
structure State where
  heap : Heap
  population : List Schedule
  bestSchedule : Option Schedule
  bestFitness : WithBot ℤ
  fitnessHistory : List (WithBot ℤ)
  avgFitnessHistory : List ℚ

/-- `fitness > best_fitness`. -/
def exceeds (fitness : ℤ) : WithBot ℤ → Bool
  | ⊥ => true
  | (bestFitness : ℤ) => bestFitness < fitness

section Source

variable (par : Parameters)

/-- Numerals name the bits of a draw and the places of a tournament. -/
scoped instance neZero_two : NeZero 2 := ⟨by decide⟩
scoped instance neZero_three : NeZero 3 := ⟨by decide⟩

def generateInitialRepresentation (choice : ℕ → ℕ → Fin 2) : List Row :=
  (List.range par.numPeople).map fun person =>
    (List.range par.shiftsPerWeek).map fun shift => ((choice person shift).val : ℤ)

def generatePopulation (choice : ℕ → ℕ → ℕ → Fin 2) : ℕ → Heap × List Schedule
  | 0 => ([], [])
  | i + 1 =>
    let (heap, population) := generatePopulation choice i
    let (heap, schedule) := store heap (generateInitialRepresentation par (choice i))
    (heap, population ++ [schedule])

def fitnessScores (heap : Heap) (population : List Schedule) : Option (List ℤ) :=
  population.mapM fun schedule => do evaluateFitness par (← load heap schedule)

/-- The index that wins a tournament. -/
def tournamentBest {n : ℕ} (scores : List ℤ) (tournamentIndices : Fin 3 ↪ Fin n) :
    Option (Fin n) :=
  (List.ofFn tournamentIndices).foldlM (fun bestIdx idx => do
    if (← scores[idx.val]?) > (← scores[bestIdx.val]?) then return idx else return bestIdx)
    (tournamentIndices 0)

def parentSelection (population : List Schedule) (scores : List ℤ)
    (tournament : ℕ → Fin 3 ↪ Fin par.populationSize) : Option (List Schedule) :=
  (List.range population.length).mapM fun i => do
    let bestIdx ← tournamentBest scores (tournament i)
    population[bestIdx.val]?

/-- The indices of the scores, best first; the sort is stable. -/
def sortedIndices (scores : List ℤ) : List (Fin scores.length) :=
  (List.finRange scores.length).insertionSort fun i j => scores.get i ≥ scores.get j

def selectSurvivors (heap : Heap) (population offspring : List Schedule) :
    Option (List Schedule) := do
  let combined := population ++ offspring
  let scores ← fitnessScores par heap combined
  ((sortedIndices scores).take par.populationSize).mapM fun i => combined[i.val]?

def recordBest (s : State) (maxFitnessIdx : ℕ) (maxFitness : ℤ) : Option State :=
  if exceeds maxFitness s.bestFitness then do
    let rows ← load s.heap (← s.population[maxFitnessIdx]?)
    let (heap, schedule) := store s.heap rows
    return { s with heap, bestSchedule := some schedule, bestFitness := maxFitness }
  else some s

/-- The part of a generation that evaluates the population and records the best schedule. -/
def record (s : State) : Option (State × List ℤ) := do
  let scores ← fitnessScores par s.heap s.population
  let avgFitness : ℚ := scores.sum / scores.length
  let maxFitnessIdx ← scores.idxOf? (← scores.max?)
  let maxFitness ← scores[maxFitnessIdx]?
  let s ← recordBest s maxFitnessIdx maxFitness
  return ({ s with
    fitnessHistory := s.fitnessHistory ++ [s.bestFitness]
    avgFitnessHistory := s.avgFitnessHistory ++ [avgFitness] }, scores)

/-- The variables before the first generation. -/
def initial (choice : ℕ → ℕ → ℕ → Fin 2) : State where
  heap := (generatePopulation par choice par.populationSize).1
  population := (generatePopulation par choice par.populationSize).2
  bestSchedule := none
  bestFitness := ⊥
  fitnessHistory := []
  avgFitnessHistory := []

variable {par} (child : ℕ → ChildDraws par) (draws : GenerationDraws par)

/-- One round of the loop that breeds the offspring. -/
def breedRound (parents : List Schedule) (s : Heap × List Schedule) (i : ℕ) :
    Option (Heap × List Schedule) := do
  let (heap, offspring) := s
  let parent1 ← parents[i]?
  let parent2 ← parents[(child i).mate.val]?
  let (heap, bred) ← crossover par (child i) heap parent1 parent2
  let (heap, bred) ← mutate par (child i) heap bred
  return (heap, offspring ++ [bred])

/-- The loop that breeds the offspring. -/
def breed (heap : Heap) (parents : List Schedule) : Option (Heap × List Schedule) :=
  (List.range par.populationSize).foldlM (breedRound child parents) (heap, [])

/-- The part of a generation that selects the parents and breeds the offspring. -/
def reproduce (heap : Heap) (population : List Schedule) (scores : List ℤ) :
    Option (Heap × List Schedule) := do
  let parents ← parentSelection par population scores draws.tournament
  breed draws.child heap parents

def generation (s : State) : Option State := do
  let (s, scores) ← record par s
  let (heap, offspring) ← reproduce draws s.heap s.population scores
  let population ← selectSurvivors par heap s.population offspring
  return { s with heap, population }

def start (draws : Draws par) : State := initial par draws.choice

/-- The variables when the loop has run for `generations` rounds. -/
def geneticAlgorithm (draws : Draws par) (generations : ℕ) : Option State :=
  (List.range generations).foldlM (fun s gen => generation (draws.generation gen) s)
    (start draws)

end Source

end OlinCourses.Genetic
