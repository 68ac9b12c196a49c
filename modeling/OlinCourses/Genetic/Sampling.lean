import OlinCourses.Lib.Loop
import OlinCourses.Lib.Pointers

/-!
# Stochastic universal sampling

`stochastic_universal_sampling` of the scheduling notebook in exact arithmetic: one draw
places equally spaced pointers, and the segment of each individual is its share of the
adjusted scores.
-/
namespace OlinCourses.Genetic
open Loop Pointers

/-- `x / y`, which fails for `y = 0`. -/
def divide (x y : ℚ) : Option ℚ := if y = 0 then none else some (x / y)

def adjustedScores (fitnessScores : List ℤ) (minFitness : ℤ) : List ℤ :=
  fitnessScores.map fun score => score - minFitness + 1

/-- The loop that fills `cumulative_probs`, with the running sum. -/
def cumulativeProbs (selectionProbs : List ℚ) : List ℚ :=
  (selectionProbs.foldl (fun s prob => (s.1 ++ [s.2 + prob], s.2 + prob)) ([], 0)).1

/-- One pointer: the first individual whose segment contains it becomes a parent. -/
def selectParent {α : Type} (population : List α) (cumulativeProbs : List ℚ) (start : ℚ)
    (parents : List α) (i : ℕ) : Option (List α) := do
  let pointer := start + (← divide i population.length)
  let pointer := if pointer > 1 then pointer - 1 else pointer
  match cumulativeProbs.findIdx? fun cumulativeProb => decide (pointer ≤ cumulativeProb) with
  | none => return parents
  | some j => return parents ++ [← population[j]?]

/-- `random` is the outcome of `random.random()`; the minimum of no scores, a division by zero
and a failed index are `none`. -/
def stochasticUniversalSampling {α : Type} (population : List α) (fitnessScores : List ℤ)
    (random : ℚ) : Option (List α) := do
  let minFitness ← fitnessScores.min?
  let adjustedScores := adjustedScores fitnessScores minFitness
  let totalFitness := adjustedScores.sum
  let selectionProbs ← adjustedScores.mapM fun score : ℤ => divide score totalFitness
  let start ← divide random population.length
  (List.range population.length).foldlM
    (selectParent population (cumulativeProbs selectionProbs) start) []

/-- The share of individual `j` in the adjusted scores. -/
def share (fitnessScores : List ℤ) (j : ℕ) : ℚ :=
  let minFitness := fitnessScores.min?.getD 0
  (fitnessScores.getD j 0 - minFitness + 1 : ℤ) /
    ((fitnessScores.map fun score => score - minFitness + 1).sum : ℤ)

/-- The loop computes the sums of the first probabilities. -/
theorem cumulativeProbs_eq (selectionProbs : List ℚ) :
    cumulativeProbs selectionProbs = ends selectionProbs := by
  have hloop : selectionProbs.foldl (fun s prob => (s.1 ++ [s.2 + prob], s.2 + prob))
      (([], 0) : List ℚ × ℚ) = (ends selectionProbs, selectionProbs.sum) := by
    induction selectionProbs using List.reverseRecOn with
    | nil => rfl
    | append_singleton probs prob ih =>
      rw [List.foldl_concat, ih, ends_concat]
      simp
  rw [cumulativeProbs, hloop]

theorem sum_map_div (scores : List ℤ) (total : ℚ) :
    (scores.map fun score : ℤ => (score : ℚ) / total).sum = (scores.sum : ℤ) / total := by
  induction scores with
  | nil => simp
  | cons score scores ih =>
    rw [List.map_cons, List.sum_cons, ih, List.sum_cons, Int.cast_add, add_div]

theorem isShares_of_pos {scores : List ℤ} (hne : scores ≠ []) (hpos : ∀ score ∈ scores, 0 < score) :
    IsShares (scores.map fun score : ℤ => (score : ℚ) / (scores.sum : ℤ)) := by
  have hsum : 0 < scores.sum := List.sum_pos scores hpos hne
  have hsum' : (0 : ℚ) < (scores.sum : ℤ) := Int.cast_pos.mpr hsum
  refine ⟨?_, ?_⟩
  · intro s hs
    obtain ⟨score, hscore, rfl⟩ := List.mem_map.mp hs
    exact div_nonneg (Int.cast_nonneg (hpos score hscore).le) hsum'.le
  · rw [sum_map_div, div_self hsum'.ne']

theorem adjustedScores_pos {fitnessScores : List ℤ} {minFitness : ℤ}
    (hmin : fitnessScores.min? = some minFitness) :
    ∀ score ∈ adjustedScores fitnessScores minFitness, 0 < score := by
  intro score hscore
  obtain ⟨s, hs, rfl⟩ := List.mem_map.mp hscore
  have hle := (List.min?_eq_some_iff.mp hmin).2 s hs
  omega

theorem mapM_divide (scores : List ℤ) {total : ℚ} (h : total ≠ 0) :
    (scores.mapM fun score : ℤ => divide score total) =
      some (scores.map fun score : ℤ => (score : ℚ) / total) :=
  mapM_eq_map fun _ _ => if_neg h

/-- The shares of all individuals. -/
def shares (fitnessScores : List ℤ) : List ℚ :=
  (List.range fitnessScores.length).map (share fitnessScores)

@[simp] theorem length_shares (fitnessScores : List ℤ) :
    (shares fitnessScores).length = fitnessScores.length := by
  simp [shares]

theorem shares_eq {fitnessScores : List ℤ} {minFitness : ℤ}
    (hmin : fitnessScores.min? = some minFitness) :
    shares fitnessScores = (adjustedScores fitnessScores minFitness).map fun score : ℤ =>
      (score : ℚ) / (adjustedScores fitnessScores minFitness).sum := by
  apply List.ext_getElem
  · simp [adjustedScores]
  · intro j hj hj'
    have hj'' : j < fitnessScores.length := by rwa [length_shares] at hj
    simp [shares, share, adjustedScores, hmin, hj'']

/-- The selection probabilities are the shares of the individuals, which make up the line. -/
theorem exists_minFitness {fitnessScores : List ℤ} (hne : fitnessScores ≠ []) :
    IsShares (shares fitnessScores) ∧ ∃ minFitness, fitnessScores.min? = some minFitness ∧
      ((adjustedScores fitnessScores minFitness).mapM fun score : ℤ =>
        divide score (adjustedScores fitnessScores minFitness).sum) =
          some (shares fitnessScores) := by
  obtain ⟨minFitness, hmin⟩ := Option.isSome_iff_exists.mp (List.isSome_min?_of_ne_nil hne)
  have hpos := adjustedScores_pos hmin
  have hne' : adjustedScores fitnessScores minFitness ≠ [] := by
    simpa [adjustedScores] using hne
  have htotal : ((adjustedScores fitnessScores minFitness).sum : ℚ) ≠ 0 :=
    Int.cast_ne_zero.mpr (List.sum_pos _ hpos hne').ne'
  rw [shares_eq hmin]
  exact ⟨isShares_of_pos hne' hpos, minFitness, hmin, mapM_divide _ htotal⟩

section Loop

variable {α : Type} {population : List α} {probs : List ℚ} {random : ℚ}

/-- No pointer is past the last segment, so each one finds a parent. -/
theorem selectParent_eq (hprobs : IsShares probs) (hrandom : random < 1) {i : ℕ}
    (hi : i < population.length) (parents : List α) :
    selectParent population (cumulativeProbs probs) (random / population.length) parents i =
      (population[locate probs (pointer population.length random i)]?).map
        fun parent => parents ++ [parent] := by
  have hn : (population.length : ℚ) ≠ 0 := Nat.cast_ne_zero.mpr (by omega)
  have hdivide : divide i population.length = some ((i : ℚ) / population.length) := if_neg hn
  have hpointer : random / population.length + i / population.length =
      pointer population.length random i := rfl
  have hlt := pointer_lt_one hrandom hi
  have hfind : (cumulativeProbs probs).findIdx?
      (fun e => decide (pointer population.length random i ≤ e)) =
        some (locate probs (pointer population.length random i)) := by
    rw [cumulativeProbs_eq, List.findIdx?_eq_some_iff_findIdx_eq, length_ends]
    exact ⟨hprobs.locate_lt_length hlt.le, rfl⟩
  simp only [selectParent, hdivide, Option.bind_eq_bind, Option.bind_some, hpointer,
    if_neg hlt.not_gt, hfind, Option.pure_def, Option.map_eq_bind, Function.comp_def]

/-- The loop selects the individuals whose segments catch the pointers. -/
theorem foldlM_selectParent (hprobs : IsShares probs) (hlen : probs.length = population.length)
    (hrandom : random < 1) : ∃ parents,
      (List.range population.length).foldlM
          (selectParent population (cumulativeProbs probs) (random / population.length)) [] =
        some parents ∧
      (select probs population.length random).mapM (fun j => population[j]?) = some parents := by
  have hfound : ∃ parents,
      (select probs population.length random).mapM (fun j => population[j]?) = some parents := by
    refine mapM_succeeds fun j hj => ?_
    have hlt : j < population.length := hlen ▸ lt_length_of_mem_select hprobs hrandom hj
    exact ⟨population[j], List.getElem?_eq_getElem hlt⟩
  obtain ⟨parents, hparents⟩ := hfound
  refine ⟨parents, ?_, hparents⟩
  rw [select, List.mapM_map, Function.comp_def] at hparents
  rw [foldlM_concat (fun i hi => selectParent_eq hprobs hrandom (List.mem_range.mp hi)), hparents]
  rfl

/-- The pointers stand on the line of the selection probabilities. -/
theorem stochasticUniversalSampling_eq (population : List α) {fitnessScores : List ℤ}
    (hne : fitnessScores ≠ []) (hlen : fitnessScores.length = population.length) (random : ℚ) :
    ∃ probs, IsShares probs ∧ probs.length = population.length ∧
      (∀ j (hj : j < probs.length), probs[j] = share fitnessScores j) ∧
      stochasticUniversalSampling population fitnessScores random =
        (List.range population.length).foldlM
          (selectParent population (cumulativeProbs probs) (random / population.length)) [] := by
  obtain ⟨hshares, minFitness, hmin, hprobs⟩ := exists_minFitness hne
  have hn : (population.length : ℚ) ≠ 0 := by
    rw [← hlen, Nat.cast_ne_zero, Ne, List.length_eq_zero_iff]
    exact hne
  have hstart : divide random population.length = some (random / population.length) := if_neg hn
  refine ⟨shares fitnessScores, hshares, (length_shares _).trans hlen, fun j hj => ?_, ?_⟩
  · simp [shares]
  · simp only [stochasticUniversalSampling, hmin, hprobs, hstart, Option.bind_eq_bind,
      Option.bind_some]

end Loop

/-- Of the parents, one for each pointer and in the order of the population, each individual is
its share, up to one selection. -/
theorem stochasticUniversalSampling_spread {α : Type} (population : List α)
    (fitnessScores : List ℤ) (hne : population ≠ [])
    (hlen : fitnessScores.length = population.length) (random : ℚ) (hrandom : 0 ≤ random)
    (hrandom' : random < 1) : ∃ (parents : List α) (indices : List ℕ),
      stochasticUniversalSampling population fitnessScores random = some parents ∧
      parents.length = population.length ∧ indices.Pairwise (· ≤ ·) ∧
      indices.mapM (fun j => population[j]?) = some parents ∧
      ∀ j < population.length,
        population.length * share fitnessScores j - 1 ≤ indices.count j ∧
          (indices.count j : ℚ) ≤ population.length * share fitnessScores j + 1 := by
  have hn : 0 < population.length := List.length_pos_iff.mpr hne
  have hne' : fitnessScores ≠ [] := List.length_pos_iff.mp (hlen ▸ hn)
  obtain ⟨probs, hprobs, hlen', hshare, heq⟩ :=
    stochasticUniversalSampling_eq population hne' hlen random
  obtain ⟨parents, hloop, hparents⟩ := foldlM_selectParent hprobs hlen' hrandom'
  refine ⟨parents, select probs population.length random, heq.trans hloop, ?_,
    pairwise_select _ _ _, hparents, ?_⟩
  · rw [← (mapM_eq_some_iff.mp hparents).length_eq, length_select]
  · intro j hj
    have hj' : j < probs.length := hlen' ▸ hj
    rw [← hshare j hj']
    exact count_select_bounds hprobs hn hrandom hrandom' hj'

theorem stochasticUniversalSampling_spread_three : ∃ (parents : List ℕ) (indices : List ℕ),
    stochasticUniversalSampling [10, 20, 30] [-4, 0, -1] (1 / 2) = some parents ∧
    parents.length = 3 ∧ indices.Pairwise (· ≤ ·) ∧
    indices.mapM (fun j => [10, 20, 30][j]?) = some parents ∧
    ∀ j < 3, ((3 : ℕ) : ℚ) * share [-4, 0, -1] j - 1 ≤ indices.count j ∧
      (indices.count j : ℚ) ≤ ((3 : ℕ) : ℚ) * share [-4, 0, -1] j + 1 :=
  stochasticUniversalSampling_spread ([10, 20, 30] : List ℕ) [-4, 0, -1] (by decide) rfl (1 / 2)
    (by norm_num) (by norm_num)

example : stochasticUniversalSampling ([10, 20, 30] : List ℕ) [-4, 0, -1] (1 / 2) =
    some [20, 20, 30] := by decide +kernel

end OlinCourses.Genetic
