import OlinCourses.Genetic.Sampling

/-!
# Roulette wheel selection

`roulette_wheel_selection` of the scheduling notebook in exact arithmetic: every parent has
a spin of its own. Stochastic universal sampling is the same wheel with equally spaced
picks.
-/
namespace OlinCourses.Genetic
open Loop Pointers

/-- The loop over the selection probabilities from index `i` on: where it breaks. -/
def spin (pick current : ℚ) (i : ℕ) : List ℚ → Option ℕ
  | [] => none
  | prob :: probs =>
    if pick ≤ current + prob then some i else spin pick (current + prob) (i + 1) probs

/-- One spin of the wheel; `pick` is the outcome of `random.random()`. -/
def spinParent {α : Type} (population : List α) (selectionProbs : List ℚ) (pick : ℕ → ℚ)
    (parents : List α) (i : ℕ) : Option (List α) :=
  match spin (pick i) 0 0 selectionProbs with
  | none => return parents
  | some j => return parents ++ [← population[j]?]

/-- The minimum of no scores, a division by zero and a failed index are `none`. -/
def rouletteWheelSelection {α : Type} (population : List α) (fitnessScores : List ℤ)
    (pick : ℕ → ℚ) : Option (List α) := do
  let minFitness ← fitnessScores.min?
  let adjustedScores := adjustedScores fitnessScores minFitness
  let totalFitness := adjustedScores.sum
  let selectionProbs ← adjustedScores.mapM fun score : ℤ => divide score totalFitness
  (List.range population.length).foldlM (spinParent population selectionProbs pick) []

theorem spin_eq_findIdx? (pick current : ℚ) (i : ℕ) (probs : List ℚ) :
    spin pick current i probs =
      ((ends probs).findIdx? fun e => decide (pick ≤ current + e)).map (· + i) := by
  induction probs generalizing current i with
  | nil => rfl
  | cons prob probs ih =>
    rw [spin, ends_cons, List.findIdx?_cons]
    by_cases hpick : pick ≤ current + prob
    · simp [hpick]
    · rw [if_neg hpick, ih, List.findIdx?_map, if_neg (by simpa using hpick), Option.map_map]
      simp only [Function.comp_def, add_assoc, Nat.add_comm 1 i]

theorem spin_eq {probs : List ℚ} (hprobs : IsShares probs) {pick : ℚ} (hpick : pick ≤ 1) :
    spin pick 0 0 probs = some (locate probs pick) := by
  have hlt := hprobs.locate_lt_length hpick
  rw [← length_ends] at hlt
  simp only [spin_eq_findIdx?, zero_add, Nat.add_zero, Option.map_id']
  exact List.findIdx?_eq_some_iff_findIdx_eq.mpr ⟨hlt, rfl⟩

section Parents

variable {α : Type} {population : List α} {fitnessScores : List ℤ}

/-- The individuals that the wheel stops at. -/
def stops (fitnessScores : List ℤ) (pick : ℕ → ℚ) : List ℕ :=
  (List.range fitnessScores.length).map fun i => locate (shares fitnessScores) (pick i)

theorem mapM_stops (hlen : fitnessScores.length = population.length) {pick : ℕ → ℚ}
    (hpick : ∀ i < fitnessScores.length, pick i < 1) :
    ∃ parents, (stops fitnessScores pick).mapM (fun j => population[j]?) = some parents := by
  refine mapM_succeeds fun j hj => ?_
  obtain ⟨i, hi, rfl⟩ := List.mem_map.mp hj
  have hi' := List.mem_range.mp hi
  have hne : fitnessScores ≠ [] := List.length_pos_iff.mp (Nat.zero_lt_of_lt hi')
  have hlt := (exists_minFitness hne).1.locate_lt_length (hpick i hi').le
  rw [length_shares, hlen] at hlt
  exact ⟨_, List.getElem?_eq_getElem hlt⟩

/-- No spin runs past the last probability. -/
theorem rouletteWheelSelection_eq (hne : fitnessScores ≠ [])
    (hlen : fitnessScores.length = population.length) {pick : ℕ → ℚ}
    (hpick : ∀ i < fitnessScores.length, pick i < 1) :
    rouletteWheelSelection population fitnessScores pick =
      (stops fitnessScores pick).mapM fun j => population[j]? := by
  obtain ⟨hshares, minFitness, hmin, hprobs⟩ := exists_minFitness hne
  have hspin : ∀ i ∈ List.range population.length, ∀ parents,
      spinParent population (shares fitnessScores) pick parents i =
        (population[locate (shares fitnessScores) (pick i)]?).map
          fun parent => parents ++ [parent] := by
    intro i hi parents
    rw [← hlen, List.mem_range] at hi
    simp only [spinParent, spin_eq hshares (hpick i hi).le, Option.bind_eq_bind,
      Option.pure_def, Option.map_eq_bind, Function.comp_def]
  simp only [rouletteWheelSelection, hmin, hprobs, Option.bind_eq_bind, Option.bind_some]
  rw [foldlM_concat hspin, stops, List.mapM_map, Function.comp_def, hlen]
  simp

/-- Stochastic universal sampling spins the wheel with equally spaced picks. -/
theorem stochasticUniversalSampling_eq_roulette (hne : fitnessScores ≠ [])
    (hlen : fitnessScores.length = population.length) {random : ℚ} (hrandom : random < 1) :
    stochasticUniversalSampling population fitnessScores random =
      rouletteWheelSelection population fitnessScores (pointer population.length random) := by
  obtain ⟨probs, hprobs, hlength, hshare, hsampling⟩ :=
    stochasticUniversalSampling_eq population hne hlen random
  obtain rfl : probs = shares fitnessScores := by
    apply List.ext_getElem
    · rw [hlength, length_shares, hlen]
    · intro j hj hj'
      rw [hshare j hj]
      simp [shares]
  obtain ⟨parents, hloop, hparents⟩ := foldlM_selectParent hprobs hlength hrandom
  rw [hsampling, hloop, ← hparents, rouletteWheelSelection_eq hne hlen fun i hi =>
    pointer_lt_one hrandom (hlen ▸ hi), stops, select, hlen]

/-- Where the segment of individual `j` on the wheel starts. -/
def wheelStart (fitnessScores : List ℤ) (j : ℕ) : ℚ :=
  ((List.range j).map (share fitnessScores)).sum

theorem sum_take_shares {j : ℕ} (hj : j ≤ fitnessScores.length) :
    ((shares fitnessScores).take j).sum = wheelStart fitnessScores j := by
  rw [shares, ← List.map_take, List.take_range, min_eq_left hj, wheelStart]

theorem getElem_stops_eq_iff (hne : fitnessScores ≠ []) {pick : ℕ → ℚ} {i j : ℕ}
    (hi : i < (stops fitnessScores pick).length) (hj : j < fitnessScores.length) :
    (stops fitnessScores pick)[i] = j ↔ (j = 0 ∨ wheelStart fitnessScores j < pick i) ∧
      pick i ≤ wheelStart fitnessScores (j + 1) := by
  have hspin := (exists_minFitness hne).1.locate_eq_iff (by rwa [length_shares]) (pick i)
  rw [sum_take_shares hj.le, sum_take_shares hj] at hspin
  rw [← hspin]
  simp [stops]

/-- The shares are those of the distances from the lowest fitness, plus one. -/
theorem exists_share_eq (hne : fitnessScores ≠ []) : ∃ minFitness total : ℤ, 0 < total ∧
    (∀ j, share fitnessScores j = (fitnessScores.getD j 0 - minFitness + 1 : ℤ) / total) ∧
      ∀ j < fitnessScores.length, minFitness ≤ fitnessScores.getD j 0 := by
  obtain ⟨minFitness, hmin⟩ := Option.isSome_iff_exists.mp (List.isSome_min?_of_ne_nil hne)
  have htotal := List.sum_pos _ (adjustedScores_pos hmin) (by simpa [adjustedScores] using hne)
  refine ⟨minFitness, _, htotal, fun j => ?_, fun j hj => ?_⟩
  · unfold share
    rw [hmin, Option.getD_some]
    rfl
  · rw [List.getD_eq_getElem?_getD, List.getElem?_eq_getElem hj, Option.getD_some]
    exact (List.min?_eq_some_iff.mp hmin).2 _ (List.getElem_mem hj)

theorem share_pos {j : ℕ} (hj : j < fitnessScores.length) : 0 < share fitnessScores j := by
  obtain ⟨minFitness, total, htotal, hshare, hmin⟩ :=
    exists_share_eq (List.length_pos_iff.mp (Nat.zero_lt_of_lt hj))
  have hle := hmin j hj
  rw [hshare]
  exact div_pos (Int.cast_pos.mpr (by omega)) (Int.cast_pos.mpr htotal)

theorem share_lt_share (hne : fitnessScores ≠ []) {j k : ℕ}
    (hlt : fitnessScores.getD j 0 < fitnessScores.getD k 0) :
    share fitnessScores j < share fitnessScores k := by
  obtain ⟨minFitness, total, htotal, hshare, -⟩ := exists_share_eq hne
  rw [hshare, hshare]
  exact div_lt_div_of_pos_right (Int.cast_lt.mpr (by omega)) (Int.cast_pos.mpr htotal)

theorem wheelStart_succ (j : ℕ) :
    wheelStart fitnessScores (j + 1) = wheelStart fitnessScores j + share fitnessScores j := by
  simp [wheelStart, List.range_succ]

end Parents

/-- The wheel has a segment for each individual, longer for a fitter one, and every spin
selects the individual whose segment the pick lies in. Stochastic universal sampling is
the selection by equally spaced picks. -/
theorem rouletteWheelSelection_segments {α : Type} (population : List α)
    (fitnessScores : List ℤ) (hne : population ≠ [])
    (hlen : fitnessScores.length = population.length) :
    (wheelStart fitnessScores 0 = 0 ∧ wheelStart fitnessScores population.length = 1 ∧
      ∀ j, wheelStart fitnessScores (j + 1) =
        wheelStart fitnessScores j + share fitnessScores j) ∧
      (∀ j < population.length, 0 < share fitnessScores j) ∧
      (∀ j k, fitnessScores.getD j 0 < fitnessScores.getD k 0 →
        share fitnessScores j < share fitnessScores k) ∧
      (∀ pick : ℕ → ℚ, (∀ i, 0 ≤ pick i ∧ pick i < 1) → ∃ (parents : List α) (indices : List ℕ),
        rouletteWheelSelection population fitnessScores pick = some parents ∧
          indices.mapM (fun j => population[j]?) = some parents ∧
          indices.length = population.length ∧
          ∀ i (hi : i < indices.length), ∀ j < population.length, indices[i] = j ↔
            (j = 0 ∨ wheelStart fitnessScores j < pick i) ∧
              pick i ≤ wheelStart fitnessScores (j + 1)) ∧
      ∀ random : ℚ, 0 ≤ random → random < 1 →
        stochasticUniversalSampling population fitnessScores random =
          rouletteWheelSelection population fitnessScores
            fun i => random / population.length + i / population.length := by
  have hne' : fitnessScores ≠ [] := List.length_pos_iff.mp (hlen ▸ List.length_pos_iff.mpr hne)
  have hshares := (exists_minFitness hne').1
  refine ⟨⟨rfl, ?_, wheelStart_succ⟩, fun j hj => share_pos (hlen ▸ hj),
    fun j k hlt => share_lt_share hne' hlt, fun pick hpick => ?_,
    fun random _ hrandom => stochasticUniversalSampling_eq_roulette hne' hlen hrandom⟩
  · rw [← hlen, ← sum_take_shares le_rfl, ← length_shares, List.take_length, hshares.sum_eq_one]
  · obtain ⟨parents, hparents⟩ := mapM_stops hlen fun i _ => (hpick i).2
    refine ⟨parents, stops fitnessScores pick, ?_, hparents, by simp [stops, hlen],
      fun i hi j hj => getElem_stops_eq_iff hne' hi (hlen ▸ hj)⟩
    rw [rouletteWheelSelection_eq hne' hlen fun i _ => (hpick i).2, hparents]

theorem rouletteWheelSelection_segments_three :
    wheelStart [-4, 0, -1] 3 = 1 ∧ stochasticUniversalSampling [10, 20, 30] [-4, 0, -1] (1 / 2) =
      rouletteWheelSelection ([10, 20, 30] : List ℕ) [-4, 0, -1]
        fun i => (1 / 2) / (3 : ℕ) + i / (3 : ℕ) := by
  have hwheel := rouletteWheelSelection_segments ([10, 20, 30] : List ℕ) [-4, 0, -1]
    (by decide) rfl
  exact ⟨hwheel.1.2.1, hwheel.2.2.2.2 (1 / 2) (by norm_num) (by norm_num)⟩

example : rouletteWheelSelection ([10, 20, 30] : List ℕ) [-4, 0, -1]
    (fun i => [7 / 10, 1 / 20, 3 / 5].getD i 0) = some [30, 10, 20] := by decide +kernel

end OlinCourses.Genetic
