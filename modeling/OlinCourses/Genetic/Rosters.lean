import OlinCourses.Genetic.Fitness

/-!
# Valid rosters

The fitness of a schedule is zero exactly when it staffs every shift as required and lets
everybody rest.
-/
namespace OlinCourses.Genetic

/-- Shifts come as morning, afternoon and night, in this order. -/
structure ValidRoster (par : Parameters) (schedule : List Row) : Prop where
  morning : ∀ shiftIdx < par.shiftsPerWeek, shiftIdx % 3 = 0 →
    staff par.numPeople schedule shiftIdx = 1
  afternoon : ∀ shiftIdx < par.shiftsPerWeek, shiftIdx % 3 = 1 →
    staff par.numPeople schedule shiftIdx = 2
  night : ∀ shiftIdx < par.shiftsPerWeek, shiftIdx % 3 = 2 →
    staff par.numPeople schedule shiftIdx = 1
  consecutive : ∀ p < par.numPeople, ∀ shiftIdx, shiftIdx + 1 < par.shiftsPerWeek →
    ¬ (Works schedule p shiftIdx ∧ Works schedule p (shiftIdx + 1))
  afterNight : ∀ p < par.numPeople, ∀ shiftIdx, shiftIdx % 3 = 2 → Works schedule p shiftIdx →
    ∀ i, 1 ≤ i → i ≤ 3 → shiftIdx + i < par.shiftsPerWeek → ¬ Works schedule p (shiftIdx + i)

section Charges

variable {par : Parameters} {schedule : List Row}

theorem staffed_iff : (∀ shiftIdx < par.shiftsPerWeek,
      staff par.numPeople schedule shiftIdx = required shiftIdx) ↔
    (∀ shiftIdx < par.shiftsPerWeek, shiftIdx % 3 = 0 →
      staff par.numPeople schedule shiftIdx = 1) ∧
    (∀ shiftIdx < par.shiftsPerWeek, shiftIdx % 3 = 1 →
      staff par.numPeople schedule shiftIdx = 2) ∧
    ∀ shiftIdx < par.shiftsPerWeek, shiftIdx % 3 = 2 →
      staff par.numPeople schedule shiftIdx = 1 := by
  constructor
  · intro hstaff
    refine ⟨?_, ?_, ?_⟩
    · intro shiftIdx hshift htype
      rw [hstaff shiftIdx hshift, required, if_neg (by omega)]
    · intro shiftIdx hshift htype
      rw [hstaff shiftIdx hshift, required, if_pos htype]
    · intro shiftIdx hshift htype
      rw [hstaff shiftIdx hshift, required, if_neg (by omega)]
  · rintro ⟨hmorning, hafternoon, hnight⟩ shiftIdx hshift
    have hmod : shiftIdx % 3 < 3 := Nat.mod_lt _ (by decide)
    obtain htype | htype | htype : shiftIdx % 3 = 0 ∨ shiftIdx % 3 = 1 ∨ shiftIdx % 3 = 2 := by
      omega
    · rw [hmorning shiftIdx hshift htype, required, if_neg (by omega)]
    · rw [hafternoon shiftIdx hshift htype, required, if_pos htype]
    · rw [hnight shiftIdx hshift htype, required, if_neg (by omega)]

/-- The two rest rules together forbid consecutive shifts, also across midnight. -/
theorem rested_iff (h : Shaped par schedule) (hday : par.shiftsPerDay = 3) (p : ℕ) :
    (∀ shiftIdx < par.shiftsPerWeek, Rested par schedule p shiftIdx) ↔
      (∀ shiftIdx, shiftIdx + 1 < par.shiftsPerWeek →
        ¬ (Works schedule p shiftIdx ∧ Works schedule p (shiftIdx + 1))) ∧
      ∀ shiftIdx, shiftIdx % 3 = 2 → Works schedule p shiftIdx →
        ∀ i, 1 ≤ i → i ≤ 3 → shiftIdx + i < par.shiftsPerWeek →
          ¬ Works schedule p (shiftIdx + i) := by
  simp only [Rested, hday]
  constructor
  · intro hrest
    refine ⟨?_, ?_⟩
    · rintro shiftIdx - ⟨hworks, hnext⟩
      have hfree := hrest shiftIdx (h.lt_of_works hworks) hworks
      split_ifs at hfree
      · exact hfree 0 (by decide) hnext
      · exact hfree hnext
    · intro shiftIdx htype hworks i hi hi' _ hnext
      have hfree := hrest shiftIdx (h.lt_of_works hworks) hworks
      rw [if_pos htype] at hfree
      obtain ⟨i, rfl⟩ := Nat.exists_eq_add_one_of_ne_zero (Nat.ne_zero_of_lt hi)
      exact hfree i hi' hnext
  · rintro ⟨hconsecutive, hafterNight⟩ shiftIdx _ hworks
    split_ifs with htype
    · intro i hi hnext
      exact hafterNight shiftIdx htype hworks (i + 1) (by omega) (by omega)
        (h.lt_of_works hnext) hnext
    · exact fun hnext => hconsecutive shiftIdx (h.lt_of_works hnext) ⟨hworks, hnext⟩

/-- What the three loops charge for, put together. -/
theorem validRoster_iff (h : Shaped par schedule) (hday : par.shiftsPerDay = 3) :
    ((∀ shiftIdx ∈ List.range par.shiftsPerWeek,
        required shiftIdx ≤ staff par.numPeople schedule shiftIdx) ∧
      (∀ p ∈ List.range par.numPeople, ∀ shiftIdx ∈ List.range par.shiftsPerWeek,
        Rested par schedule p shiftIdx) ∧
      ∀ shiftIdx ∈ List.range par.shiftsPerWeek,
        staff par.numPeople schedule shiftIdx ≤ required shiftIdx) ↔
    ValidRoster par schedule := by
  simp only [List.mem_range]
  constructor
  · rintro ⟨hmin, hrest, hmax⟩
    obtain ⟨hmorning, hafternoon, hnight⟩ := staffed_iff.mp fun shiftIdx hshift =>
      (hmax shiftIdx hshift).antisymm (hmin shiftIdx hshift)
    exact ⟨hmorning, hafternoon, hnight, fun p hp => ((rested_iff h hday p).mp (hrest p hp)).1,
      fun p hp => ((rested_iff h hday p).mp (hrest p hp)).2⟩
  · rintro ⟨hmorning, hafternoon, hnight, hconsecutive, hafterNight⟩
    have hstaff := staffed_iff.mpr ⟨hmorning, hafternoon, hnight⟩
    exact ⟨fun shiftIdx hshift => (hstaff shiftIdx hshift).ge,
      fun p hp => (rested_iff h hday p).mpr ⟨hconsecutive p hp, hafterNight p hp⟩,
      fun shiftIdx hshift => (hstaff shiftIdx hshift).le⟩

end Charges

/-- Every schedule of the right shape has a fitness, which is never positive, and zero exactly
for a valid roster. -/
theorem evaluateFitness_eq_zero_iff {par : Parameters} {schedule : List Row}
    (h : Shaped par schedule) (hweek : par.shiftsPerWeek ≤ 21) (hday : par.shiftsPerDay = 3) :
    ∃ fitness, evaluateFitness par schedule = some fitness ∧ fitness ≤ 0 ∧
      (fitness = 0 ↔ ValidRoster par schedule) := by
  obtain ⟨fitness, hfitness, hle, heq⟩ := h.evaluateFitness_spec hweek
  exact ⟨fitness, hfitness, hle, heq.trans (validRoster_iff h hday)⟩

theorem evaluateFitness_eq_zero_iff_one_day :
    ∃ fitness, evaluateFitness ⟨1, 4, 3, 3, 0, 0⟩ [[1, 0, 0], [0, 1, 0], [0, 1, 0], [0, 0, 1]] =
        some fitness ∧ fitness ≤ 0 ∧
      (fitness = 0 ↔
        ValidRoster ⟨1, 4, 3, 3, 0, 0⟩ [[1, 0, 0], [0, 1, 0], [0, 1, 0], [0, 0, 1]]) :=
  evaluateFitness_eq_zero_iff ⟨rfl, by decide, by decide⟩ (by decide) rfl

example : evaluateFitness ⟨1, 4, 3, 3, 0, 0⟩ [[1, 0, 0], [0, 1, 0], [0, 1, 0], [0, 0, 1]] =
    some 0 := by decide

end OlinCourses.Genetic
