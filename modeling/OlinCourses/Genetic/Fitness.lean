import OlinCourses.Genetic.Schedule

/-!
# Fitness

`evaluate_fitness` of the scheduling notebook, which only reads, on the rows of a
schedule. It fails on no schedule of the right shape, and its penalties never cancel.
-/
namespace OlinCourses.Genetic
open Loop

def SHIFTS_PER_DAY : ℕ := 3
def SHIFTS_PER_WEEK : ℕ := 21
def HARD_PENALTY : ℤ := -2
def SOFT_PENALTY : ℤ := -1

/-- Day and shift type; `none` is the `ValueError`. -/
def getShiftDetails (shiftIndex : ℕ) : Option (ℕ × ℕ) :=
  if shiftIndex < SHIFTS_PER_WEEK then
    some (shiftIndex / SHIFTS_PER_DAY, shiftIndex % SHIFTS_PER_DAY)
  else none

/-- `min_controllers`. -/
def minControllers : ℕ → Option ℤ
  | 0 => some 1
  | 1 => some 2
  | 2 => some 1
  | _ => none

section Source

variable (par : Parameters) (schedule : List Row)

/-- `schedule[p][shift_idx]`. -/
def entry (p shiftIdx : ℕ) : Option ℤ := do
  let row ← schedule[p]?
  row[shiftIdx]?

def controllersOnShift (shiftIdx : ℕ) : Option ℤ :=
  (List.range par.numPeople).foldlM (fun sum p => do return sum + (← entry schedule p shiftIdx)) 0

/-- Hard constraint 1, for one shift. -/
def understaffed (fitness : ℤ) (shiftIdx : ℕ) : Option ℤ := do
  let (_, shiftType) ← getShiftDetails shiftIdx
  let controllers ← controllersOnShift par schedule shiftIdx
  let required ← minControllers shiftType
  if controllers < required then return fitness + HARD_PENALTY * (required - controllers)
  else return fitness

/-- `next_shift_idx < shifts_per_week and schedule[p][next_shift_idx] == 1`. -/
def worksNext (p nextShiftIdx : ℕ) : Option Bool :=
  if nextShiftIdx < par.shiftsPerWeek then do return (← entry schedule p nextShiftIdx) == 1
  else some false

/-- One of the shifts behind a night shift; the flag is `violation_found_for_night_shift`. -/
def nightRest (p shiftIdx : ℕ) (s : ℤ × Bool) (i : ℕ) : Option (ℤ × Bool) := do
  if ← worksNext par schedule p (shiftIdx + (i + 1)) then
    if s.2 then return s else return (s.1 + HARD_PENALTY, true)
  else return s

/-- Hard constraint 2, for one person and shift. -/
def unrested (p : ℕ) (fitness : ℤ) (shiftIdx : ℕ) : Option ℤ := do
  if (← entry schedule p shiftIdx) == 1 then
    let (_, shiftType) ← getShiftDetails shiftIdx
    if shiftType = 0 ∨ shiftType = 1 then
      if ← worksNext par schedule p (shiftIdx + 1) then return fitness + HARD_PENALTY
      else return fitness
    else if shiftType = 2 then
      let night ← (List.range par.shiftsPerDay).foldlM (nightRest par schedule p shiftIdx)
        (fitness, false)
      return night.1
    else return fitness
  else return fitness

/-- The soft constraint, for one shift. -/
def overstaffed (fitness : ℤ) (shiftIdx : ℕ) : Option ℤ := do
  let (_, shiftType) ← getShiftDetails shiftIdx
  let controllers ← controllersOnShift par schedule shiftIdx
  let required ← minControllers shiftType
  if controllers > required then return fitness + SOFT_PENALTY * (controllers - required)
  else return fitness

def evaluateFitness : Option ℤ := do
  let fitness ← (List.range par.shiftsPerWeek).foldlM (understaffed par schedule) 0
  let fitness ← (List.range par.numPeople).foldlM (fun fitness p =>
    (List.range par.shiftsPerWeek).foldlM (unrested par schedule p) fitness) fitness
  (List.range par.shiftsPerWeek).foldlM (overstaffed par schedule) fitness

end Source

def Works (schedule : List Row) (p shiftIdx : ℕ) : Prop := entry schedule p shiftIdx = some 1

instance (schedule : List Row) (p shiftIdx : ℕ) : Decidable (Works schedule p shiftIdx) :=
  inferInstanceAs (Decidable (_ = _))

/-- How many of the people work a shift. -/
def staff (numPeople : ℕ) (schedule : List Row) (shiftIdx : ℕ) : ℕ :=
  (List.range numPeople).countP fun p => decide (Works schedule p shiftIdx)

/-- After a shift that they work, a person is free for the next one, and after a night shift
for as many as a day has. -/
def Rested (par : Parameters) (schedule : List Row) (p shiftIdx : ℕ) : Prop :=
  Works schedule p shiftIdx →
    if shiftIdx % 3 = 2 then ∀ i < par.shiftsPerDay, ¬ Works schedule p (shiftIdx + (i + 1))
    else ¬ Works schedule p (shiftIdx + 1)

/-- `min_controllers[shift_type]` of a shift. -/
def required (shiftIdx : ℕ) : ℕ := if shiftIdx % 3 = 1 then 2 else 1

theorem minControllers_mod (shiftIdx : ℕ) :
    minControllers (shiftIdx % SHIFTS_PER_DAY) = some (required shiftIdx : ℤ) := by
  have hmod : shiftIdx % 3 < 3 := Nat.mod_lt _ (by decide)
  rw [SHIFTS_PER_DAY, required]
  interval_cases shiftIdx % 3
  · rfl
  · rfl
  · rfl

theorem getShiftDetails_eq {shiftIdx : ℕ} (h : shiftIdx < SHIFTS_PER_WEEK) :
    getShiftDetails shiftIdx = some (shiftIdx / SHIFTS_PER_DAY, shiftIdx % SHIFTS_PER_DAY) :=
  if_pos h

variable {par : Parameters} {schedule : List Row}

namespace Shaped

variable (h : Shaped par schedule)

include h

theorem of_entry_eq_some {p shiftIdx : ℕ} {x : ℤ} (hx : entry schedule p shiftIdx = some x) :
    shiftIdx < par.shiftsPerWeek ∧ (x = 0 ∨ x = 1) := by
  simp only [entry, Option.bind_eq_bind, Option.bind_eq_some_iff] at hx
  obtain ⟨row, hrow, hx⟩ := hx
  have hmem := List.mem_of_getElem? hrow
  obtain ⟨hshift, -⟩ := List.getElem?_eq_some_iff.mp hx
  rw [h.shifts row hmem] at hshift
  exact ⟨hshift, h.entries row hmem x (List.mem_of_getElem? hx)⟩

theorem entry_eq {p shiftIdx : ℕ} (hp : p < par.numPeople)
    (hshift : shiftIdx < par.shiftsPerWeek) :
    entry schedule p shiftIdx = some (if Works schedule p shiftIdx then 1 else 0) := by
  have hp' : p < schedule.length := h.people ▸ hp
  have hshift' : shiftIdx < schedule[p].length := by
    rw [h.shifts _ (List.getElem_mem hp')]
    exact hshift
  have hx : entry schedule p shiftIdx = some schedule[p][shiftIdx] := by
    simp [entry, hp', hshift']
  obtain ⟨-, hbit | hbit⟩ := h.of_entry_eq_some hx
  · simp [Works, hx, hbit]
  · simp [Works, hx, hbit]

/-- Beyond the week nobody works. -/
theorem lt_of_works {p shiftIdx : ℕ} (hworks : Works schedule p shiftIdx) :
    shiftIdx < par.shiftsPerWeek := (h.of_entry_eq_some hworks).1

theorem controllersOnShift_eq {shiftIdx : ℕ} (hshift : shiftIdx < par.shiftsPerWeek) :
    controllersOnShift par schedule shiftIdx =
      some (staff par.numPeople schedule shiftIdx : ℤ) := by
  have hsum : ∀ (people : List ℕ) (sum : ℤ), (∀ p ∈ people, p < par.numPeople) →
      people.foldlM (fun sum p => do return sum + (← entry schedule p shiftIdx)) sum =
        some (sum + people.countP fun p => decide (Works schedule p shiftIdx)) := by
    intro people sum hpeople
    induction people generalizing sum with
    | nil => simp
    | cons p people ih =>
      have hp := h.entry_eq (hpeople p List.mem_cons_self) hshift
      have hrest := fun sum => ih sum fun p' hp' => hpeople p' (List.mem_cons_of_mem p hp')
      simp only [List.foldlM_cons, hp, Option.bind_eq_bind, Option.bind_some, Option.pure_def,
        List.countP_cons] at hrest ⊢
      rw [hrest]
      by_cases hworks : Works schedule p shiftIdx
      · simp [hworks, Int.add_assoc, Int.add_comm 1]
      · simp [hworks]
  rw [controllersOnShift, hsum _ 0 fun p hp => List.mem_range.mp hp, Int.zero_add]
  rfl

theorem worksNext_eq {p : ℕ} (hp : p < par.numPeople) (nextShiftIdx : ℕ) :
    worksNext par schedule p nextShiftIdx = some (decide (Works schedule p nextShiftIdx)) := by
  rw [worksNext]
  split_ifs with hnext
  · rw [h.entry_eq hp hnext]
    split_ifs with hworks
    · simp [hworks]
    · simp [hworks]
  · simp [mt h.lt_of_works hnext]

theorem understaffed_charges {shiftIdx : ℕ} (hshift : shiftIdx < par.shiftsPerWeek)
    (hweek : par.shiftsPerWeek ≤ SHIFTS_PER_WEEK) :
    Charges (fun fitness => understaffed par schedule fitness shiftIdx)
      (required shiftIdx ≤ staff par.numPeople schedule shiftIdx) := by
  intro fitness
  simp only [understaffed, getShiftDetails_eq (hshift.trans_le hweek), minControllers_mod,
    h.controllersOnShift_eq hshift, Option.bind_eq_bind, Option.bind_some, Option.pure_def,
    HARD_PENALTY]
  split_ifs with hless
  · exact ⟨_, rfl, by omega, by omega⟩
  · exact ⟨_, rfl, le_rfl, by omega⟩

theorem overstaffed_charges {shiftIdx : ℕ} (hshift : shiftIdx < par.shiftsPerWeek)
    (hweek : par.shiftsPerWeek ≤ SHIFTS_PER_WEEK) :
    Charges (fun fitness => overstaffed par schedule fitness shiftIdx)
      (staff par.numPeople schedule shiftIdx ≤ required shiftIdx) := by
  intro fitness
  simp only [overstaffed, getShiftDetails_eq (hshift.trans_le hweek), minControllers_mod,
    h.controllersOnShift_eq hshift, Option.bind_eq_bind, Option.bind_some, Option.pure_def,
    SOFT_PENALTY]
  split_ifs with hmore
  · exact ⟨_, rfl, by omega, by omega⟩
  · exact ⟨_, rfl, le_rfl, by omega⟩

/-- The flag makes a night shift charge once, however many of the shifts after it are worked. -/
theorem foldlM_nightRest {p : ℕ} (hp : p < par.numPeople) (shiftIdx : ℕ) (after : List ℕ)
    (fitness : ℤ) (flag : Bool) :
    after.foldlM (nightRest par schedule p shiftIdx) (fitness, flag) =
      some (if flag = false ∧ ∃ i ∈ after, Works schedule p (shiftIdx + (i + 1)) then
          (fitness + HARD_PENALTY, true)
        else (fitness, flag)) := by
  induction after generalizing fitness flag with
  | nil => simp
  | cons i after ih =>
    have hstep : nightRest par schedule p shiftIdx (fitness, flag) i =
        some (if flag = false ∧ Works schedule p (shiftIdx + (i + 1)) then
            (fitness + HARD_PENALTY, true)
          else (fitness, flag)) := by
      simp only [nightRest, h.worksNext_eq hp, Option.bind_eq_bind, Option.bind_some,
        Option.pure_def, decide_eq_true_eq]
      by_cases hworks : Works schedule p (shiftIdx + (i + 1))
      · cases flag with
        | false => simp [hworks]
        | true => simp [hworks]
      · simp [hworks]
    rw [List.foldlM_cons, hstep, Option.bind_eq_bind, Option.bind_some]
    by_cases hcharge : flag = false ∧ Works schedule p (shiftIdx + (i + 1))
    · obtain ⟨hflag, hworks⟩ := hcharge
      simp [hflag, hworks, ih]
    · have hiff : (flag = false ∧ ∃ j ∈ after, Works schedule p (shiftIdx + (j + 1))) ↔
          flag = false ∧ ∃ j ∈ i :: after, Works schedule p (shiftIdx + (j + 1)) := by
        rw [List.exists_mem_cons_iff, and_or_left, or_iff_right hcharge]
      rw [if_neg hcharge, ih]
      exact congrArg some (if_congr hiff rfl rfl)

theorem unrested_charges {p shiftIdx : ℕ} (hp : p < par.numPeople)
    (hshift : shiftIdx < par.shiftsPerWeek) (hweek : par.shiftsPerWeek ≤ SHIFTS_PER_WEEK) :
    Charges (fun fitness => unrested par schedule p fitness shiftIdx)
      (Rested par schedule p shiftIdx) := by
  intro fitness
  have hmod : shiftIdx % 3 < 3 := Nat.mod_lt _ (by decide)
  simp only [unrested, Rested, h.entry_eq hp hshift, getShiftDetails_eq (hshift.trans_le hweek),
    h.worksNext_eq hp, h.foldlM_nightRest hp, Option.bind_eq_bind, Option.bind_some,
    Option.pure_def, HARD_PENALTY, SHIFTS_PER_DAY]
  by_cases hworks : Works schedule p shiftIdx
  · by_cases hnight : shiftIdx % 3 = 2
    · have hday : ¬ ((2 : ℕ) = 0 ∨ (2 : ℕ) = 1) := by decide
      simp only [hworks, hnight, hday, beq_self_eq_true, if_true, if_false, true_and]
      by_cases hbusy : ∃ i ∈ List.range par.shiftsPerDay, Works schedule p (shiftIdx + (i + 1))
      · simp only [hbusy, if_true]
        obtain ⟨i, hi, hnext⟩ := hbusy
        exact ⟨_, rfl, by omega, by simpa using ⟨i, List.mem_range.mp hi, hnext⟩⟩
      · simp only [hbusy, if_false]
        push Not at hbusy
        simp only [List.mem_range] at hbusy
        exact ⟨_, rfl, le_rfl, by simpa using hbusy⟩
    · have hday : shiftIdx % 3 = 0 ∨ shiftIdx % 3 = 1 := by omega
      simp only [hworks, hnight, hday, if_true, if_false]
      by_cases hnext : Works schedule p (shiftIdx + 1)
      · exact ⟨fitness + -2, by simp [hnext], by omega, by simp [hnext]⟩
      · exact ⟨fitness, by simp [hnext], le_rfl, by simp [hnext]⟩
  · exact ⟨fitness, by simp [hworks], le_rfl, by simp [hworks]⟩

/-- A schedule of the right shape has a fitness, never positive, and zero when there is nothing
to charge for. -/
theorem evaluateFitness_spec (hweek : par.shiftsPerWeek ≤ SHIFTS_PER_WEEK) :
    ∃ fitness, evaluateFitness par schedule = some fitness ∧ fitness ≤ 0 ∧
      (fitness = 0 ↔
        (∀ shiftIdx ∈ List.range par.shiftsPerWeek,
          required shiftIdx ≤ staff par.numPeople schedule shiftIdx) ∧
        (∀ p ∈ List.range par.numPeople, ∀ shiftIdx ∈ List.range par.shiftsPerWeek,
          Rested par schedule p shiftIdx) ∧
        ∀ shiftIdx ∈ List.range par.shiftsPerWeek,
          staff par.numPeople schedule shiftIdx ≤ required shiftIdx) := by
  have hunder := Charges.foldlM fun shiftIdx hshift =>
    h.understaffed_charges (List.mem_range.mp hshift) hweek
  have hrest := Charges.foldlM fun p hp => Charges.foldlM fun shiftIdx hshift =>
    h.unrested_charges (List.mem_range.mp hp) (List.mem_range.mp hshift) hweek
  have hover := Charges.foldlM fun shiftIdx hshift =>
    h.overstaffed_charges (List.mem_range.mp hshift) hweek
  exact hunder.bind (hrest.bind hover) 0

theorem exists_fitness (hweek : par.shiftsPerWeek ≤ SHIFTS_PER_WEEK) :
    ∃ fitness, evaluateFitness par schedule = some fitness := by
  obtain ⟨fitness, hfitness, -⟩ := h.evaluateFitness_spec hweek
  exact ⟨fitness, hfitness⟩

end Shaped

/-- In a longer week some shift has no details. -/
theorem evaluateFitness_eq_none (hweek : SHIFTS_PER_WEEK < par.shiftsPerWeek)
    (schedule : List Row) : evaluateFitness par schedule = none := by
  have hloop : (List.range par.shiftsPerWeek).foldlM (understaffed par schedule) 0 = none := by
    refine foldlM_eq_none (List.mem_range.mpr hweek) (fun fitness => ?_) 0
    rw [understaffed, getShiftDetails, if_neg (lt_irrefl SHIFTS_PER_WEEK), Option.bind_eq_bind,
      Option.bind_none]
  rw [evaluateFitness, hloop, Option.bind_eq_bind, Option.bind_none]

end OlinCourses.Genetic
