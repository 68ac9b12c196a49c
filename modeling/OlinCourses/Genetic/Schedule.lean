import Mathlib.Data.Rat.Defs
import Mathlib.Tactic
import OlinCourses.Lib.Loop
import OlinCourses.Lib.Transition

/-!
# Schedules, crossover and mutation

The operators of the scheduling notebook on a heap of rows, so that sharing of rows
between schedules is visible. Random draws are arguments; a failed index or draw is
`none`.
-/
namespace OlinCourses.Genetic
open Loop Transition

/-- A person's week, 1 for a shift that is worked. -/
abbrev Row := List ℤ

/-- The row objects by address. The lists of rows are built and then only read. -/
abbrev Heap := List Row

abbrev Schedule := List ℕ

def load (heap : Heap) (schedule : Schedule) : Option (List Row) :=
  schedule.mapM fun address => heap[address]?

/-- A schedule of new row objects. -/
def store (heap : Heap) (rows : List Row) : Heap × Schedule :=
  (heap ++ rows, List.range' heap.length rows.length)

structure Parameters where
  populationSize : ℕ
  numPeople : ℕ
  shiftsPerWeek : ℕ
  shiftsPerDay : ℕ
  mutationRate : ℚ
  crossoverRate : ℚ

/-- The draws for one child: the second parent, `random()` and the crossover point of each
person, and `random()` for each person and shift. -/
structure ChildDraws (par : Parameters) where
  mate : Fin par.populationSize
  crossoverRoll : ℚ
  crossoverPoint : ℕ → {k : ℕ // 1 ≤ k ∧ k ≤ par.shiftsPerWeek - 1}
  mutationRoll : ℕ → ℕ → ℚ

section Source

variable (par : Parameters) (draws : ChildDraws par)

def crossover (heap : Heap) (parent1 parent2 : Schedule) : Option (Heap × Schedule) := do
  let rows1 ← load heap parent1
  let rows2 ← load heap parent2
  if draws.crossoverRoll > par.crossoverRate then
    return store heap rows1
  else
    let child ← (List.range par.numPeople).mapM fun person => do
      let crossoverPoint := (draws.crossoverPoint person).val
      return (← rows1[person]?).take crossoverPoint ++ (← rows2[person]?).drop crossoverPoint
    return store heap child

/-- `schedule[person][shift] = 1 - schedule[person][shift]`. -/
def flip (heap : Heap) (schedule : Schedule) (person shift : ℕ) : Option Heap := do
  let address ← schedule[person]?
  let row ← heap[address]?
  let entry ← row[shift]?
  return heap.set address (row.set shift (1 - entry))

def mutate (heap : Heap) (schedule : Schedule) : Option (Heap × Schedule) := do
  let rows ← load heap schedule
  let (heap, mutatedSchedule) := store heap rows
  let heap ← (List.range par.numPeople).foldlM (fun heap person =>
    (List.range par.shiftsPerWeek).foldlM (fun heap shift =>
      if draws.mutationRoll person shift < par.mutationRate then
        flip heap mutatedSchedule person shift
      else some heap) heap) heap
  return (heap, mutatedSchedule)

end Source

theorem load_append {heap : Heap} {schedule : Schedule} {rows : List Row}
    (h : load heap schedule = some rows) (more : List Row) :
    load (heap ++ more) schedule = some rows := by
  rw [load, mapM_eq_some_iff] at h ⊢
  refine h.imp fun address row hrow => ?_
  obtain ⟨hlt, -⟩ := List.getElem?_eq_some_iff.mp hrow
  rw [List.getElem?_append_left hlt, hrow]

theorem load_mono {heap heap' : Heap} (h : heap <+: heap') {schedule : Schedule}
    {rows : List Row} (hload : load heap schedule = some rows) :
    load heap' schedule = some rows := by
  obtain ⟨more, rfl⟩ := h
  exact load_append hload more

theorem load_store (heap : Heap) (rows : List Row) :
    load (store heap rows).1 (store heap rows).2 = some rows := by
  rw [load, store, mapM_eq_some_iff, List.forall₂_iff_get]
  refine ⟨by simp, fun i hi hi' => ?_⟩
  simp [List.getElem?_append_right]

theorem prefix_store (heap : Heap) (rows : List Row) : heap <+: (store heap rows).1 :=
  List.prefix_append heap rows

variable {par : Parameters}

/-- A row of entries 0 and 1 for each person. -/
structure Shaped (par : Parameters) (rows : List Row) : Prop where
  people : rows.length = par.numPeople
  shifts : ∀ row ∈ rows, row.length = par.shiftsPerWeek
  entries : ∀ row ∈ rows, ∀ entry ∈ row, entry = 0 ∨ entry = 1

/-- The rows of the child that `crossover` builds. -/
def crossoverRows (draws : ChildDraws par) (rows1 rows2 : List Row) : List Row :=
  if draws.crossoverRoll > par.crossoverRate then rows1
  else (List.range par.numPeople).map fun person =>
    (rows1.getD person []).take (draws.crossoverPoint person) ++
      (rows2.getD person []).drop (draws.crossoverPoint person)

def mutateEntry (draws : ChildDraws par) (person shift : ℕ) (entry : ℤ) : ℤ :=
  if draws.mutationRoll person shift < par.mutationRate then 1 - entry else entry

/-- The rows of the copy that `mutate` flips. -/
def mutateRows (draws : ChildDraws par) (rows : List Row) : List Row :=
  rows.mapIdx fun person row => row.mapIdx (mutateEntry draws person)

theorem Shaped.getD_mem {rows : List Row} (h : Shaped par rows) {person : ℕ}
    (hperson : person < par.numPeople) : rows.getD person [] ∈ rows := by
  have hlt : person < rows.length := by rw [h.people]; exact hperson
  rw [List.getD_eq_getElem?_getD, List.getElem?_eq_getElem hlt, Option.getD_some]
  exact List.getElem_mem hlt

theorem Shaped.crossoverRows {draws : ChildDraws par} {rows1 rows2 : List Row}
    (h1 : Shaped par rows1) (h2 : Shaped par rows2) :
    Shaped par (crossoverRows draws rows1 rows2) := by
  rw [Genetic.crossoverRows]
  split
  · exact h1
  · refine ⟨by simp, fun row hrow => ?_, fun row hrow entry hentry => ?_⟩
    all_goals
      obtain ⟨person, hperson, rfl⟩ := List.mem_map.mp hrow
      rw [List.mem_range] at hperson
      have hmem1 := h1.getD_mem hperson
      have hmem2 := h2.getD_mem hperson
    · have hpoint := (draws.crossoverPoint person).2
      rw [List.length_append, List.length_take, List.length_drop, h1.shifts _ hmem1,
        h2.shifts _ hmem2]
      omega
    · obtain hleft | hright := List.mem_append.mp hentry
      · exact h1.entries _ hmem1 entry (List.mem_of_mem_take hleft)
      · exact h2.entries _ hmem2 entry (List.mem_of_mem_drop hright)

theorem Shaped.mutateRows {draws : ChildDraws par} {rows : List Row} (h : Shaped par rows) :
    Shaped par (mutateRows draws rows) := by
  refine ⟨by rw [Genetic.mutateRows, List.length_mapIdx, h.people], fun row hrow => ?_,
    fun row hrow entry hentry => ?_⟩
  all_goals
    obtain ⟨person, hperson, rfl⟩ := List.mem_mapIdx.mp hrow
    have hmem : rows[person] ∈ rows := List.getElem_mem hperson
  · rw [List.length_mapIdx, h.shifts _ hmem]
  · obtain ⟨shift, hshift, rfl⟩ := List.mem_mapIdx.mp hentry
    have hbit := h.entries _ hmem _ (List.getElem_mem hshift)
    rw [mutateEntry]
    split <;> omega

theorem crossover_spec (draws : ChildDraws par) {heap : Heap} {parent1 parent2 : Schedule}
    {rows1 rows2 : List Row} (h1 : load heap parent1 = some rows1)
    (h2 : load heap parent2 = some rows2) (hshape1 : Shaped par rows1)
    (hshape2 : Shaped par rows2) :
    crossover par draws heap parent1 parent2 =
      some (store heap (crossoverRows draws rows1 rows2)) := by
  rw [crossover, crossoverRows]
  simp only [h1, h2, Option.bind_eq_bind, Option.bind_some, Option.pure_def]
  split
  · rfl
  · have hchild : ((List.range par.numPeople).mapM fun person => (rows1[person]?).bind fun row1 =>
        (rows2[person]?).bind fun row2 => some (row1.take (draws.crossoverPoint person) ++
          row2.drop (draws.crossoverPoint person))) =
        some ((List.range par.numPeople).map fun person =>
          (rows1.getD person []).take (draws.crossoverPoint person) ++
            (rows2.getD person []).drop (draws.crossoverPoint person)) := by
      refine mapM_eq_map fun person hperson => ?_
      rw [List.mem_range] at hperson
      have hlt1 : person < rows1.length := by rw [hshape1.people]; exact hperson
      have hlt2 : person < rows2.length := by rw [hshape2.people]; exact hperson
      simp [hlt1, hlt2]
    rw [hchild, Option.bind_some]

theorem flip_append (heap : Heap) {rows : List Row} {person shift : ℕ} {row : Row} {entry : ℤ}
    (hrow : rows[person]? = some row) (hentry : row[shift]? = some entry) :
    flip (heap ++ rows) (List.range' heap.length rows.length) person shift =
      some (heap ++ rows.set person (row.set shift (1 - entry))) := by
  obtain ⟨hperson, -⟩ := List.getElem?_eq_some_iff.mp hrow
  have haddress : (List.range' heap.length rows.length)[person]? = some (heap.length + person) := by
    simp [hperson]
  have hread : (heap ++ rows)[heap.length + person]? = some row := by
    rw [List.getElem?_append_right (Nat.le_add_right _ _), Nat.add_sub_cancel_left, hrow]
  have hwrite : (heap ++ rows).set (heap.length + person) (row.set shift (1 - entry)) =
      heap ++ rows.set person (row.set shift (1 - entry)) := by
    rw [List.set_append_right _ _ (Nat.le_add_right _ _), Nat.add_sub_cancel_left]
  simp only [flip, haddress, hread, hentry, hwrite, Option.bind_eq_bind, Option.bind_some,
    Option.pure_def]

/-- One person's loop in `mutate`, on the rows that end the heap. -/
theorem foldlM_flip_row (draws : ChildDraws par) (heap rows : List Row) {person : ℕ} {row : Row}
    (hrow : rows[person]? = some row) :
    (List.range row.length).foldlM (fun heap' shift =>
        if draws.mutationRoll person shift < par.mutationRate then
          flip heap' (List.range' heap.length rows.length) person shift
        else some heap') (heap ++ rows) =
      some (heap ++ rows.set person (row.mapIdx (mutateEntry draws person))) := by
  obtain ⟨hperson, hget⟩ := List.getElem?_eq_some_iff.mp hrow
  have hround : ∀ k < row.length, ∀ heap',
      heap' = heap ++ rows.set person (replaceUpTo (mutateEntry draws person) k row) →
      ∃ heap'', (if draws.mutationRoll person k < par.mutationRate then
          flip heap' (List.range' heap.length rows.length) person k
        else some heap') = some heap'' ∧
        heap'' = heap ++ rows.set person (replaceUpTo (mutateEntry draws person) (k + 1) row) := by
    rintro k hk heap' rfl
    refine ⟨_, ?_, rfl⟩
    have hentry : row[k]? = some row[k] := List.getElem?_eq_getElem hk
    have hset := set_replaceUpTo (mutateEntry draws person) hentry
    have hdone : (replaceUpTo (mutateEntry draws person) k row)[k]? = some row[k] :=
      (getElem?_replaceUpTo _ k row).trans hentry
    by_cases hroll : draws.mutationRoll person k < par.mutationRate
    · have hflip := flip_append heap (List.getElem?_set_self hperson) hdone
      rw [List.length_set, List.set_set] at hflip
      rw [if_pos hroll, hflip, ← hset, mutateEntry, if_pos hroll]
    · obtain ⟨hlt, hval⟩ := List.getElem?_eq_some_iff.mp hdone
      rw [if_neg hroll, ← hset, mutateEntry, if_neg hroll, ← hval, List.set_getElem_self]
  obtain ⟨heap', hloop, hheap'⟩ := foldlM_range_total _ row.length hround
    (show heap ++ rows = heap ++ rows.set person (replaceUpTo (mutateEntry draws person) 0 row) by
      rw [replaceUpTo_zero, ← hget, List.set_getElem_self])
  rw [hloop, hheap', replaceUpTo_length]

theorem mutate_spec (draws : ChildDraws par) {heap : Heap} {schedule : Schedule}
    {rows : List Row} (h : load heap schedule = some rows) (hshape : Shaped par rows) :
    mutate par draws heap schedule = some (store heap (mutateRows draws rows)) := by
  have hlength : (mutateRows draws rows).length = rows.length := List.length_mapIdx
  have hround : ∀ k < rows.length, ∀ heap',
      heap' = heap ++ replaceUpTo (fun person row => row.mapIdx (mutateEntry draws person)) k rows →
      ∃ heap'', (List.range par.shiftsPerWeek).foldlM (fun heap' shift =>
          if draws.mutationRoll k shift < par.mutationRate then
            flip heap' (List.range' heap.length rows.length) k shift
          else some heap') heap' = some heap'' ∧
        heap'' = heap ++
          replaceUpTo (fun person row => row.mapIdx (mutateEntry draws person)) (k + 1) rows := by
    rintro k hk heap' rfl
    refine ⟨_, ?_, rfl⟩
    have hrow : rows[k]? = some rows[k] := List.getElem?_eq_getElem hk
    have hloop := foldlM_flip_row draws heap
      (replaceUpTo (fun person row => row.mapIdx (mutateEntry draws person)) k rows)
      ((getElem?_replaceUpTo _ k rows).trans hrow)
    rw [hshape.shifts _ (List.getElem_mem hk), length_replaceUpTo] at hloop
    rw [hloop, ← set_replaceUpTo _ hrow]
  obtain ⟨heap', hloop, hheap'⟩ := foldlM_range_total _ rows.length hround
    (by rw [replaceUpTo_zero])
  rw [replaceUpTo_length, ← mutateRows] at hheap'
  rw [mutate, ← hshape.people]
  simp only [h, store, hloop, hheap', hlength, Option.bind_eq_bind, Option.bind_some,
    Option.pure_def]

/-- `crossover` leaves every schedule unchanged. -/
theorem prefix_crossover {draws : ChildDraws par} {heap heap' : Heap}
    {parent1 parent2 child : Schedule}
    (h : crossover par draws heap parent1 parent2 = some (heap', child)) : heap <+: heap' := by
  rw [crossover] at h
  simp only [Option.bind_eq_bind, Option.bind_eq_some_iff, Option.pure_def] at h
  obtain ⟨rows1, -, rows2, -, hchild⟩ := h
  split at hchild
  · cases hchild
    exact prefix_store heap rows1
  · rw [Option.bind_eq_some_iff] at hchild
    obtain ⟨rows, -, hstore⟩ := hchild
    cases hstore
    exact prefix_store heap rows

/-- A flip in a schedule of new rows leaves the old rows unchanged. -/
theorem prefix_flip {heap heap' heap'' : Heap} (h : heap <+: heap') {n person shift : ℕ}
    (hflip : flip heap' (List.range' heap.length n) person shift = some heap'') :
    heap <+: heap'' := by
  obtain ⟨more, rfl⟩ := h
  simp only [flip, Option.bind_eq_bind, Option.bind_eq_some_iff, Option.pure_def,
    Option.some_inj] at hflip
  obtain ⟨address, haddress, row, -, entry, -, rfl⟩ := hflip
  have hle : heap.length ≤ address := (List.mem_range'_1.mp (List.mem_of_getElem? haddress)).1
  rw [List.set_append_right _ _ hle]
  exact List.prefix_append heap _

/-- `mutate` leaves every schedule unchanged. -/
theorem prefix_mutate {draws : ChildDraws par} {heap heap' : Heap} {schedule child : Schedule}
    (h : mutate par draws heap schedule = some (heap', child)) : heap <+: heap' := by
  rw [mutate] at h
  simp only [Option.bind_eq_bind, Option.bind_eq_some_iff, Option.pure_def, Option.some_inj,
    Prod.mk.injEq] at h
  obtain ⟨rows, -, heap₁, hloop, rfl, -⟩ := h
  refine run_invariant (fun heap₂ person heap₃ hheap₂ hrow => ?_) (prefix_store heap rows) hloop
  refine run_invariant (fun heap₄ shift heap₅ hheap₄ hentry => ?_) hheap₂ hrow
  split at hentry
  · exact prefix_flip hheap₄ hentry
  · rwa [← Option.some_inj.mp hentry]

end OlinCourses.Genetic
