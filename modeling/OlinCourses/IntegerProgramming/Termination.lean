import OlinCourses.IntegerProgramming.Soundness
import OlinCourses.Lib.Argmax

/-!
# Termination of branch and bound

The bounds of a box, rounded outwards, are whole numbers, and branching on a variable
that is no integer brings those of that variable closer in both halves.
-/
namespace OlinCourses.IntegerProgramming
open Search

section Rounding

theorem difference_intCast (k : ℤ) : difference k = 0 := by
  simp [difference, pyRound]

variable {n : ℕ} [NeZero n] {x : Vec n}

theorem difference_le_maxDifferenceIdx (i : Fin n) :
    difference (x i) ≤ difference (x (maxDifferenceIdx x)) :=
  Argmax.le_foldl_best (fun i => difference (x i)) _ _ i (Or.inr (List.mem_finRange i))

/-- The variable that is branched on is no integer. -/
theorem floor_lt_ceil_maxDifferenceIdx (h : allIntegers x = false) :
    ⌊x (maxDifferenceIdx x)⌋ < ⌈x (maxDifferenceIdx x)⌉ := by
  have hfrac : 0 < difference (x (maxDifferenceIdx x)) := by
    rw [← Bool.not_eq_true, allIntegers_iff] at h
    push Not at h
    obtain ⟨i, hi⟩ := h
    calc (0 : ℚ) < 1 / 10 ^ 10 := by norm_num
      _ ≤ difference (x i) := hi
      _ ≤ _ := difference_le_maxDifferenceIdx i
  rw [Int.lt_ceil]
  refine lt_of_le_of_ne (Int.floor_le _) fun heq => ?_
  rw [← heq, difference_intCast] at hfrac
  exact lt_irrefl 0 hfrac

end Rounding

section Width

variable {n : ℕ}

/-- How far apart the bounds are, rounded outwards and added up. -/
def width (box : Box n) : ℕ := ∑ i, (⌈box.2 i⌉ - ⌊box.1 i⌋).toNat

/-- Bringing the bounds of one variable closer. -/
theorem width_lt {box box' : Box n} (idx : Fin n)
    (hother : ∀ i, i ≠ idx → box'.1 i = box.1 i ∧ box'.2 i = box.2 i)
    (hidx : (⌈box'.2 idx⌉ - ⌊box'.1 idx⌋).toNat < (⌈box.2 idx⌉ - ⌊box.1 idx⌋).toNat) :
    width box' < width box := by
  apply Finset.sum_lt_sum
  · intro i _
    by_cases hi : i = idx
    · exact hi ▸ hidx.le
    · rw [(hother i hi).1, (hother i hi).2]
  · exact ⟨idx, Finset.mem_univ idx, hidx⟩

variable {m : ℕ} [NeZero n] {linprog : Linprog n m} {c : Vec n} {A : Fin m → Vec n} {b : Vec m}

theorem width_lt_of_branch (hwithin : WithinBounds linprog (-c) A b) {box left right : Box n}
    (h : probe linprog c A b box = .branch left right) :
    width left < width box ∧ width right < width box := by
  obtain ⟨x, objective, hlp, hall, rfl, rfl⟩ := probe_eq_branch h
  obtain ⟨hlower, hupper⟩ := hwithin _ _ x objective hlp (maxDifferenceIdx x)
  have hfrac := floor_lt_ceil_maxDifferenceIdx hall
  have hlower' : ⌊box.1 (maxDifferenceIdx x)⌋ ≤ ⌊x (maxDifferenceIdx x)⌋ := Int.floor_mono hlower
  have hupper' : ⌈x (maxDifferenceIdx x)⌉ ≤ ⌈box.2 (maxDifferenceIdx x)⌉ := Int.ceil_mono hupper
  constructor
  · refine width_lt (maxDifferenceIdx x) ?_ ?_
    · exact fun i hi => ⟨rfl, Function.update_of_ne hi _ _⟩
    · simp only [Function.update_self, Int.ceil_intCast]
      omega
  · refine width_lt (maxDifferenceIdx x) ?_ ?_
    · exact fun i hi => ⟨Function.update_of_ne hi _ _, rfl⟩
    · simp only [Function.update_self, Int.floor_intCast]
      omega

/-- Whatever the bounds, the recursion ends, within a depth given by their width. -/
theorem branchAndBound_terminates (hwithin : WithinBounds linprog (-c) A b) (lb : Vec n)
    (ub : Fin n → Option ℚ) : ∃ result, ∀ fuel, width (lb, ubCopy ub) < fuel →
      branchAndBound linprog c A b fuel lb ub = some result := by
  obtain ⟨result, hresult⟩ := search_total pick width
    (fun _ _ _ hbranch => width_lt_of_branch hwithin hbranch) (lb, ubCopy ub)
  refine ⟨toPair result, fun fuel hfuel => ?_⟩
  rw [branchAndBound_eq_search, hresult fuel hfuel, Option.map_some]

end Width

theorem branchAndBound_terminates_exactLinprog :
    ∃ result, ∀ fuel, width (![1 / 2, -3 / 4], ubCopy ![none, some (7 / 3)]) < fuel →
      branchAndBound exactLinprog ![2, 1] ![![1, 2]] ![2] fuel ![1 / 2, -3 / 4]
        ![none, some (7 / 3)] = some result :=
  branchAndBound_terminates (withinBounds_of_isOptimum exactLinprog_isOptimum) _ _

end OlinCourses.IntegerProgramming
