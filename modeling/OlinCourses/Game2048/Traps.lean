import OlinCourses.Game2048.Solver
import OlinCourses.Game2048.Turns

/-!
# Traps of the solver

The notebook's heuristics, and the games that its first `run_solver` cannot leave: a
direction that does nothing scores more than every direction that does something, whatever
tile is spawned. The notebook calls this flatlining.
-/
namespace OlinCourses.Game2048
open Transition
open scoped BigOperators

def emptyTilesHeuristic (g : Board) : ℤ := (emptyTiles g.board).length

/-- High-value tiles are wanted in the top-right corner. -/
def weightMatrix : Fin 4 → Fin 4 → ℤ :=
  ![![1, 2, 4, 8], ![1, 2, 4, 4], ![1, 1, 2, 2], ![1, 1, 1, 1]]

def weightMatrixHeuristic (g : Board) : ℤ := ∑ r, ∑ c, g.board r c * weightMatrix r c

def combinedHeuristic (g : Board) : ℤ :=
  let emptyScore := emptyTilesHeuristic g
  let weightScore := weightMatrixHeuristic g
  let emptyTilesWeight := 100
  let weightMatrixWeight := 1
  emptyTilesWeight * emptyScore + weightMatrixWeight * weightScore

/-- Those of the comparison that are functions of the game. -/
def heuristics : List (Board → ℤ) :=
  [gameScore, emptyTilesHeuristic, weightMatrixHeuristic, combinedHeuristic]

theorem heuristic_nonneg {heuristic : Board → ℤ} (h : heuristic ∈ heuristics) (g : Board) :
    0 ≤ heuristic g := by
  have hempty : 0 ≤ emptyTilesHeuristic g := Int.natCast_nonneg _
  have hweight : 0 ≤ weightMatrixHeuristic g := by
    have hmatrix : ∀ r c, 0 ≤ weightMatrix r c := by decide
    exact Finset.sum_nonneg fun r _ => Finset.sum_nonneg fun c _ =>
      mul_nonneg (Int.natCast_nonneg _) (hmatrix r c)
  simp only [heuristics, List.mem_cons, List.not_mem_nil, or_false] at h
  obtain rfl | rfl | rfl | rfl := h
  · exact Int.natCast_nonneg _
  · exact hempty
  · exact hweight
  · change 0 ≤ 100 * emptyTilesHeuristic g + 1 * weightMatrixHeuristic g
    omega

theorem neg_one_le_heuristic {heuristic : Board → ℤ} (h : heuristic ∈ heuristics) (g : Board) :
    -1 ≤ heuristic g := by
  have hnonneg := heuristic_nonneg h g
  omega

theorem total_eq_zero {g : Board} (h : ∀ r c, g.board r c = 0) : total g = 0 := by
  apply Multiset.sum_eq_zero
  intro t ht
  obtain ⟨r, c, rfl⟩ := mem_cells.mp ht
  exact h r c

theorem Moves.hasValidMoves {g : Board} {direction : String} (hmem : direction ∈ directions)
    (h : Moves g direction) : hasValidMoves g = true := by
  have htile : ∃ r c, g.board r c ≠ 0 := by
    by_contra hblank
    push Not at hblank
    obtain ⟨points, hmerges, -⟩ := move_mergesTo g direction
    have hzero : (cells g.board).sum = 0 := total_eq_zero hblank
    apply h
    ext r c
    have hle := Multiset.le_sum_of_mem (mem_cells.mpr ⟨r, c, rfl⟩ :
      (move g direction).2.board r c ∈ cells (move g direction).2.board)
    rw [hmerges.sum_eq, hzero] at hle
    rw [hblank, Nat.le_zero.mp hle]
  by_contra hvalid
  exact (hasValidMoves_eq_false_iff htile).mp (Bool.eq_false_of_not_eq_true hvalid) _ hmem h

section Traps

variable {K : Type*} [LinearOrder K] [Neg K] [One K] {heuristic : Board → K}

theorem exists_best (hheuristic : ∀ g, -1 ≤ heuristic g) (g : Board)
    (draws : String → CopyDraws) :
    ∃ direction, direction ∈ evaluateGame heuristic g directions draws := by
  obtain ⟨best, hbest, hmax⟩ := Finset.exists_max_image directions.toFinset
    (score heuristic g draws) ⟨"w", by decide⟩
  simp only [List.mem_toFinset] at hbest hmax
  exact ⟨best, (mem_evaluateGame g draws best).mpr ⟨hbest, hheuristic _, hmax⟩⟩

theorem exists_pick {l : List String} {direction : String} (h : direction ∈ l) :
    ∃ pick, l[pick % l.length]? = some direction := by
  obtain ⟨i, hi, hdirection⟩ := List.getElem_of_mem h
  exact ⟨i, by rw [Nat.mod_eq_of_lt hi, List.getElem?_eq_getElem hi, hdirection]⟩

end Traps

end OlinCourses.Game2048
