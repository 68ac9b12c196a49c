import Mathlib.Algebra.Order.BigOperators.Group.List
import Mathlib.Algebra.Order.Field.Basic
import Mathlib.Tactic

/-!
# Equally spaced pointers

A line of length one is cut into consecutive segments, and `n` pointers stand at equal
distances on it. A segment catches as many of them as its share of `n`, up to one.
-/
namespace OlinCourses.Pointers

variable {K : Type*} [Field K] [LinearOrder K]

/-- The place of pointer `i` of `n`, for an offset `r` in units of their distance. -/
def pointer (n : ℕ) (r : K) (i : ℕ) : K := r / n + i / n

/-- The ends of consecutive segments. -/
def ends (shares : List K) : List K :=
  (List.range shares.length).map fun j => (shares.take (j + 1)).sum

/-- The first segment that does not end before `x`. -/
def locate (shares : List K) (x : K) : ℕ := (ends shares).findIdx fun e => decide (x ≤ e)

/-- The segments that catch the pointers, pointer by pointer. -/
def select (shares : List K) (n : ℕ) (r : K) : List ℕ :=
  (List.range n).map fun i => locate shares (pointer n r i)

/-- How many of the numbers below `n` are at most `y`. -/
def upTo (n : ℕ) (y : K) : ℕ := (List.range n).countP fun i : ℕ => decide ((i : K) ≤ y)

/-- Segments that make up the line. -/
structure IsShares (shares : List K) : Prop where
  nonneg : ∀ share ∈ shares, 0 ≤ share
  sum_eq_one : shares.sum = 1

variable [IsStrictOrderedRing K]

omit [IsStrictOrderedRing K] in
theorem upTo_succ (n : ℕ) (y : K) : upTo (n + 1) y = upTo n y + if (n : K) ≤ y then 1 else 0 := by
  rw [upTo, List.range_succ, List.countP_append, List.countP_singleton, upTo]
  simp only [decide_eq_true_eq]

theorem upTo_eq_of_le {n : ℕ} {y : K} (h : (n : K) ≤ y) : upTo (n + 1) y = n + 1 := by
  rw [upTo, List.countP_eq_length.mpr, List.length_range]
  intro i hi
  have hle : (i : K) ≤ n := Nat.cast_le.mpr (Nat.lt_succ_iff.mp (List.mem_range.mp hi))
  exact decide_eq_true (hle.trans h)

theorem upTo_le {y : K} (hy : -1 ≤ y) (n : ℕ) : (upTo n y : K) ≤ y + 1 := by
  induction n with
  | zero =>
    rw [upTo, List.range_zero, List.countP_nil, Nat.cast_zero]
    linarith
  | succ n ih =>
    by_cases hn : (n : K) ≤ y
    · rw [upTo_eq_of_le hn, Nat.cast_succ]
      linarith
    · rwa [upTo_succ, if_neg hn, Nat.add_zero]

theorem le_upTo {y : K} {n : ℕ} (hy : y ≤ n) : y ≤ upTo n y := by
  induction n with
  | zero => simpa [upTo] using hy
  | succ n ih =>
    by_cases hn : (n : K) ≤ y
    · rwa [upTo_eq_of_le hn]
    · rw [upTo_succ, if_neg hn, Nat.add_zero]
      exact ih (not_le.mp hn).le

section Pointer

variable {n : ℕ} {r : K}

theorem pointer_le_iff (hn : 0 < n) (i : ℕ) (x : K) : pointer n r i ≤ x ↔ (i : K) ≤ n * x - r := by
  have hpos : (0 : K) < n := Nat.cast_pos.mpr hn
  rw [pointer, ← add_div, div_le_iff₀ hpos, mul_comm x, le_sub_iff_add_le, add_comm]

theorem pointer_mono (n : ℕ) (r : K) : Monotone (pointer n r) := by
  intro i j hij
  have hcast : (i : K) ≤ j := Nat.cast_le.mpr hij
  exact add_le_add_right (div_le_div_of_nonneg_right hcast (Nat.cast_nonneg n)) _

theorem pointer_lt_one (hr : r < 1) {i : ℕ} (hi : i < n) : pointer n r i < 1 := by
  have hpos : (0 : K) < n := Nat.cast_pos.mpr (Nat.zero_lt_of_lt hi)
  have hnext : (i : K) + 1 ≤ n := by exact_mod_cast hi
  rw [pointer, ← add_div, div_lt_one hpos]
  linarith

end Pointer

section Segments

variable {shares : List K}

omit [LinearOrder K] [IsStrictOrderedRing K] in
@[simp] theorem length_ends (shares : List K) : (ends shares).length = shares.length := by
  simp [ends]

omit [LinearOrder K] [IsStrictOrderedRing K] in
theorem getElem_ends {j : ℕ} (hj : j < (ends shares).length) :
    (ends shares)[j] = (shares.take (j + 1)).sum := by
  simp [ends]

omit [LinearOrder K] [IsStrictOrderedRing K] in
theorem ends_concat (shares : List K) (share : K) :
    ends (shares ++ [share]) = ends shares ++ [shares.sum + share] := by
  have hinit : (List.range shares.length).map (fun j => ((shares ++ [share]).take (j + 1)).sum) =
      ends shares := by
    apply List.map_congr_left
    intro j hj
    rw [List.take_append_of_le_length (List.mem_range.mp hj)]
  rw [ends, List.length_append, List.length_singleton, List.range_succ, List.map_append, hinit]
  simp

omit [LinearOrder K] [IsStrictOrderedRing K] in
theorem ends_cons (share : K) (shares : List K) :
    ends (share :: shares) = share :: (ends shares).map (share + ·) := by
  simp [ends, List.range_succ_eq_map, Function.comp_def]

namespace IsShares

variable (h : IsShares shares)

include h

theorem sum_take_mono : Monotone fun j => (shares.take j).sum := by
  intro j k hjk
  have hsub : (shares.take j).Sublist (shares.take k) := List.take_sublist_take_left hjk
  exact hsub.sum_le_sum fun share hshare => h.nonneg share (List.mem_of_mem_take hshare)

theorem sum_take_nonneg (j : ℕ) : 0 ≤ (shares.take j).sum :=
  List.sum_nonneg fun share hshare => h.nonneg share (List.mem_of_mem_take hshare)

theorem sum_take_le_one (j : ℕ) : (shares.take j).sum ≤ 1 := by
  rw [← h.sum_eq_one]
  exact (List.take_sublist j shares).sum_le_sum h.nonneg

/-- The segments before an end catch what stands up to it. -/
theorem locate_le_iff {j : ℕ} (hj : j < shares.length) (x : K) :
    locate shares x ≤ j ↔ x ≤ (shares.take (j + 1)).sum := by
  have hj' : j < (ends shares).length := by rwa [length_ends]
  constructor
  · intro hle
    have hlt : locate shares x < (ends shares).length := hle.trans_lt hj'
    have hfound : x ≤ (ends shares)[locate shares x] :=
      of_decide_eq_true (List.findIdx_getElem (w := hlt))
    rw [getElem_ends] at hfound
    exact hfound.trans (h.sum_take_mono (Nat.succ_le_succ hle))
  · intro hx
    by_contra hgt
    have hnot := List.not_of_lt_findIdx (not_le.mp hgt)
    rw [getElem_ends] at hnot
    simp [hx] at hnot

/-- A segment is found from where it starts, itself not included, up to its end. -/
theorem locate_eq_iff {j : ℕ} (hj : j < shares.length) (x : K) :
    locate shares x = j ↔
      (j = 0 ∨ (shares.take j).sum < x) ∧ x ≤ (shares.take (j + 1)).sum := by
  rw [← h.locate_le_iff hj]
  cases j with
  | zero => simp
  | succ j =>
    have hbefore := h.locate_le_iff (j := j) (by omega) x
    rw [← not_le, ← hbefore]
    omega

theorem locate_lt_length {x : K} (hx : x ≤ 1) : locate shares x < shares.length := by
  have hpos : shares.length ≠ 0 := by
    intro hlen
    have hsum := h.sum_eq_one
    rw [List.eq_nil_of_length_eq_zero hlen, List.sum_nil] at hsum
    exact zero_ne_one hsum
  obtain ⟨k, hk⟩ := Nat.exists_eq_succ_of_ne_zero hpos
  have hlast : (shares.take (k + 1)).sum = 1 := by
    rw [← Nat.succ_eq_add_one, ← hk, List.take_length, h.sum_eq_one]
  have hle : locate shares x ≤ k := (h.locate_le_iff (by omega) x).mpr (hlast ▸ hx)
  omega

end IsShares

omit [IsStrictOrderedRing K] in
theorem locate_mono : Monotone (locate shares) := by
  intro x y hxy
  apply List.findIdx_le_findIdx
  intro e _ hy
  exact decide_eq_true (hxy.trans (of_decide_eq_true hy))

end Segments

section Select

variable {shares : List K} {n : ℕ} {r : K}

omit [IsStrictOrderedRing K] in
@[simp] theorem length_select (shares : List K) (n : ℕ) (r : K) :
    (select shares n r).length = n := by
  simp [select]

theorem pairwise_select (shares : List K) (n : ℕ) (r : K) :
    (select shares n r).Pairwise (· ≤ ·) := by
  rw [select, List.pairwise_map]
  exact List.pairwise_lt_range.imp fun hij => locate_mono (pointer_mono n r hij.le)

theorem lt_length_of_mem_select (h : IsShares shares) (hr : r < 1) {j : ℕ}
    (hj : j ∈ select shares n r) : j < shares.length := by
  obtain ⟨i, hi, rfl⟩ := List.mem_map.mp hj
  exact h.locate_lt_length (pointer_lt_one hr (List.mem_range.mp hi)).le

theorem count_add_countP_lt (indices : List ℕ) (j : ℕ) :
    indices.count j + indices.countP (fun k => decide (k < j)) =
      indices.countP fun k => decide (k < j + 1) := by
  induction indices with
  | nil => rfl
  | cons k indices ih =>
    rw [List.count_cons, List.countP_cons, List.countP_cons]
    simp only [beq_iff_eq, decide_eq_true_eq]
    split_ifs <;> omega

/-- The segments before an end catch the pointers up to it. -/
theorem countP_select_lt (h : IsShares shares) (hn : 0 < n) (j : ℕ) (hj : j < shares.length) :
    (select shares n r).countP (fun k => decide (k < j + 1)) =
      upTo n (n * (shares.take (j + 1)).sum - r) := by
  rw [select, List.countP_map, upTo]
  apply List.countP_congr
  intro i _
  simp only [Function.comp_apply, decide_eq_true_eq, Nat.lt_succ_iff]
  rw [h.locate_le_iff hj, pointer_le_iff hn]

theorem countP_select_bounds (h : IsShares shares) (hn : 0 < n) (hr : 0 ≤ r) (hr' : r < 1)
    (j : ℕ) (hj : j ≤ shares.length) :
    n * (shares.take j).sum - r ≤ (select shares n r).countP (fun k => decide (k < j)) ∧
      ((select shares n r).countP (fun k => decide (k < j)) : K) ≤
        n * (shares.take j).sum - r + 1 := by
  have hpos : (0 : K) < n := Nat.cast_pos.mpr hn
  cases j with
  | zero =>
    simp only [Nat.not_lt_zero, decide_false, List.countP_false, List.take_zero, List.sum_nil]
    constructor <;> simp <;> linarith
  | succ j =>
    rw [countP_select_lt h hn j hj]
    have hlow := mul_nonneg hpos.le (h.sum_take_nonneg (j + 1))
    have hhigh := mul_le_of_le_one_right hpos.le (h.sum_take_le_one (j + 1))
    exact ⟨le_upTo (by linarith), upTo_le (by linarith) n⟩

/-- A segment catches as many pointers as its share of `n`, up to one. -/
theorem count_select_bounds (h : IsShares shares) (hn : 0 < n) (hr : 0 ≤ r) (hr' : r < 1)
    {j : ℕ} (hj : j < shares.length) :
    n * shares[j] - 1 ≤ (select shares n r).count j ∧
      ((select shares n r).count j : K) ≤ n * shares[j] + 1 := by
  obtain ⟨hlow, hhigh⟩ := countP_select_bounds h hn hr hr' j hj.le
  obtain ⟨hlow', hhigh'⟩ := countP_select_bounds h hn hr hr' (j + 1) hj
  have hsplit := congrArg (Nat.cast (R := K)) (count_add_countP_lt (select shares n r) j)
  rw [Nat.cast_add] at hsplit
  rw [List.sum_take_succ shares j hj, mul_add] at hlow' hhigh'
  constructor <;> linarith

end Select

end OlinCourses.Pointers
