import Mathlib.Algebra.Order.BigOperators.Group.List
import Mathlib.Data.List.Sort
import Mathlib.Data.Multiset.AddSub
import Mathlib.Tactic

/-!
# Truncation to the greatest values

The `n` greatest of a list of values, as a relation; sorting in descending order and
cutting off behind `n` computes them. Truncation keeps the maximum and no `n` of the
values have a greater sum.
-/
namespace OlinCourses.Truncation

variable {α : Type*} [LinearOrder α]

/-- `ys` are the `n` greatest of `xs`: what is cut off lies below. -/
def IsTop (n : ℕ) (xs ys : List α) : Prop :=
  ys.length = n ∧ ∃ rest, (ys ++ rest).Perm xs ∧ ∀ y ∈ ys, ∀ r ∈ rest, r ≤ y

variable {n : ℕ} {xs ys : List α}

theorem isTop_take {sorted : List α} (hperm : sorted.Perm xs)
    (hsorted : sorted.Pairwise (· ≥ ·)) (hn : n ≤ xs.length) : IsTop n xs (sorted.take n) := by
  refine ⟨by rw [List.length_take, hperm.length_eq, min_eq_left hn], sorted.drop n, ?_, ?_⟩
  · rwa [List.take_append_drop]
  · rw [← List.take_append_drop n sorted, List.pairwise_append] at hsorted
    exact hsorted.2.2

/-- Sorting by a key in descending order and cutting off. -/
theorem isTop_insertionSort {ι : Type*} (key : ι → α) (indices : List ι)
    (hn : n ≤ indices.length) :
    IsTop n (indices.map key)
      (((indices.insertionSort fun i j => key i ≥ key j).take n).map key) := by
  have htotal : Std.Total fun i j => key i ≥ key j := ⟨fun i j => le_total (key j) (key i)⟩
  have htrans : IsTrans ι fun i j => key i ≥ key j := ⟨fun i j k hij hjk => hjk.trans hij⟩
  rw [List.map_take]
  refine isTop_take ((List.perm_insertionSort _ indices).map key) ?_ (by rwa [List.length_map])
  rw [List.pairwise_map]
  exact List.pairwise_insertionSort (fun i j => key i ≥ key j) indices

namespace IsTop

theorem subset (h : IsTop n xs ys) {y : α} (hy : y ∈ ys) : y ∈ xs := by
  obtain ⟨-, rest, hperm, -⟩ := h
  exact hperm.subset (List.mem_append_left rest hy)

/-- Every value is kept or lies below one that is. -/
theorem exists_ge (h : IsTop n xs ys) (hn : 0 < n) {x : α} (hx : x ∈ xs) : ∃ y ∈ ys, x ≤ y := by
  obtain ⟨hlength, rest, hperm, hle⟩ := h
  obtain ⟨y, hy⟩ := List.exists_mem_of_length_pos (hlength ▸ hn)
  obtain hkept | hcut := List.mem_append.mp (hperm.symm.subset hx)
  · exact ⟨x, hkept, le_rfl⟩
  · exact ⟨y, hy, hle y hy x hcut⟩

end IsTop

section Sums

variable [AddCommMonoid α] [IsOrderedAddMonoid α]

/-- Two lists of one length, every value of the first at most every one of the second. -/
theorem sum_le_sum_of_forall_le {low high : List α} (hlength : low.length = high.length)
    (h : ∀ y ∈ high, ∀ x ∈ low, x ≤ y) : low.sum ≤ high.sum := by
  induction low generalizing high with
  | nil => rw [List.eq_nil_of_length_eq_zero hlength.symm]
  | cons x low ih =>
    cases high with
    | nil => cases hlength
    | cons y high =>
      rw [List.sum_cons, List.sum_cons]
      refine add_le_add (h y List.mem_cons_self x List.mem_cons_self) (ih ?_ ?_)
      · simpa using hlength
      · exact fun y' hy' x' hx' =>
          h y' (List.mem_cons_of_mem y hy') x' (List.mem_cons_of_mem x hx')

/-- No `n` of the values have a greater sum than the `n` greatest. -/
theorem IsTop.sum_le (h : IsTop n xs ys) {zs : List α} (hsub : zs.Subperm xs)
    (hlength : zs.length = n) : zs.sum ≤ ys.sum := by
  obtain ⟨hys, rest, hperm, hle⟩ := h
  -- The values of `zs` outside `ys` were cut off, and as many of `ys` are outside `zs`.
  obtain ⟨common, low, high, hzs, hysEq, hlow⟩ : ∃ common low high : List α,
      zs.Perm (common ++ low) ∧ ys.Perm (common ++ high) ∧ low ⊆ rest := by
    refine ⟨(zs ∩ ys : Multiset α).toList, (zs - ys : Multiset α).toList,
      (ys - zs : Multiset α).toList, ?_, ?_, ?_⟩
    · rw [← Multiset.coe_eq_coe, ← Multiset.coe_add, Multiset.coe_toList, Multiset.coe_toList,
        add_comm, Multiset.sub_add_inter]
    · rw [← Multiset.coe_eq_coe, ← Multiset.coe_add, Multiset.coe_toList, Multiset.coe_toList,
        add_comm, Multiset.inter_comm, Multiset.sub_add_inter]
    · have hcut : (zs - ys : Multiset α) ≤ rest := by
        rw [tsub_le_iff_left, Multiset.coe_add, Multiset.coe_eq_coe.mpr hperm]
        exact hsub
      exact fun x hx => Multiset.mem_of_le hcut (Multiset.mem_toList.mp hx)
  have hlen : low.length = high.length := by
    have hz := hzs.length_eq
    have hy := hysEq.length_eq
    rw [List.length_append] at hz hy
    omega
  rw [hzs.sum_eq, hysEq.sum_eq, List.sum_append, List.sum_append]
  refine add_le_add_right (sum_le_sum_of_forall_le hlen fun y hy x hx => ?_) common.sum
  exact hle y (hysEq.symm.subset (List.mem_append_right common hy)) x (hlow hx)

end Sums

end OlinCourses.Truncation
