import OlinCourses.IntegerProgramming.Optimality

/-!
# Soundness of branch and bound

The boxes of the recursion are nested, so a solution found in any of them is one of the
problem; and no box loses an integral point.
-/
namespace OlinCourses.IntegerProgramming
open Search

section Problem

variable {n m : ℕ} [NeZero n] {linprog : Linprog n m} {c : Vec n} {A : Fin m → Vec n} {b : Vec m}

omit [NeZero n] in
theorem allIntegers_iff {x : Vec n} :
    allIntegers x = true ↔ ∀ i, difference (x i) < 1 / 10 ^ 10 := by
  simp [allIntegers]

/-- A returned point satisfies the constraints and the original bounds, is integral up to the
tolerance and has the returned value; without one there is no integral feasible point. -/
theorem branchAndBound_sound
    (hexact : ∀ lb ub, IsOptimum (-c) A b lb ub (linprog (-c) A b lb ub)) {fuel : ℕ}
    {lb : Vec n} {ub : Fin n → Option ℚ} {result : Option (Vec n)} {z : WithBot ℚ}
    (h : branchAndBound linprog c A b fuel lb ub = some (result, z)) :
    (∀ x, result = some x → Feasible A b lb (ubCopy ub) x ∧
      (∀ i, ∃ k : ℤ, |x i - k| < 1 / 10 ^ 10) ∧ z = (dot c x : ℚ)) ∧
    (result = none → z = ⊥ ∧ ∀ y, Integral y → ¬ Feasible A b lb (ubCopy ub) y) := by
  rw [branchAndBound_eq_search, Option.map_eq_some_iff] at h
  obtain ⟨found, hsearch, hpair⟩ := h
  cases found with
  | none =>
    cases hpair
    refine ⟨nofun, fun _ => ⟨rfl, ?_⟩⟩
    exact fun y hint => not_feasible_of_search_none linprog c A b hexact hsearch hint
  | some value =>
    obtain ⟨x, w⟩ := value
    cases hpair
    refine ⟨?_, nofun⟩
    rintro x' ⟨⟩
    obtain ⟨box, hleaf⟩ := search_some pick_eq_or hsearch
    obtain ⟨objective, -, hall, -⟩ := probe_eq_leaf hleaf.probe_eq
    obtain ⟨hfeasible, hvalue, -⟩ := optimum_of_probe_leaf hexact hleaf.probe_eq
    refine ⟨?_, ?_, ?_⟩
    · exact hleaf.mem_of_mem (fun y box => Feasible A b box.1 box.2 y)
        (fun box left right y hbranch hy =>
          feasible_of_branch hexact hbranch hy) hfeasible
    · exact fun i => ⟨pyRound (x i), allIntegers_iff.mp hall i⟩
    · rw [hvalue]

end Problem

theorem branchAndBound_sound_exactLinprog :
    (∀ x, some ![0, 1] = some x →
      Feasible ![![1, 2]] ![2] ![0, 0] (ubCopy ![some 1, some 10]) x ∧
      (∀ i, ∃ k : ℤ, |x i - k| < 1 / 10 ^ 10) ∧ (1 : WithBot ℚ) = (dot ![2, 1] x : ℚ)) ∧
    (some ![(0 : ℚ), 1] = none → (1 : WithBot ℚ) = ⊥ ∧ ∀ y, Integral y →
      ¬ Feasible ![![1, 2]] ![2] ![0, 0] (ubCopy ![some 1, some 10]) y) :=
  branchAndBound_sound exactLinprog_isOptimum branchAndBound_exactLinprog

end OlinCourses.IntegerProgramming
