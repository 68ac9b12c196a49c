import Mathlib.Algebra.BigOperators.Fin
import Mathlib.Algebra.Order.Floor.Ring
import Mathlib.Data.Rat.Floor
import Mathlib.Tactic
import OlinCourses.Lib.Search

/-!
# Branch and bound

`branch_and_bound` of the integer-programming notebook in exact arithmetic.
`linprog` is a parameter; the recursion is bounded by fuel.
-/
namespace OlinCourses.IntegerProgramming
open Search

abbrev Vec (n : ℕ) := Fin n → ℚ

/-- `linprog(d, A, b, bounds)`: a minimiser of `d` and its value, or no success. -/
abbrev Linprog (n m : ℕ) :=
  Vec n → (Fin m → Vec n) → Vec m → Vec n → Vec n → Option (Vec n × ℚ)

/-- Python's `round`: the nearest integer, ties to even. -/
def pyRound (x : ℚ) : ℤ :=
  if x - ⌊x⌋ < 1 / 2 then ⌊x⌋
  else if 1 / 2 < x - ⌊x⌋ then ⌊x⌋ + 1
  else if ⌊x⌋ % 2 = 0 then ⌊x⌋ else ⌊x⌋ + 1

/-- `abs(x - round(x))`. -/
def difference (x : ℚ) : ℚ := |x - pyRound x|

def allIntegers {n : ℕ} (x : Vec n) : Bool :=
  (List.finRange n).all fun i => !decide (1 / 10 ^ 10 ≤ difference (x i))

def maxDifferenceIdx {n : ℕ} [NeZero n] (x : Vec n) : Fin n :=
  (List.finRange n).foldl
    (fun idx i => if difference (x i) > difference (x idx) then i else idx) 0

/-- `ub_copy`: a missing upper bound is read as `1e10`. -/
def ubCopy {n : ℕ} (ub : Fin n → Option ℚ) : Vec n := fun i => (ub i).getD (10 ^ 10)

section Source

variable {n m : ℕ} [NeZero n] (linprog : Linprog n m) (c : Vec n) (A : Fin m → Vec n) (b : Vec m)

/-- The outer `none` is a recursion deeper than the fuel. -/
def branchAndBound : ℕ → Vec n → (Fin n → Option ℚ) → Option (Option (Vec n) × WithBot ℚ)
  | 0, _, _ => none
  | fuel + 1, lb, ub =>
    match linprog (-c) A b lb (ubCopy ub) with
    | none => some (none, ⊥)
    | some (x, objective) =>
      if allIntegers x then some (some x, ((-objective : ℚ) : WithBot ℚ))
      else do
        let idx := maxDifferenceIdx x
        let leftUb := Function.update (ubCopy ub) idx (⌊x idx⌋ : ℚ)
        let rightLb := Function.update lb idx (⌈x idx⌉ : ℚ)
        let (xLeft, zLeft) ← branchAndBound fuel lb (fun i => some (leftUb i))
        let (xRight, zRight) ← branchAndBound fuel rightLb (fun i => some (ubCopy ub i))
        match xLeft, xRight with
        | none, none => some (none, ⊥)
        | none, some _ => some (xRight, zRight)
        | some _, none => some (xLeft, zLeft)
        | some _, some _ => if zLeft < zRight then some (xLeft, zLeft) else some (xRight, zRight)

/-- Lower and upper bounds of the variables. -/
abbrev Box (n : ℕ) := Vec n × Vec n

/-- What one call finds in its box. -/
def probe (box : Box n) : Probe (Box n) (Vec n × ℚ) :=
  match linprog (-c) A b box.1 box.2 with
  | none => .empty
  | some (x, objective) =>
    if allIntegers x then .leaf (x, -objective)
    else .branch
      (box.1, Function.update box.2 (maxDifferenceIdx x) (⌊x (maxDifferenceIdx x)⌋ : ℚ))
      (Function.update box.1 (maxDifferenceIdx x) (⌈x (maxDifferenceIdx x)⌉ : ℚ), box.2)

section Probes

/-- One call: no solution, a solution that is accepted, or one to branch on. -/
theorem probe_cases (box : Box n) :
    (linprog (-c) A b box.1 box.2 = none ∧ probe linprog c A b box = .empty) ∨
      ∃ x objective, linprog (-c) A b box.1 box.2 = some (x, objective) ∧
        ((allIntegers x = true ∧ probe linprog c A b box = .leaf (x, -objective)) ∨
          (allIntegers x = false ∧ probe linprog c A b box = .branch
            (box.1, Function.update box.2 (maxDifferenceIdx x) (⌊x (maxDifferenceIdx x)⌋ : ℚ))
            (Function.update box.1 (maxDifferenceIdx x) (⌈x (maxDifferenceIdx x)⌉ : ℚ),
              box.2))) := by
  unfold probe
  cases linprog (-c) A b box.1 box.2 with
  | none => exact Or.inl ⟨rfl, rfl⟩
  | some solution =>
    obtain ⟨x, objective⟩ := solution
    refine Or.inr ⟨x, objective, rfl, ?_⟩
    cases hall : allIntegers x with
    | true => exact Or.inl ⟨rfl, by simp only [hall, if_true]⟩
    | false => exact Or.inr ⟨rfl, by simp only [hall, if_false, Bool.false_eq_true]⟩

variable {linprog c A b} {box : Box n}

theorem probe_eq_empty (h : probe linprog c A b box = .empty) :
    linprog (-c) A b box.1 box.2 = none := by
  obtain ⟨hlp, -⟩ | ⟨x, objective, -, ⟨-, hprobe⟩ | ⟨-, hprobe⟩⟩ := probe_cases linprog c A b box
  · exact hlp
  · cases hprobe.symm.trans h
  · cases hprobe.symm.trans h

theorem probe_eq_leaf {x : Vec n} {z : ℚ} (h : probe linprog c A b box = .leaf (x, z)) :
    ∃ objective, linprog (-c) A b box.1 box.2 = some (x, objective) ∧
      allIntegers x = true ∧ z = -objective := by
  obtain ⟨-, hprobe⟩ | ⟨x, objective, hlp, ⟨hall, hprobe⟩ | ⟨-, hprobe⟩⟩ :=
    probe_cases linprog c A b box
  · cases hprobe.symm.trans h
  · cases hprobe.symm.trans h
    exact ⟨objective, hlp, hall, rfl⟩
  · cases hprobe.symm.trans h

theorem probe_eq_branch {left right : Box n} (h : probe linprog c A b box = .branch left right) :
    ∃ x objective, linprog (-c) A b box.1 box.2 = some (x, objective) ∧
      allIntegers x = false ∧
      left = (box.1, Function.update box.2 (maxDifferenceIdx x) (⌊x (maxDifferenceIdx x)⌋ : ℚ)) ∧
      right = (Function.update box.1 (maxDifferenceIdx x) (⌈x (maxDifferenceIdx x)⌉ : ℚ),
        box.2) := by
  obtain ⟨-, hprobe⟩ | ⟨x, objective, hlp, ⟨-, hprobe⟩ | ⟨hall, hprobe⟩⟩ :=
    probe_cases linprog c A b box
  · cases hprobe.symm.trans h
  · cases hprobe.symm.trans h
  · cases hprobe.symm.trans h
    exact ⟨x, objective, hlp, hall, rfl, rfl⟩

end Probes

omit [NeZero n] in
/-- The solution that the last comparison returns. -/
def pick (left right : Vec n × ℚ) : Vec n × ℚ := if left.2 < right.2 then left else right

omit [NeZero n] in
/-- A result of the search as a pair of the source. -/
def toPair : Option (Vec n × ℚ) → Option (Vec n) × WithBot ℚ
  | none => (none, ⊥)
  | some (x, z) => (some x, (z : WithBot ℚ))

omit [NeZero n] in
theorem pick_eq_or (left right : Vec n × ℚ) : pick left right = left ∨ pick left right = right := by
  unfold pick
  split_ifs
  · exact Or.inl rfl
  · exact Or.inr rfl

theorem branchAndBound_eq_search (fuel : ℕ) (lb : Vec n) (ub : Fin n → Option ℚ) :
    branchAndBound linprog c A b fuel lb ub =
      (search (probe linprog c A b) pick fuel (lb, ubCopy ub)).map toPair := by
  induction fuel generalizing lb ub with
  | zero => rfl
  | succ fuel ih =>
    rw [branchAndBound, search, probe]
    cases hlp : linprog (-c) A b lb (ubCopy ub) with
    | none => rfl
    | some solution =>
      obtain ⟨x, objective⟩ := solution
      by_cases hall : allIntegers x = true
      · simp only [hall, if_true]
        rfl
      · have hsome : ∀ u : Vec n, ubCopy (fun i => some (u i)) = u := fun u => rfl
        simp only [hall, if_false, ih, hsome, Bool.false_eq_true]
        cases search (probe linprog c A b) pick fuel
            (lb, Function.update (ubCopy ub) (maxDifferenceIdx x)
              (⌊x (maxDifferenceIdx x)⌋ : ℚ)) with
        | none => rfl
        | some left =>
          cases search (probe linprog c A b) pick fuel
              (Function.update lb (maxDifferenceIdx x)
                (⌈x (maxDifferenceIdx x)⌉ : ℚ), ubCopy ub) with
          | none => rfl
          | some right =>
            cases left with
            | none => cases right <;> rfl
            | some l =>
              cases right with
              | none => rfl
              | some r =>
                simp only [Option.map_some, Option.bind_eq_bind, Option.bind_some, toPair, merge,
                  pick, WithBot.coe_lt_coe, Option.pure_def]
                split_ifs <;> rfl

end Source

end OlinCourses.IntegerProgramming
