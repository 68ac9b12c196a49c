import OlinCourses.IntegerProgramming.BranchAndBound

/-!
# Optimality of branch and bound

The last comparison returns the smaller of two objective values, so the result is
the least relaxed optimum among the boxes at which the branching stops. It is an optimum as
long as no comparison has a choice, and none as soon as a half misleads.
-/
namespace OlinCourses.IntegerProgramming
open Search

section Problem

variable {n m : ℕ}

def dot (c y : Vec n) : ℚ := ∑ i, c i * y i

@[simp] theorem dot_neg (c y : Vec n) : dot (-c) y = - dot c y := by
  simp [dot]

/-- `A y ≤ b` within the bounds. -/
def Feasible (A : Fin m → Vec n) (b : Vec m) (lb ub y : Vec n) : Prop :=
  (∀ j, dot (A j) y ≤ b j) ∧ ∀ i, lb i ≤ y i ∧ y i ≤ ub i

def Integral (y : Vec n) : Prop := ∀ i, ∃ k : ℤ, y i = k

/-- A correct answer to the minimisation of `d`. -/
def IsOptimum (d : Vec n) (A : Fin m → Vec n) (b : Vec m) (lb ub : Vec n) :
    Option (Vec n × ℚ) → Prop
  | none => ∀ y, ¬ Feasible A b lb ub y
  | some (x, objective) => Feasible A b lb ub x ∧ objective = dot d x ∧
      ∀ y, Feasible A b lb ub y → objective ≤ dot d y

/-- What is found for any bounds lies within them, so for contradictory bounds nothing is. -/
def WithinBounds (linprog : Linprog n m) (d : Vec n) (A : Fin m → Vec n) (b : Vec m) : Prop :=
  ∀ lb ub x objective, linprog d A b lb ub = some (x, objective) → ∀ i, lb i ≤ x i ∧ x i ≤ ub i

theorem withinBounds_of_isOptimum {linprog : Linprog n m} {d : Vec n} {A : Fin m → Vec n}
    {b : Vec m} (hexact : ∀ lb ub, IsOptimum d A b lb ub (linprog d A b lb ub)) :
    WithinBounds linprog d A b := by
  intro lb ub x objective hlp
  have hopt := hexact lb ub
  rw [hlp] at hopt
  exact hopt.1.2

variable [NeZero n] (linprog : Linprog n m) (c : Vec n) (A : Fin m → Vec n) (b : Vec m)

omit [NeZero n] in
/-- No point of the box that the source would accept as integral. -/
def Barren (box : Box n) : Prop := ∀ p, Feasible A b box.1 box.2 p → allIntegers p = false

/-- Branching as long as one half is barren, which leaves the comparison no choice. -/
inductive Narrows : Box n → Box n → Prop
  | refl (box : Box n) : Narrows box box
  | left {box left right last : Box n} (h : probe linprog c A b box = .branch left right)
      (hright : Barren A b right) (hrest : Narrows left last) : Narrows box last
  | right {box left right last : Box n} (h : probe linprog c A b box = .branch left right)
      (hleft : Barren A b left) (hrest : Narrows right last) : Narrows box last

omit [NeZero n] in
/-- There is no relaxed optimum, or one that the source accepts as integral. -/
def Settled (box : Box n) : Prop :=
  ∀ x objective, linprog (-c) A b box.1 box.2 = some (x, objective) → allIntegers x = true

section Exact

variable {linprog c A b}
  (hexact : ∀ lb ub, IsOptimum (-c) A b lb ub (linprog (-c) A b lb ub))

include hexact

theorem feasible_of_probe_empty {box : Box n} (h : probe linprog c A b box = .empty) (y : Vec n) :
    ¬ Feasible A b box.1 box.2 y := by
  have hopt := hexact box.1 box.2
  rw [probe_eq_empty h] at hopt
  exact hopt y

/-- A solved box carries a maximiser of the objective. -/
theorem optimum_of_probe_leaf {box : Box n} {x : Vec n} {z : ℚ}
    (h : probe linprog c A b box = .leaf (x, z)) :
    Feasible A b box.1 box.2 x ∧ z = dot c x ∧
      ∀ y, Feasible A b box.1 box.2 y → dot c y ≤ z := by
  obtain ⟨objective, hlp, -, rfl⟩ := probe_eq_leaf h
  have hopt := hexact box.1 box.2
  rw [hlp] at hopt
  obtain ⟨hfeasible, hvalue, hleast⟩ := hopt
  refine ⟨hfeasible, by rw [hvalue, dot_neg, neg_neg], fun y hy => ?_⟩
  have hy' := hleast y hy
  rw [dot_neg] at hy'
  linarith

end Exact

omit [NeZero n] in
theorem allIntegers_of_integral {y : Vec n} (h : Integral y) : allIntegers y = true := by
  have hzero : ∀ i, difference (y i) = 0 := by
    intro i
    obtain ⟨k, hk⟩ := h i
    rw [difference, hk, pyRound, Int.floor_intCast, sub_self, if_pos (by norm_num), sub_self,
      abs_zero]
  rw [allIntegers, List.all_eq_true]
  intro i _
  rw [hzero, Bool.not_eq_true', decide_eq_false_iff_not]
  norm_num

/-- Rounding one variable down or up keeps every integral point. -/
theorem branch_covers {box left right : Box n}
    (h : probe linprog c A b box = .branch left right) {y : Vec n} (hint : Integral y)
    (hy : Feasible A b box.1 box.2 y) :
    Feasible A b left.1 left.2 y ∨ Feasible A b right.1 right.2 y := by
  obtain ⟨x, -, -, -, rfl, rfl⟩ := probe_eq_branch h
  obtain ⟨hA, hbounds⟩ := hy
  obtain ⟨k, hk⟩ := hint (maxDifferenceIdx x)
  have hlower : box.1 ≤ y := fun i => (hbounds i).1
  have hupper : y ≤ box.2 := fun i => (hbounds i).2
  obtain hle | hlt := le_or_gt k ⌊x (maxDifferenceIdx x)⌋
  · have hleft : y ≤ Function.update box.2 (maxDifferenceIdx x) (⌊x (maxDifferenceIdx x)⌋ : ℚ) :=
      le_update_iff.mpr ⟨by rw [hk]; exact_mod_cast hle, fun i _ => hupper i⟩
    exact Or.inl ⟨hA, fun i => ⟨hlower i, hleft i⟩⟩
  · have hceil : ⌈x (maxDifferenceIdx x)⌉ ≤ k :=
      (Int.ceil_le_floor_add_one _).trans (Int.add_one_le_iff.mpr hlt)
    have hright : Function.update box.1 (maxDifferenceIdx x) (⌈x (maxDifferenceIdx x)⌉ : ℚ) ≤ y :=
      update_le_iff.mpr ⟨by rw [hk]; exact_mod_cast hceil, fun i _ => hlower i⟩
    exact Or.inr ⟨hA, fun i => ⟨hright i, hupper i⟩⟩

/-- From an integral point on, the search stops at a point that the source accepts. -/
theorem exists_leaf_of_integral
    (hexact : ∀ lb ub, IsOptimum (-c) A b lb ub (linprog (-c) A b lb ub)) {fuel : ℕ} {box : Box n}
    {result : Option (Vec n × ℚ)}
    (h : search (probe linprog c A b) pick fuel box = some result) {y : Vec n} (hint : Integral y)
    (hy : Feasible A b box.1 box.2 y) : ∃ leaf v, Leaf (probe linprog c A b) box leaf v := by
  obtain ⟨leaf, v, hleaf, -⟩ := exists_leaf_of_mem
    (fun y box => Integral y ∧ Feasible A b box.1 box.2 y)
    (fun box y hempty hmem => feasible_of_probe_empty hexact hempty y hmem.2)
    (fun box left right y hbranch hmem =>
      (branch_covers linprog c A b hbranch hmem.1 hmem.2).imp (⟨hmem.1, ·⟩) (⟨hmem.1, ·⟩))
    h ⟨hint, hy⟩
  exact ⟨leaf, v, hleaf⟩

/-- A search without a result leaves no integral point in its box. -/
theorem not_feasible_of_search_none
    (hexact : ∀ lb ub, IsOptimum (-c) A b lb ub (linprog (-c) A b lb ub)) {fuel : ℕ} {box : Box n}
    (h : search (probe linprog c A b) pick fuel box = some none) {y : Vec n} (hint : Integral y) :
    ¬ Feasible A b box.1 box.2 y := by
  intro hy
  obtain ⟨leaf, v, hleaf⟩ := exists_leaf_of_integral linprog c A b hexact h hint hy
  exact search_none h leaf v hleaf

section Halves

variable {linprog c A b}
  (hexact : ∀ lb ub, IsOptimum (-c) A b lb ub (linprog (-c) A b lb ub))

include hexact

/-- Rounding the chosen variable of a relaxed solution narrows the bounds. -/
theorem feasible_of_branch {box left right : Box n}
    (h : probe linprog c A b box = .branch left right) {y : Vec n}
    (hy : Feasible A b left.1 left.2 y ∨ Feasible A b right.1 right.2 y) :
    Feasible A b box.1 box.2 y := by
  obtain ⟨x, objective, hlp, -, rfl, rfl⟩ := probe_eq_branch h
  obtain ⟨hlower, hupper⟩ :=
    withinBounds_of_isOptimum hexact _ _ x objective hlp (maxDifferenceIdx x)
  have hfloor : Function.update box.2 (maxDifferenceIdx x) (⌊x (maxDifferenceIdx x)⌋ : ℚ) ≤ box.2 :=
    update_le_self_iff.mpr ((Int.floor_le _).trans hupper)
  have hceil : box.1 ≤ Function.update box.1 (maxDifferenceIdx x) (⌈x (maxDifferenceIdx x)⌉ : ℚ) :=
    le_update_self_iff.mpr (hlower.trans (Int.le_ceil _))
  obtain ⟨hA, hbounds⟩ | ⟨hA, hbounds⟩ := hy
  · exact ⟨hA, fun i => ⟨(hbounds i).1, (hbounds i).2.trans (hfloor i)⟩⟩
  · exact ⟨hA, fun i => ⟨(hceil i).trans (hbounds i).1, (hbounds i).2⟩⟩

namespace Narrows

variable {root box : Box n}

/-- And the box has the same integral points. -/
theorem feasible_iff (h : Narrows linprog c A b root box) {y : Vec n} (hint : Integral y) :
    Feasible A b root.1 root.2 y ↔ Feasible A b box.1 box.2 y := by
  have hnot : ∀ {half : Box n}, Barren A b half → ¬ Feasible A b half.1 half.2 y := by
    intro half hbarren hy
    have hfalse := hbarren y hy
    rw [allIntegers_of_integral hint] at hfalse
    cases hfalse
  induction h with
  | refl box => exact Iff.rfl
  | left h hright _ ih =>
    exact Iff.trans ⟨fun hy => (branch_covers linprog c A b h hint hy).resolve_right (hnot hright),
      fun hy => feasible_of_branch hexact h (Or.inl hy)⟩ ih
  | right h hleft _ ih =>
    exact Iff.trans ⟨fun hy => (branch_covers linprog c A b h hint hy).resolve_left (hnot hleft),
      fun hy => feasible_of_branch hexact h (Or.inr hy)⟩ ih

end Narrows

end Halves

end Problem

/-- The exact linear program `max 2x + y` subject to `x + 2y ≤ 2` and bounds. -/
def exactLinprog : Linprog 2 1 := fun _ _ _ lb ub =>
  if lb 0 ≤ ub 0 ∧ lb 1 ≤ ub 1 ∧ lb 0 + 2 * lb 1 ≤ 2 then
    let x := min (ub 0) (2 - 2 * lb 1)
    let y := min (ub 1) ((2 - x) / 2)
    some (![x, y], -(2 * x + y))
  else none

theorem feasible_iff (lb ub y : Vec 2) : Feasible ![![1, 2]] ![2] lb ub y ↔
    y 0 + 2 * y 1 ≤ 2 ∧ (lb 0 ≤ y 0 ∧ y 0 ≤ ub 0) ∧ lb 1 ≤ y 1 ∧ y 1 ≤ ub 1 := by
  simp [Feasible, dot]

theorem exactLinprog_isOptimum (lb ub : Vec 2) :
    IsOptimum (-![2, 1]) ![![1, 2]] ![2] lb ub (exactLinprog (-![2, 1]) ![![1, 2]] ![2] lb ub) := by
  unfold exactLinprog
  split_ifs with h
  · obtain ⟨h0, h1, hA⟩ := h
    have hx0 := min_le_left (ub 0) (2 - 2 * lb 1)
    have hx1 := min_le_right (ub 0) (2 - 2 * lb 1)
    have hx := min_choice (ub 0) (2 - 2 * lb 1)
    simp only
    generalize min (ub 0) (2 - 2 * lb 1) = x at *
    have hy0 := min_le_left (ub 1) ((2 - x) / 2)
    have hy1 := min_le_right (ub 1) ((2 - x) / 2)
    have hy := min_choice (ub 1) ((2 - x) / 2)
    generalize min (ub 1) ((2 - x) / 2) = y at *
    have hlx : lb 0 ≤ x := by obtain rfl | rfl := hx <;> linarith
    have hly : lb 1 ≤ y := by obtain rfl | rfl := hy <;> linarith
    refine ⟨?_, ?_, ?_⟩
    · rw [feasible_iff]
      refine ⟨?_, ⟨hlx, hx0⟩, hly, hy0⟩
      simp only [Matrix.cons_val_zero, Matrix.cons_val_one]
      linarith
    · rw [dot_neg]
      simp [dot]
    · intro p hp
      rw [feasible_iff] at hp
      obtain ⟨hpA, ⟨hp0, hp1⟩, hp2, hp3⟩ := hp
      have hdot : dot ![2, 1] p = 2 * p 0 + p 1 := by simp [dot]
      rw [dot_neg, hdot]
      obtain rfl | rfl := hy
      · obtain rfl | rfl := hx <;> linarith
      · obtain rfl | rfl := hx <;> linarith
  · intro p hp
    rw [feasible_iff] at hp
    obtain ⟨hpA, ⟨hp0, hp1⟩, hp2, hp3⟩ := hp
    exact h ⟨hp0.trans hp1, hp2.trans hp3, by linarith⟩

theorem branchAndBound_exactLinprog :
    branchAndBound exactLinprog ![2, 1] ![![1, 2]] ![2] 2 ![0, 0] ![some 1, some 10] =
      some (some ![0, 1], 1) := by
  decide +kernel

end OlinCourses.IntegerProgramming
