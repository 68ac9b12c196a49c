import Mathlib.Tactic
import OlinCourses.Lib.Binary64

/-!
# Allowable increases

`find_allowable_increase` of `helpers.py`, on PuLP models whose numbers may be floats: nothing is
assumed of their sums, differences and products. The solver is a parameter; printing is left out.
-/
namespace OlinCourses.LinearProgramming

/-- The coefficient of each variable, by name, and a constant. -/
structure LpAffineExpression (α : Type) where
  coef : String → α
  constant : α

namespace LpAffineExpression

variable {α : Type}

/-- The sum of the terms `c * var` and a constant. -/
def ofTerms [OfNat α 0] (terms : List (String × α)) (constant : α) : LpAffineExpression α where
  coef name := (terms.lookup name).getD 0
  constant := constant

/-- `self + c * var`, which touches the coefficient of `var` only. -/
def addTerm [Add α] (e : LpAffineExpression α) (c : α) (name : String) : LpAffineExpression α :=
  { e with coef := Function.update e.coef name (e.coef name + c) }

/-- `self - c * var`. -/
def subTerm [Sub α] (e : LpAffineExpression α) (c : α) (name : String) : LpAffineExpression α :=
  { e with coef := Function.update e.coef name (e.coef name - c) }

end LpAffineExpression

inductive LpCategory
  | continuous
  | integer

structure LpVariable (α : Type) where
  name : String
  lowBound : Option α := none
  upBound : Option α := none
  cat : LpCategory := .continuous

inductive LpConstraintSense
  | le
  | eq
  | ge

/-- The expression compared with zero. -/
structure LpConstraint (α : Type) where
  expr : LpAffineExpression α
  sense : LpConstraintSense

inductive LpSense
  | minimize
  | maximize

structure LpProblem (α : Type) where
  sense : LpSense
  objective : LpAffineExpression α
  constraints : List (LpConstraint α)
  /-- `variables()`. -/
  vars : List (LpVariable α)

/-- `model += model.objective + c * var`. -/
def LpProblem.increase {α : Type} [Add α] (model : LpProblem α) (name : String) (c : α) :
    LpProblem α := { model with objective := model.objective.addTerm c name }

/-- `model.objective -= c * var`. -/
def LpProblem.decrease {α : Type} [Sub α] (model : LpProblem α) (name : String) (c : α) :
    LpProblem α := { model with objective := model.objective.subTerm c name }

/-- `solve()`, by the `varValue` of each variable that it leaves. -/
abbrev Solver (α β : Type) := LpProblem α → String → Option β

/-- The dictionary from names to values after solving. -/
def solution {α β : Type} (solve : Solver α β) (model : LpProblem α) : List (String × Option β) :=
  model.vars.map fun var => (var.name, solve model var.name)

section Source

variable {α β : Type} [Add α] [Sub α] [Mul α] [NatCast α] [DecidableEq β] (solve : Solver α β)

/-- The loop over the iterations `i`, with the model as it is before them. -/
def tryIncreases (targetVar : LpVariable α) (baseCoef step : α)
    (baseSolution : List (String × Option β)) : List ℕ → LpProblem α → Option α
  | [], _ => none
  | i :: rest, model =>
    let currentCoef := baseCoef + i * step
    let model := model.increase targetVar.name (currentCoef - baseCoef)
    let currentSolution := solution solve model
    if currentSolution ≠ baseSolution then some (currentCoef - baseCoef)
    else
      tryIncreases targetVar baseCoef step baseSolution rest
        (model.decrease targetVar.name (currentCoef - baseCoef))

/-- The error is that of the `ValueError`. -/
def findAllowableIncrease (baseModel : LpProblem α) (varName : String) (baseCoef : α)
    (step : α := (10 : ℕ)) (maxIter : ℤ := 50) : Except String (Option α) :=
  match baseModel.vars.find? fun var => var.name = varName with
  | none => .error s!"Variable '{varName}' not found in the model."
  | some targetVar =>
    .ok (tryIncreases solve targetVar baseCoef step (solution solve baseModel)
      (List.range maxIter.toNat) baseModel)

end Source

section Coefficients

variable {α : Type}

/-- The model with another objective coefficient of a variable. -/
def LpProblem.withCoef (model : LpProblem α) (name : String) (c : α) : LpProblem α :=
  { model with objective :=
    { model.objective with coef := Function.update model.objective.coef name c } }

theorem LpProblem.withCoef_self (model : LpProblem α) (name : String) :
    model.withCoef name (model.objective.coef name) = model := by
  simp [LpProblem.withCoef]

theorem LpProblem.increase_eq [Add α] (model : LpProblem α) (name : String) (c : α) :
    model.increase name c = model.withCoef name (model.objective.coef name + c) := rfl

@[simp] theorem LpProblem.increase_withCoef [Add α] (model : LpProblem α) (name : String)
    (c d : α) : (model.withCoef name c).increase name d = model.withCoef name (c + d) := by
  simp [LpProblem.withCoef, LpProblem.increase, LpAffineExpression.addTerm]

@[simp] theorem LpProblem.decrease_withCoef [Sub α] (model : LpProblem α) (name : String)
    (c d : α) : (model.withCoef name c).decrease name d = model.withCoef name (c - d) := by
  simp [LpProblem.withCoef, LpProblem.decrease, LpAffineExpression.subTerm]

variable [Add α] [Sub α] [Mul α] [NatCast α]

/-- `current_coef - base_coef` in iteration `i`. -/
def increaseAt (baseCoef step : α) (i : ℕ) : α := baseCoef + i * step - baseCoef

/-- The coefficient before iteration `i`: each iteration adds its increase and subtracts it. -/
def coefBefore (coef baseCoef step : α) : ℕ → α
  | 0 => coef
  | i + 1 => coefBefore coef baseCoef step i + increaseAt baseCoef step i -
      increaseAt baseCoef step i

/-- The coefficient of which iteration `i` finds the optimal solution. -/
def coefTried (coef baseCoef step : α) (i : ℕ) : α :=
  coefBefore coef baseCoef step i + increaseAt baseCoef step i

/-- Where adding and subtracting an increase restores the coefficient, the increase itself is
tried. -/
theorem coefTried_eq {coef baseCoef step : α} {n : ℕ}
    (hrestores : ∀ i < n, coef + increaseAt baseCoef step i - increaseAt baseCoef step i = coef)
    {i : ℕ} (hi : i < n) :
    coefTried coef baseCoef step i = coef + increaseAt baseCoef step i := by
  have hbefore : coefBefore coef baseCoef step i = coef := by
    induction i with
    | zero => rfl
    | succ i ih => rw [coefBefore, ih (by omega), hrestores i (by omega)]
  rw [coefTried, hbefore]

end Coefficients

section Exact

variable {α : Type} [Ring α]

theorem increaseAt_eq (baseCoef step : α) (i : ℕ) : increaseAt baseCoef step i = i * step :=
  add_sub_cancel_left _ _

/-- Exact numbers are restored. -/
theorem coefTried_eq_add (coef baseCoef step : α) (i : ℕ) :
    coefTried coef baseCoef step i = coef + i * step := by
  rw [coefTried_eq (fun _ _ => add_sub_cancel_right _ _) (Nat.lt_succ_self i), increaseAt_eq]

end Exact

section Search

variable {α β : Type} (solve : Solver α β) (model : LpProblem α) (name : String)

/-- The optimal solution of the base model is found with this coefficient as well. -/
def SameSolution (c : α) : Prop := solution solve (model.withCoef name c) = solution solve model

/-- The model with this increase still has the optimal solution of the base model. -/
def KeepsSolution [Add α] (amount : α) : Prop :=
  SameSolution solve model name (model.objective.coef name + amount)

theorem keepsSolution_iff [Add α] (amount : α) : KeepsSolution solve model name amount ↔
    solution solve (model.increase name amount) = solution solve model := Iff.rfl

instance [DecidableEq β] (c : α) : Decidable (SameSolution solve model name c) :=
  inferInstanceAs (Decidable (_ = _))

instance [DecidableEq β] [Add α] (amount : α) :
    Decidable (KeepsSolution solve model name amount) := inferInstanceAs (Decidable (_ = _))

variable [Add α] [Sub α] [Mul α] [NatCast α] (baseCoef step : α)

/-- The first iteration that finds another solution. -/
def FirstChange (i : ℕ) : Prop :=
  ¬ SameSolution solve model name (coefTried (model.objective.coef name) baseCoef step i) ∧
    ∀ j < i, SameSolution solve model name (coefTried (model.objective.coef name) baseCoef step j)

variable [DecidableEq β]

theorem tryIncreases_cons (targetVar : LpVariable α) (i : ℕ) (rest : List ℕ) (c : α) :
    tryIncreases solve targetVar baseCoef step (solution solve model) (i :: rest)
        (model.withCoef targetVar.name c) =
      if ¬ SameSolution solve model targetVar.name (c + increaseAt baseCoef step i) then
        some (increaseAt baseCoef step i)
      else tryIncreases solve targetVar baseCoef step (solution solve model) rest
        (model.withCoef targetVar.name
          (c + increaseAt baseCoef step i - increaseAt baseCoef step i)) := by
  simp only [tryIncreases, LpProblem.increase_withCoef, LpProblem.decrease_withCoef]
  rfl

/-- Each iteration starts with what the earlier ones have left of the coefficient. -/
theorem tryIncreases_eq (targetVar : LpVariable α) (i n : ℕ) :
    tryIncreases solve targetVar baseCoef step (solution solve model) (List.range' i n)
        (model.withCoef targetVar.name
          (coefBefore (model.objective.coef targetVar.name) baseCoef step i)) =
      ((List.range' i n).find? fun i : ℕ => ¬ SameSolution solve model targetVar.name
        (coefTried (model.objective.coef targetVar.name) baseCoef step i)).map
        (increaseAt baseCoef step) := by
  induction n generalizing i with
  | zero => rfl
  | succ n ih =>
    rw [List.range'_succ, tryIncreases_cons, List.find?_cons, ← coefTried]
    by_cases hsame : SameSolution solve model targetVar.name
        (coefTried (model.objective.coef targetVar.name) baseCoef step i)
    · rw [if_neg (not_not.mpr hsame), decide_eq_false (not_not.mpr hsame)]
      exact ih (i + 1)
    · rw [if_pos hsame, decide_eq_true hsame]
      rfl

variable {solve model name baseCoef step}

/-- A returned number is the increase of the first iteration that finds another solution. -/
theorem findAllowableIncrease_eq_some_iff (hname : ∃ var ∈ model.vars, var.name = name)
    (maxIter : ℤ) (d : α) :
    findAllowableIncrease solve model name baseCoef step maxIter = .ok (some d) ↔
      ∃ i : ℕ, i < maxIter ∧ d = increaseAt baseCoef step i ∧
        FirstChange solve model name baseCoef step i := by
  unfold findAllowableIncrease
  cases hfind : model.vars.find? fun var => var.name = name with
  | none =>
    obtain ⟨var, hvar, heq⟩ := hname
    have hne := List.find?_eq_none.mp hfind var hvar
    exact absurd (decide_eq_true heq) hne
  | some targetVar =>
    have hfound := List.find?_some hfind
    obtain rfl : targetVar.name = name := of_decide_eq_true hfound
    have hloop := tryIncreases_eq solve model baseCoef step targetVar 0 maxIter.toNat
    rw [coefBefore, LpProblem.withCoef_self, ← List.range_eq_range'] at hloop
    dsimp only
    rw [hloop, Except.ok.injEq, Option.map_eq_some_iff]
    simp only [List.find?_range_eq_some, List.mem_range, Int.lt_toNat,
      decide_eq_true_eq, Bool.not_eq_true', decide_eq_false_iff_not, not_not]
    constructor
    · rintro ⟨i, ⟨hchanges, hlt, hbefore⟩, rfl⟩
      exact ⟨i, hlt, rfl, hchanges, hbefore⟩
    · rintro ⟨i, hlt, rfl, hchanges, hbefore⟩
      exact ⟨i, ⟨hchanges, hlt, hbefore⟩, rfl⟩

theorem findAllowableIncrease_eq_error (hname : ¬ ∃ var ∈ model.vars, var.name = name)
    (maxIter : ℤ) : findAllowableIncrease solve model name baseCoef step maxIter =
      .error s!"Variable '{name}' not found in the model." := by
  unfold findAllowableIncrease
  cases hfind : model.vars.find? fun var => var.name = name with
  | none => rfl
  | some targetVar =>
    have hfound := List.find?_some hfind
    exact absurd ⟨targetVar, List.mem_of_find?_eq_some hfind, of_decide_eq_true hfound⟩ hname

end Search

section Allowable

variable {α β : Type} [Add α] [Sub α] [Mul α] [NatCast α] [DecidableEq β] (solve : Solver α β)
  (model : LpProblem α) (name : String) (baseCoef step : α) (maxIter : ℤ)

/-- Whenever a number is returned, the increase by it keeps the solution, and the increase by
one more step does not. -/
def ReturnsAllowable : Prop :=
  ∀ d, findAllowableIncrease solve model name baseCoef step maxIter = .ok (some d) →
    KeepsSolution solve model name d ∧ ¬ KeepsSolution solve model name (d + step)

/-- A returned increase is allowable only if it is not the one that has been tried, so never
where subtracting an increase restores the coefficient. -/
theorem returnsAllowable_iff :
    (ReturnsAllowable solve model name baseCoef step maxIter ↔
      (¬ ∃ var ∈ model.vars, var.name = name) ∨
        ∀ i : ℕ, i < maxIter → FirstChange solve model name baseCoef step i →
          coefTried (model.objective.coef name) baseCoef step i ≠
              model.objective.coef name + increaseAt baseCoef step i ∧
            KeepsSolution solve model name (increaseAt baseCoef step i) ∧
            ¬ KeepsSolution solve model name (increaseAt baseCoef step i + step)) ∧
    ((∀ i : ℕ, i < maxIter → model.objective.coef name + increaseAt baseCoef step i -
        increaseAt baseCoef step i = model.objective.coef name) →
      (ReturnsAllowable solve model name baseCoef step maxIter ↔
        (¬ ∃ var ∈ model.vars, var.name = name) ∨
          ∀ i : ℕ, i < maxIter → KeepsSolution solve model name (increaseAt baseCoef step i))) := by
  have hiff : ReturnsAllowable solve model name baseCoef step maxIter ↔
      (¬ ∃ var ∈ model.vars, var.name = name) ∨
        ∀ i : ℕ, i < maxIter → FirstChange solve model name baseCoef step i →
          coefTried (model.objective.coef name) baseCoef step i ≠
              model.objective.coef name + increaseAt baseCoef step i ∧
            KeepsSolution solve model name (increaseAt baseCoef step i) ∧
            ¬ KeepsSolution solve model name (increaseAt baseCoef step i + step) := by
    by_cases hname : ∃ var ∈ model.vars, var.name = name
    · rw [or_iff_right (not_not.mpr hname)]
      constructor
      · intro hallowable i hlt hfirst
        have hkeeps := hallowable _
          ((findAllowableIncrease_eq_some_iff hname maxIter _).mpr ⟨i, hlt, rfl, hfirst⟩)
        refine ⟨fun htried => hfirst.1 ?_, hkeeps⟩
        rw [htried]
        exact hkeeps.1
      · intro hdrifted d hd
        obtain ⟨i, hlt, rfl, hfirst⟩ := (findAllowableIncrease_eq_some_iff hname maxIter d).mp hd
        exact (hdrifted i hlt hfirst).2
    · refine iff_of_true (fun d hd => ?_) (Or.inl hname)
      rw [findAllowableIncrease_eq_error hname] at hd
      cases hd
  refine ⟨hiff, fun hrestores => hiff.trans (or_congr_right ?_)⟩
  have htried : ∀ i : ℕ, i < maxIter → coefTried (model.objective.coef name) baseCoef step i =
      model.objective.coef name + increaseAt baseCoef step i := by
    intro i hi
    exact coefTried_eq (n := maxIter.toNat) (fun j hj => hrestores j (by omega)) (by omega)
  constructor
  · intro hdrifted i hi
    by_contra hchanges
    -- the first tried increase that changes the solution
    have hexists : ∃ j : ℕ, j < maxIter ∧
        ¬ KeepsSolution solve model name (increaseAt baseCoef step j) := ⟨i, hi, hchanges⟩
    obtain ⟨hlt, hfirst⟩ := Nat.find_spec hexists
    refine (hdrifted _ hlt ⟨?_, fun j hj => ?_⟩).1 (htried _ hlt)
    · rw [htried _ hlt]
      exact hfirst
    · have hmin := Nat.find_min hexists hj
      rw [htried j (by omega)]
      by_contra hj'
      exact hmin ⟨by omega, hj'⟩
  · intro hkeeps i hi hfirst
    refine absurd ?_ hfirst.1
    rw [htried i hi]
    exact hkeeps i hi

end Allowable

/-- Integers as binary64 numbers. -/
structure Rounded where
  value : ℤ
deriving DecidableEq

namespace Rounded

instance : Add Rounded := ⟨fun a b => ⟨Binary64.nearest (a.value + b.value)⟩⟩

instance : Sub Rounded := ⟨fun a b => ⟨Binary64.nearest (a.value - b.value)⟩⟩

instance : Mul Rounded := ⟨fun a b => ⟨Binary64.nearest (a.value * b.value)⟩⟩

instance : NatCast Rounded := ⟨fun n => ⟨Binary64.nearest n⟩⟩

/-- From `2 ^ 53` on, adding 1 and subtracting it loses 1. -/
example : coefTried (⟨2 ^ 53⟩ : Rounded) ⟨0⟩ ⟨1⟩ 2 ≠ ⟨2 ^ 53⟩ + increaseAt ⟨0⟩ ⟨1⟩ 2 := by
  decide +kernel

end Rounded

/-- The value of an expression over the given variables. -/
def LpAffineExpression.value (e : LpAffineExpression ℤ) (vars : List (LpVariable ℤ))
    (x : String → ℚ) : ℚ :=
  (vars.map fun var => e.coef var.name * x var.name).sum + e.constant

def LpConstraintSense.Holds : LpConstraintSense → ℚ → Prop
  | le, v => v ≤ 0
  | eq, v => v = 0
  | ge, v => 0 ≤ v

def LpCategory.Holds : LpCategory → ℚ → Prop
  | continuous, _ => True
  | integer, v => ∃ k : ℤ, v = k

@[mk_iff] structure LpProblem.Feasible (model : LpProblem ℤ) (x : String → ℚ) : Prop where
  constraints : ∀ c ∈ model.constraints, c.sense.Holds (c.expr.value model.vars x)
  lowBound : ∀ var ∈ model.vars, ∀ bound ∈ var.lowBound, bound ≤ x var.name
  upBound : ∀ var ∈ model.vars, ∀ bound ∈ var.upBound, x var.name ≤ bound
  cat : ∀ var ∈ model.vars, var.cat.Holds (x var.name)

def LpSense.AtLeastAsGood : LpSense → ℚ → ℚ → Prop
  | minimize, v, w => v ≤ w
  | maximize, v, w => w ≤ v

structure LpProblem.Optimal (model : LpProblem ℤ) (x : String → ℚ) : Prop where
  feasible : model.Feasible x
  best : ∀ y, model.Feasible y → model.sense.AtLeastAsGood
    (model.objective.value model.vars x) (model.objective.value model.vars y)

/-- The solver finds an optimal solution of every model that has one. -/
def ExactOracle (solve : Solver ℤ ℚ) : Prop :=
  ∀ model : LpProblem ℤ, (∃ x, model.Optimal x) →
    ∃ x, model.Optimal x ∧ ∀ var ∈ model.vars, solve model var.name = some (x var.name)

theorem exists_exactOracle : ∃ solve, ExactOracle solve := by
  classical
  refine ⟨fun model name => if h : ∃ x, model.Optimal x then some (h.choose name) else none,
    fun model h => ⟨h.choose, h.choose_spec, fun var _ => ?_⟩⟩
  exact dif_pos h

theorem ExactOracle.exists_solution {solve : Solver ℤ ℚ} (hexact : ExactOracle solve)
    {model : LpProblem ℤ} (h : ∃ x, model.Optimal x) : ∃ x, model.Optimal x ∧
      solution solve model = model.vars.map fun var => (var.name, some (x var.name)) := by
  obtain ⟨x, hx, hvalues⟩ := hexact model h
  exact ⟨x, hx, List.map_congr_left fun var hvar => congrArg (Prod.mk var.name) (hvalues var hvar)⟩

/-- The model of the notebook. -/
def mainModel : LpProblem ℤ where
  sense := .maximize
  objective := .ofTerms [("x1", 30), ("x2", 100), ("x3", 30), ("x4", 80)] 0
  constraints :=
    [⟨.ofTerms [("x1", 40), ("x2", 40), ("x3", 30), ("x4", 30)] (-40000), .le⟩,
      ⟨.ofTerms [("x1", 2), ("x2", 5), ("x3", 2), ("x4", 4)] (-6000), .le⟩]
  vars :=
    [{ name := "x1", lowBound := some 0 }, { name := "x2", lowBound := some 0 },
      { name := "x3", lowBound := some 0 }, { name := "x4", lowBound := some 0 }]

/-- A production plan within the resources, whatever the objective is. -/
def WithinResources (x : String → ℚ) : Prop :=
  (40 * x "x1" + 40 * x "x2" + 30 * x "x3" + 30 * x "x4" ≤ 40000 ∧
    2 * x "x1" + 5 * x "x2" + 2 * x "x3" + 4 * x "x4" ≤ 6000) ∧
  0 ≤ x "x1" ∧ 0 ≤ x "x2" ∧ 0 ≤ x "x3" ∧ 0 ≤ x "x4"

theorem feasible_increase_iff (amount : ℤ) (x : String → ℚ) :
    (mainModel.increase "x1" amount).Feasible x ↔ WithinResources x := by
  simp [LpProblem.feasible_iff, WithinResources, LpProblem.increase, mainModel,
    LpConstraintSense.Holds, LpCategory.Holds, LpAffineExpression.value,
    LpAffineExpression.ofTerms, List.lookup_cons, ← add_assoc]

theorem value_increase (amount : ℤ) (x : String → ℚ) :
    (mainModel.increase "x1" amount).objective.value (mainModel.increase "x1" amount).vars x =
      (30 + amount) * x "x1" + 100 * x "x2" + 30 * x "x3" + 80 * x "x4" := by
  simp [LpProblem.increase, mainModel, LpAffineExpression.value, LpAffineExpression.addTerm,
    LpAffineExpression.ofTerms, List.lookup_cons]
  ring

theorem optimal_increase_iff (amount : ℤ) (x : String → ℚ) :
    (mainModel.increase "x1" amount).Optimal x ↔ WithinResources x ∧ ∀ y, WithinResources y →
      (30 + amount) * y "x1" + 100 * y "x2" + 30 * y "x3" + 80 * y "x4" ≤
        (30 + amount) * x "x1" + 100 * x "x2" + 30 * x "x3" + 80 * x "x4" := by
  simp only [← value_increase, ← feasible_increase_iff amount]
  exact ⟨fun h => ⟨h.feasible, h.best⟩, fun h => ⟨h.1, h.2⟩⟩

/-- Nothing but professional trumpets. -/
def trumpets : String → ℚ := Pi.single "x4" (4000 / 3)

/-- Nothing but novice trombones. -/
def trombones : String → ℚ := Pi.single "x1" 1000

theorem trumpets_values : trumpets "x1" = 0 ∧ trumpets "x2" = 0 ∧ trumpets "x3" = 0 ∧
    trumpets "x4" = 4000 / 3 := by
  simp [trumpets]

theorem trombones_values : trombones "x1" = 1000 ∧ trombones "x2" = 0 ∧ trombones "x3" = 0 ∧
    trombones "x4" = 0 := by
  simp [trombones]

theorem withinResources_trumpets : WithinResources trumpets := by
  norm_num [WithinResources, trumpets_values]

theorem withinResources_trombones : WithinResources trombones := by
  norm_num [WithinResources, trombones_values]

/-- The price of metal is `8 / 3` as long as trumpets are best. -/
theorem profit_le {amount : ℤ} (hamount : amount ≤ 76) {x : String → ℚ} (h : WithinResources x) :
    (30 + amount) * x "x1" + 100 * x "x2" + 30 * x "x3" + 80 * x "x4" ≤
      320000 / 3 - (2 / 3 * x "x1" + 20 / 3 * x "x2" + 50 * x "x3") := by
  obtain ⟨⟨hmetal, -⟩, hx1, -⟩ := h
  have hcast : (amount : ℚ) ≤ 76 := by exact_mod_cast hamount
  have hmul : amount * x "x1" ≤ 76 * x "x1" := mul_le_mul_of_nonneg_right hcast hx1
  linarith

theorem optimal_trumpets {amount : ℤ} (hamount : amount ≤ 76) :
    (mainModel.increase "x1" amount).Optimal trumpets := by
  rw [optimal_increase_iff]
  refine ⟨withinResources_trumpets, fun y hy => ?_⟩
  have hprofit := profit_le hamount hy
  obtain ⟨-, hy1, hy2, hy3, -⟩ := hy
  simp only [trumpets_values]
  linarith

/-- Up to an increase of 76 no other plan is optimal. -/
theorem eq_trumpets_of_optimal {amount : ℤ} (hamount : amount ≤ 76) {x : String → ℚ}
    (h : (mainModel.increase "x1" amount).Optimal x) :
    x "x1" = 0 ∧ x "x2" = 0 ∧ x "x3" = 0 ∧ x "x4" = 4000 / 3 := by
  obtain ⟨hx, hbest⟩ := (optimal_increase_iff amount x).mp h
  have hprofit := profit_le hamount hx
  have htrumpets := hbest trumpets withinResources_trumpets
  simp only [trumpets_values] at htrumpets
  obtain ⟨⟨hmetal, -⟩, hx1, hx2, hx3, hx4⟩ := hx
  have hone : x "x1" = 0 := by linarith
  have htwo : x "x2" = 0 := by linarith
  have hthree : x "x3" = 0 := by linarith
  rw [hone, htwo, hthree] at htrumpets hmetal
  exact ⟨hone, htwo, hthree, by linarith⟩

theorem optimal_trombones : (mainModel.increase "x1" 77).Optimal trombones := by
  rw [optimal_increase_iff]
  refine ⟨withinResources_trombones, fun y hy => ?_⟩
  obtain ⟨⟨hmetal, -⟩, hy1, hy2, hy3, hy4⟩ := hy
  simp only [trombones_values, Int.cast_ofNat]
  linarith

theorem not_optimal_trumpets {x : String → ℚ} (h : (mainModel.increase "x1" 77).Optimal x) :
    x "x4" ≠ 4000 / 3 := by
  obtain ⟨hx, hbest⟩ := (optimal_increase_iff 77 x).mp h
  have htrombones := hbest trombones withinResources_trombones
  simp only [trombones_values, Int.cast_ofNat] at htrombones
  obtain ⟨⟨hmetal, -⟩, hx1, hx2, hx3, hx4⟩ := hx
  intro hfour
  linarith

theorem map_vars (amount : ℤ) (x : String → ℚ) :
    ((mainModel.increase "x1" amount).vars.map fun var => (var.name, some (x var.name))) =
      [("x1", some (x "x1")), ("x2", some (x "x2")), ("x3", some (x "x3")),
        ("x4", some (x "x4"))] := rfl

section Oracle

variable {solve : Solver ℤ ℚ} (hexact : ExactOracle solve)

include hexact

theorem solution_eq_trumpets {amount : ℤ} (hamount : amount ≤ 76) :
    solution solve (mainModel.increase "x1" amount) =
      [("x1", some 0), ("x2", some 0), ("x3", some 0), ("x4", some (4000 / 3))] := by
  obtain ⟨x, hx, hsolution⟩ := hexact.exists_solution ⟨trumpets, optimal_trumpets hamount⟩
  obtain ⟨hone, htwo, hthree, hfour⟩ := eq_trumpets_of_optimal hamount hx
  rw [hsolution, map_vars, hone, htwo, hthree, hfour]

theorem keepsSolution_of_le {amount : ℤ} (hamount : amount ≤ 76) :
    KeepsSolution solve mainModel "x1" amount := by
  have hbase := solution_eq_trumpets hexact (show (0 : ℤ) ≤ 76 by norm_num)
  rw [LpProblem.increase_eq, add_zero, LpProblem.withCoef_self] at hbase
  rw [keepsSolution_iff, solution_eq_trumpets hexact hamount, hbase]

theorem not_keepsSolution : ¬ KeepsSolution solve mainModel "x1" 77 := by
  have hbase := solution_eq_trumpets hexact (show (0 : ℤ) ≤ 76 by norm_num)
  rw [LpProblem.increase_eq, add_zero, LpProblem.withCoef_self] at hbase
  obtain ⟨x, hx, hsolution⟩ := hexact.exists_solution ⟨trombones, optimal_trombones⟩
  intro hkeeps
  rw [keepsSolution_iff, hsolution, map_vars, hbase] at hkeeps
  simp only [List.cons.injEq, Prod.mk.injEq, Option.some_inj, true_and] at hkeeps
  exact not_optimal_trumpets hx hkeeps.2.2.2.1

end Oracle

/-- In the notebook 77 is returned for novice trombones; an increase by 76 is allowable, and one
by 77 is not. -/
theorem not_returnsAllowable_mainModel : (∃ solve, ExactOracle solve) ∧
    ∀ solve, ExactOracle solve →
      findAllowableIncrease solve mainModel "x1" 60 1 100 = .ok (some 77) ∧
        ¬ ReturnsAllowable solve mainModel "x1" 60 1 100 := by
  refine ⟨exists_exactOracle, fun solve hexact => ?_⟩
  have hreturned : findAllowableIncrease solve mainModel "x1" 60 1 100 = .ok (some 77) := by
    have hname : ∃ var ∈ mainModel.vars, var.name = "x1" := ⟨_, List.mem_cons_self, rfl⟩
    rw [findAllowableIncrease_eq_some_iff hname]
    refine ⟨77, by norm_num, by norm_num [increaseAt_eq], ?_, fun j hj => ?_⟩
    · rw [coefTried_eq_add, mul_one]
      exact not_keepsSolution hexact
    · rw [coefTried_eq_add, mul_one]
      exact keepsSolution_of_le hexact (by omega)
  exact ⟨hreturned, fun hallowable => not_keepsSolution hexact (hallowable 77 hreturned).1⟩

/-- With 77 iterations the increase by 76 is the last one that is tried. -/
theorem returnsAllowable_iff_mainModel : ∃ solve, ExactOracle solve ∧
    ReturnsAllowable solve mainModel "x1" 60 1 77 ∧
      ¬ ReturnsAllowable solve mainModel "x1" 60 1 78 := by
  obtain ⟨solve, hexact⟩ := exists_exactOracle
  have hrestores : ∀ n : ℕ, mainModel.objective.coef "x1" + increaseAt 60 1 n - increaseAt 60 1 n =
      mainModel.objective.coef "x1" := fun n => add_sub_cancel_right _ _
  refine ⟨solve, hexact, ?_, ?_⟩
  · rw [(returnsAllowable_iff solve mainModel "x1" 60 1 77).2 fun i _ => hrestores i]
    refine Or.inr fun i hi => ?_
    rw [increaseAt_eq, mul_one]
    exact keepsSolution_of_le hexact (by omega)
  · rw [(returnsAllowable_iff solve mainModel "x1" 60 1 78).2 fun i _ => hrestores i]
    rintro (hnone | hkeeps)
    · exact hnone ⟨_, List.mem_cons_self, rfl⟩
    · have hkeeps77 := hkeeps 77 (by norm_num)
      rw [increaseAt_eq, mul_one] at hkeeps77
      exact not_keepsSolution hexact hkeeps77

end OlinCourses.LinearProgramming
