import Mathlib.Order.Basic
import Mathlib.Tactic

/-!
# Divide-and-conquer search

A region is empty, solved, or split into two; the values of two solved halves are
combined by picking one. The search is bounded by fuel, and its results are
described by the solved leaves that it reaches.
-/
namespace OlinCourses.Search

/-- What probing a region finds. -/
inductive Probe (R V : Type*)
  | empty
  | leaf (value : V)
  | branch (left right : R)

variable {R V P K : Type*}

/-- Combine the results of the two halves. -/
def merge (pick : V → V → V) : Option V → Option V → Option V
  | none, right => right
  | left, none => left
  | some left, some right => some (pick left right)

/-- The outer `none` is the search that runs out of fuel. -/
def search (probe : R → Probe R V) (pick : V → V → V) : ℕ → R → Option (Option V)
  | 0, _ => none
  | fuel + 1, r =>
    match probe r with
    | .empty => some none
    | .leaf value => some (some value)
    | .branch left right => do
      let a ← search probe pick fuel left
      let b ← search probe pick fuel right
      return merge pick a b

/-- The solved regions below `r`, with their values. -/
inductive Leaf (probe : R → Probe R V) : R → R → V → Prop
  | here {r : R} {v : V} (h : probe r = .leaf v) : Leaf probe r r v
  | left {r a b s : R} {v : V} (h : probe r = .branch a b) (hs : Leaf probe a s v) :
      Leaf probe r s v
  | right {r a b s : R} {v : V} (h : probe r = .branch a b) (hs : Leaf probe b s v) :
      Leaf probe r s v

theorem merge_eq_none {pick : V → V → V} {a b : Option V} (h : merge pick a b = none) :
    a = none ∧ b = none := by
  cases a with
  | none => exact ⟨rfl, h⟩
  | some u =>
    cases b with
    | none => cases h
    | some w => cases h

theorem merge_eq_some {pick : V → V → V} (hpick : ∀ a b, pick a b = a ∨ pick a b = b)
    {a b : Option V} {v : V} (h : merge pick a b = some v) : a = some v ∨ b = some v := by
  cases a with
  | none => exact Or.inr h
  | some u =>
    cases b with
    | none => exact Or.inl h
    | some w =>
      rw [merge, Option.some_inj] at h
      rw [← h, Option.some_inj, Option.some_inj]
      exact (hpick u w).imp Eq.symm Eq.symm

section Leaves

variable {probe : R → Probe R V} {r : R}

theorem leaf_of_empty (h : probe r = .empty) (s : R) (v : V) : ¬ Leaf probe r s v := by
  intro hleaf
  cases hleaf with
  | here hr | left hr _ | right hr _ =>
    rw [h] at hr
    cases hr

theorem leaf_iff_of_branch {a b : R} (h : probe r = .branch a b) (s : R) (v : V) :
    Leaf probe r s v ↔ Leaf probe a s v ∨ Leaf probe b s v := by
  constructor
  · intro hleaf
    cases hleaf with
    | here hr =>
      rw [h] at hr
      cases hr
    | left hr hs =>
      rw [h] at hr
      cases hr
      exact Or.inl hs
    | right hr hs =>
      rw [h] at hr
      cases hr
      exact Or.inr hs
  · rintro (hs | hs)
    · exact .left h hs
    · exact .right h hs

theorem Leaf.probe_eq {s : R} {v : V} (h : Leaf probe r s v) : probe s = .leaf v := by
  induction h with
  | here h => exact h
  | left _ _ ih => exact ih
  | right _ _ ih => exact ih

/-- Where the halves have no points but those of their region, no leaf has. -/
theorem Leaf.mem_of_mem (mem : P → R → Prop)
    (hsub : ∀ r a b p, probe r = .branch a b → mem p a ∨ mem p b → mem p r) {s : R} {v : V}
    (h : Leaf probe r s v) {p : P} (hp : mem p s) : mem p r := by
  induction h with
  | here _ => exact hp
  | left hbranch _ ih => exact hsub _ _ _ p hbranch (Or.inl (ih hp))
  | right hbranch _ ih => exact hsub _ _ _ p hbranch (Or.inr (ih hp))

end Leaves

section Search

variable {probe : R → Probe R V} {pick : V → V → V}

/-- The results of a search: one case for each outcome of the probe. -/
theorem search_succ_eq {fuel : ℕ} {r : R} {result : Option V}
    (h : search probe pick (fuel + 1) r = some result) :
    (probe r = .empty ∧ result = none) ∨ (∃ v, probe r = .leaf v ∧ result = some v) ∨
      ∃ left right a b, probe r = .branch left right ∧ search probe pick fuel left = some a ∧
        search probe pick fuel right = some b ∧ result = merge pick a b := by
  rw [search] at h
  cases hprobe : probe r with
  | empty =>
    rw [hprobe] at h
    exact Or.inl ⟨rfl, (Option.some_injective _ h).symm⟩
  | leaf v =>
    rw [hprobe] at h
    exact Or.inr (Or.inl ⟨v, rfl, (Option.some_injective _ h).symm⟩)
  | branch left right =>
    rw [hprobe] at h
    simp only [Option.bind_eq_bind, Option.bind_eq_some_iff] at h
    obtain ⟨a, ha, b, hb, hmerge⟩ := h
    exact Or.inr (Or.inr ⟨left, right, a, b, rfl, ha, hb, (Option.some_injective _ hmerge).symm⟩)

/-- A search fails only where there is no leaf. -/
theorem search_none {fuel : ℕ} {r : R} (h : search probe pick fuel r = some none) (s : R) (v : V) :
    ¬ Leaf probe r s v := by
  induction fuel generalizing r with
  | zero => cases h
  | succ fuel ih =>
    obtain ⟨hprobe, -⟩ | ⟨w, -, hresult⟩ | ⟨left, right, a, b, hprobe, ha, hb, hresult⟩ :=
      search_succ_eq h
    · exact leaf_of_empty hprobe s v
    · cases hresult
    · obtain ⟨rfl, rfl⟩ := merge_eq_none hresult.symm
      rw [leaf_iff_of_branch hprobe]
      exact not_or.mpr ⟨ih ha, ih hb⟩

/-- A search that picks one of the two values returns the value of some leaf. -/
theorem search_some (hpick : ∀ a b, pick a b = a ∨ pick a b = b) {fuel : ℕ} {r : R} {v : V}
    (h : search probe pick fuel r = some (some v)) : ∃ s, Leaf probe r s v := by
  induction fuel generalizing r v with
  | zero => cases h
  | succ fuel ih =>
    obtain ⟨-, hresult⟩ | ⟨w, hprobe, hresult⟩ | ⟨left, right, a, b, hprobe, ha, hb, hresult⟩ :=
      search_succ_eq h
    · cases hresult
    · cases hresult
      exact ⟨r, .here hprobe⟩
    · obtain hside | hside := merge_eq_some hpick hresult.symm
      · obtain ⟨s, hs⟩ := ih (hside ▸ ha)
        exact ⟨s, .left hprobe hs⟩
      · obtain ⟨s, hs⟩ := ih (hside ▸ hb)
        exact ⟨s, .right hprobe hs⟩

/-- Where empty regions have no points and each split covers its region, every point
lies in a solved leaf. -/
theorem exists_leaf_of_mem (mem : P → R → Prop)
    (hempty : ∀ r p, probe r = .empty → ¬ mem p r)
    (hsplit : ∀ r a b p, probe r = .branch a b → mem p r → mem p a ∨ mem p b) {fuel : ℕ} {r : R}
    {result : Option V} (h : search probe pick fuel r = some result) {p : P} (hp : mem p r) :
    ∃ s v, Leaf probe r s v ∧ mem p s := by
  induction fuel generalizing r result with
  | zero => cases h
  | succ fuel ih =>
    obtain ⟨hprobe, -⟩ | ⟨v, hprobe, -⟩ | ⟨left, right, a, b, hprobe, ha, hb, -⟩ :=
      search_succ_eq h
    · exact absurd hp (hempty r p hprobe)
    · exact ⟨r, v, .here hprobe, hp⟩
    · obtain hmem | hmem := hsplit r left right p hprobe hp
      · obtain ⟨s, v, hs, hps⟩ := ih ha hmem
        exact ⟨s, v, .left hprobe hs, hps⟩
      · obtain ⟨s, v, hs, hps⟩ := ih hb hmem
        exact ⟨s, v, .right hprobe hs, hps⟩

variable (pick) in
/-- A measure that both halves decrease: with more fuel than the measure the search ends,
always with the same result. -/
theorem search_total (measure : R → ℕ)
    (hdec : ∀ r a b, probe r = .branch a b → measure a < measure r ∧ measure b < measure r)
    (r : R) : ∃ result, ∀ fuel, measure r < fuel → search probe pick fuel r = some result := by
  induction hn : measure r using Nat.strong_induction_on generalizing r with
  | h n ih =>
    cases hprobe : probe r with
    | empty =>
      refine ⟨none, fun fuel hfuel => ?_⟩
      obtain ⟨fuel, rfl⟩ := Nat.exists_eq_add_one_of_ne_zero (Nat.ne_zero_of_lt hfuel)
      rw [search, hprobe]
    | leaf v =>
      refine ⟨some v, fun fuel hfuel => ?_⟩
      obtain ⟨fuel, rfl⟩ := Nat.exists_eq_add_one_of_ne_zero (Nat.ne_zero_of_lt hfuel)
      rw [search, hprobe]
    | branch left right =>
      obtain ⟨hleft, hright⟩ := hdec r left right hprobe
      rw [hn] at hleft hright
      obtain ⟨a, ha⟩ := ih (measure left) hleft left rfl
      obtain ⟨b, hb⟩ := ih (measure right) hright right rfl
      refine ⟨merge pick a b, fun fuel hfuel => ?_⟩
      obtain ⟨fuel, rfl⟩ := Nat.exists_eq_add_one_of_ne_zero (Nat.ne_zero_of_lt hfuel)
      rw [search, hprobe]
      simp only [ha fuel (by omega), hb fuel (by omega), Option.bind_eq_bind, Option.bind_some,
        Option.pure_def]

end Search

end OlinCourses.Search
