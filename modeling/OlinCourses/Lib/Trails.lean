import Mathlib.Algebra.BigOperators.Group.Finset.Basic
import Mathlib.Algebra.BigOperators.Ring.Finset
import Mathlib.Algebra.Order.BigOperators.Group.Finset
import Mathlib.Data.Fintype.Basic
import Mathlib.Tactic

/-!
# Trails and unit flows in multigraphs

Walks along the arcs of a directed multigraph, the net number of arcs that leave a
node, and flows of value 0 or 1 on each arc: disjoint walks from source to sink form
such a flow, and the arcs of a flow that such walks leave over lead on from wherever
a walk has come to, until their number reaches the value.
-/
namespace OlinCourses.Trails

variable {N A : Type*}

/-- A directed multigraph with node type `N` and arc type `A`. -/
structure Multigraph (N A : Type*) where
  tail : A → N
  head : A → N

namespace Multigraph

variable (G : Multigraph N A)

/-- The arcs lead from the first node to the last. -/
def IsWalk : N → List A → N → Prop
  | u, [], v => u = v
  | u, a :: as, v => G.tail a = u ∧ IsWalk (G.head a) as v

/-- The nodes that a walk from `u` visits. -/
def nodes (u : N) (as : List A) : List N := u :: as.map G.head

theorem isWalk_concat {u v : N} {as : List A} (h : G.IsWalk u as v) {a : A} (ha : G.tail a = v) :
    G.IsWalk u (as ++ [a]) (G.head a) := by
  induction as generalizing u with
  | nil => exact ⟨ha.trans h.symm, rfl⟩
  | cons b as ih => exact ⟨h.1, ih h.2⟩

theorem nodes_concat (u : N) (as : List A) (a : A) :
    G.nodes u (as ++ [a]) = G.nodes u as ++ [G.head a] := by
  simp [nodes]

theorem isWalk_append {u v : N} {as bs : List A} (h : G.IsWalk u (as ++ bs) v) :
    ∃ w, G.IsWalk u as w ∧ G.IsWalk w bs v := by
  induction as generalizing u with
  | nil => exact ⟨u, rfl, h⟩
  | cons a as ih =>
    obtain ⟨w, hfirst, hsecond⟩ := ih h.2
    exact ⟨w, ⟨h.1, hfirst⟩, hsecond⟩

/-- A walk that comes back to an arc can go on from there at once. -/
theorem exists_trail {u v : N} {as : List A} (h : G.IsWalk u as v) :
    ∃ bs, G.IsWalk u bs v ∧ bs.Nodup ∧ bs ⊆ as := by
  induction as generalizing u with
  | nil => exact ⟨[], h, List.nodup_nil, List.Subset.refl _⟩
  | cons a as ih =>
    obtain ⟨bs, hwalk, hnodup, hsub⟩ := ih h.2
    by_cases hmem : a ∈ bs
    · obtain ⟨before, after, rfl⟩ := List.append_of_mem hmem
      obtain ⟨w, -, hafter⟩ := G.isWalk_append hwalk
      exact ⟨a :: after, ⟨h.1, hafter.2⟩, hnodup.of_append_right,
        List.cons_subset.mpr ⟨List.mem_cons_self, fun b hb =>
          List.mem_cons_of_mem a (hsub (List.mem_append_right _ (List.mem_cons_of_mem a hb)))⟩⟩
    · exact ⟨a :: bs, ⟨h.1, hwalk⟩, List.nodup_cons.mpr ⟨hmem, hnodup⟩,
        List.cons_subset.mpr ⟨List.mem_cons_self, fun b hb => List.mem_cons_of_mem a (hsub hb)⟩⟩

/-- A walk out of a set of nodes has an arc that leaves the set. -/
theorem exists_leaving {S : Set N} {u v : N} {as : List A} (h : G.IsWalk u as v) (hu : u ∈ S)
    (hv : v ∉ S) : ∃ a ∈ as, G.tail a ∈ S ∧ G.head a ∉ S := by
  induction as generalizing u with
  | nil => exact absurd (h ▸ hu) hv
  | cons a as ih =>
    by_cases hhead : G.head a ∈ S
    · obtain ⟨b, hb, hleaves⟩ := ih h.2 hhead
      exact ⟨b, List.mem_cons_of_mem a hb, hleaves⟩
    · exact ⟨a, List.mem_cons_self, h.1 ▸ hu, hhead⟩

/-- Every arc in both directions. -/
def residual : Multigraph N (A × Bool) where
  tail step := if step.2 then G.tail step.1 else G.head step.1
  head step := if step.2 then G.head step.1 else G.tail step.1

variable [DecidableEq N]

/-- What an arc adds to the net number of arcs that leave `v`. -/
def leaves (v : N) (a : A) : ℤ := (if G.tail a = v then 1 else 0) - if G.head a = v then 1 else 0

/-- A walk leaves its first node and enters its last. -/
theorem sum_leaves_walk {u v : N} {as : List A} (h : G.IsWalk u as v) (x : N) :
    (as.map (G.leaves x)).sum = (if u = x then 1 else 0) - if v = x then 1 else 0 := by
  induction as generalizing u with
  | nil =>
    obtain rfl := h
    simp
  | cons a as ih =>
    obtain ⟨rfl, hrest⟩ := h
    rw [List.map_cons, List.sum_cons, ih hrest, leaves]
    ring

/-- Walks from `s` to `t` leave `s` and enter `t` once each. -/
theorem sum_leaves_walks {s t : N} {walks : List (List A)}
    (h : ∀ as ∈ walks, G.IsWalk s as t) (x : N) :
    (walks.flatten.map (G.leaves x)).sum =
      walks.length * ((if s = x then 1 else 0) - if t = x then 1 else 0) := by
  induction walks with
  | nil => simp
  | cons as walks ih =>
    rw [List.flatten_cons, List.map_append, List.sum_append,
      sum_leaves_walk G (h as List.mem_cons_self),
      ih fun bs hbs => h bs (List.mem_cons_of_mem as hbs), List.length_cons]
    push_cast
    ring

end Multigraph

open Multigraph

section Flows

variable [DecidableEq N] [Fintype A] (G : Multigraph N A)

/-- The flow out of a node, less the flow into it. -/
def net (flow : A → ℤ) (v : N) : ℤ := ∑ a, flow a * G.leaves v a

/-- An integral flow from `s` to `t` within unit capacities. -/
structure IsFlow (s t : N) (flow : A → ℤ) (value : ℤ) : Prop where
  nonneg : ∀ a, 0 ≤ flow a
  le_one : ∀ a, flow a ≤ 1
  conserves : ∀ v, v ≠ s → v ≠ t → net G flow v = 0
  value_eq : net G flow s = value

structure IsMaxFlow (s t : N) (flow : A → ℤ) (value : ℤ) : Prop
    extends IsFlow G s t flow value where
  maximal : ∀ flow' value', IsFlow G s t flow' value' → value' ≤ value

variable [DecidableEq A]

/-- The net flow of a duplicate-free list of arcs. -/
theorem net_indicator {arcs : List A} (h : arcs.Nodup) (v : N) :
    net G (fun a => if a ∈ arcs then 1 else 0) v = (arcs.map (G.leaves v)).sum := by
  rw [← List.sum_toFinset _ h, ← Finset.univ_inter arcs.toFinset, ← Finset.sum_ite_mem, net]
  simp

/-- Arc-disjoint walks from source to sink form a flow, with their number as value. -/
theorem isFlow_walks {s t : N} (hst : s ≠ t) {walks : List (List A)}
    (hwalk : ∀ as ∈ walks, G.IsWalk s as t) (hdisjoint : walks.flatten.Nodup) :
    IsFlow G s t (fun a => if a ∈ walks.flatten then 1 else 0) walks.length where
  nonneg a := by split_ifs <;> decide
  le_one a := by split_ifs <;> decide
  conserves v hs ht := by
    rw [net_indicator G hdisjoint, G.sum_leaves_walks hwalk, if_neg hs.symm, if_neg ht.symm]
    ring
  value_eq := by
    rw [net_indicator G hdisjoint, G.sum_leaves_walks hwalk, if_pos rfl, if_neg hst.symm]
    ring

variable {G}

/-- A maximum flow bounds the number of arc-disjoint walks. -/
theorem IsMaxFlow.length_le {s t : N} {flow : A → ℤ} {value : ℤ} (h : IsMaxFlow G s t flow value)
    (hst : s ≠ t) {walks : List (List A)} (hwalk : ∀ as ∈ walks, G.IsWalk s as t)
    (hdisjoint : walks.flatten.Nodup) : (walks.length : ℤ) ≤ value :=
  h.maximal _ _ (isFlow_walks G hst hwalk hdisjoint)

/-- Arcs of positive flow outside `arcs` leave `v` as long as the net flow of `v` exceeds
what `arcs` carries away. -/
theorem IsFlow.exists_unused {s t : N} {flow : A → ℤ} {value : ℤ} (h : IsFlow G s t flow value)
    {arcs : List A} (hnodup : arcs.Nodup) (hflow : ∀ a ∈ arcs, 0 < flow a) {v : N}
    (hlt : (arcs.map (G.leaves v)).sum < net G flow v) :
    ∃ a, a ∉ arcs ∧ G.tail a = v ∧ 0 < flow a := by
  rw [← net_indicator G hnodup, net, net] at hlt
  obtain ⟨a, -, ha⟩ := Finset.exists_lt_of_sum_lt hlt
  have hnonneg := h.nonneg a
  have hle := h.le_one a
  by_cases hmem : a ∈ arcs
  · have hone : flow a = 1 := by
      have hpos := hflow a hmem
      omega
    rw [if_pos hmem, hone] at ha
    exact absurd ha (lt_irrefl _)
  · rw [if_neg hmem, zero_mul] at ha
    have hpos : 0 < flow a := by
      refine lt_of_le_of_ne hnonneg fun hzero => ?_
      rw [← hzero, zero_mul] at ha
      exact lt_irrefl _ ha
    refine ⟨a, hmem, ?_, hpos⟩
    by_contra htail
    rw [leaves, if_neg htail] at ha
    split_ifs at ha <;> nlinarith

/-- Behind disjoint walks to the sink and a trail from the source to `v`, an unused arc leads
on from `v`, unless the trail is back at the source and the value is reached. -/
theorem IsFlow.exists_next {s t : N} {flow : A → ℤ} {value : ℤ} (h : IsFlow G s t flow value)
    {walks : List (List A)} (hwalk : ∀ as ∈ walks, G.IsWalk s as t) {trail : List A} {v : N}
    (htrail : G.IsWalk s trail v) (hnodup : (walks.flatten ++ trail).Nodup)
    (hflow : ∀ a ∈ walks.flatten ++ trail, 0 < flow a) (hvt : v ≠ t)
    (hopen : v = s → (walks.length : ℤ) < value) :
    ∃ a, a ∉ walks.flatten ++ trail ∧ G.tail a = v ∧ 0 < flow a := by
  apply h.exists_unused hnodup hflow
  rw [List.map_append, List.sum_append, G.sum_leaves_walks hwalk, G.sum_leaves_walk htrail,
    if_neg hvt.symm, if_pos rfl]
  by_cases hvs : v = s
  · have hlt := hopen hvs
    rw [hvs, h.value_eq, if_pos rfl]
    linarith
  · rw [h.conserves v hvs hvt, if_neg (Ne.symm hvs)]
    simp

/-- An arc can be taken forwards while it carries no flow, and backwards while it does. -/
def Open (flow : A → ℤ) (step : A × Bool) : Prop := flow step.1 = if step.2 then 0 else 1

/-- The flow after the steps of a trail. -/
def augment (flow : A → ℤ) (trail : List (A × Bool)) (a : A) : ℤ :=
  flow a + ((if (a, true) ∈ trail then 1 else 0) - if (a, false) ∈ trail then 1 else 0)

variable (G) in
theorem net_augment (flow : A → ℤ) {trail : List (A × Bool)} (h : trail.Nodup) (v : N) :
    net G (augment flow trail) v =
      net G flow v + (trail.map (G.residual.leaves v)).sum := by
  have hback : ∀ a, G.residual.leaves v (a, false) = -G.leaves v a := fun a => (neg_sub _ _).symm
  have hforth : ∀ a, G.residual.leaves v (a, true) = G.leaves v a := fun a => rfl
  rw [← net_indicator G.residual h, net, net, net, Fintype.sum_prod_type, ← Finset.sum_add_distrib]
  apply Finset.sum_congr rfl
  intro a _
  rw [Fintype.sum_bool, hback, hforth, augment, add_mul, sub_mul, mul_neg, ← sub_eq_add_neg]
  -- The two sides decide membership by different instances.
  congr!

/-- A residual walk from source to sink would carry one more unit. -/
theorem IsMaxFlow.not_reaches {s t : N} {flow : A → ℤ} {value : ℤ}
    (h : IsMaxFlow G s t flow value) (hst : s ≠ t) {steps : List (A × Bool)}
    (hwalk : G.residual.IsWalk s steps t) : ¬ ∀ step ∈ steps, Open flow step := by
  intro hopen
  obtain ⟨trail, htrail, hnodup, hsub⟩ := G.residual.exists_trail hwalk
  have hforth : ∀ a, (a, true) ∈ trail → flow a = 0 := fun a ha => hopen _ (hsub ha)
  have hback : ∀ a, (a, false) ∈ trail → flow a = 1 := fun a ha => hopen _ (hsub ha)
  have hflow : IsFlow G s t (augment flow trail) (value + 1) := by
    refine ⟨fun a => ?_, fun a => ?_, fun v hs ht => ?_, ?_⟩
    · have hnonneg := h.nonneg a
      rw [augment]
      split_ifs with htrue hfalse hfalse
      · omega
      · omega
      · rw [hback a hfalse]
        decide
      · omega
    · have hle := h.le_one a
      rw [augment]
      split_ifs with htrue hfalse hfalse
      · omega
      · rw [hforth a htrue]
        decide
      · omega
      · omega
    · rw [net_augment G flow hnodup, h.conserves v hs ht, G.residual.sum_leaves_walk htrail,
        if_neg hs.symm, if_neg ht.symm]
      ring
    · rw [net_augment G flow hnodup, h.value_eq, G.residual.sum_leaves_walk htrail,
        if_pos rfl, if_neg hst.symm]
      ring
  have hle := h.maximal _ _ hflow
  omega

/-- The nodes that residual walks reach. -/
def reached (G : Multigraph N A) (s : N) (flow : A → ℤ) : Set N :=
  {v | ∃ steps, G.residual.IsWalk s steps v ∧ ∀ step ∈ steps, Open flow step}

omit [DecidableEq N] [Fintype A] [DecidableEq A] in
theorem reached_step {s : N} {flow : A → ℤ} {step : A × Bool} (hopen : Open flow step)
    (htail : G.residual.tail step ∈ reached G s flow) :
    G.residual.head step ∈ reached G s flow := by
  obtain ⟨steps, hwalk, hsteps⟩ := htail
  refine ⟨steps ++ [step], G.residual.isWalk_concat hwalk rfl, fun other hother => ?_⟩
  rw [List.mem_append, List.mem_singleton] at hother
  obtain hother | rfl := hother
  · exact hsteps other hother
  · exact hopen

omit [DecidableEq A] in
/-- The flow out of a finite set of nodes. -/
theorem sum_net (flow : A → ℤ) (T : Finset N) :
    ∑ v ∈ T, net G flow v =
      ∑ a, flow a * ((if G.tail a ∈ T then 1 else 0) - if G.head a ∈ T then 1 else 0) := by
  simp only [net]
  rw [Finset.sum_comm]
  apply Finset.sum_congr rfl
  intro a _
  rw [← Finset.mul_sum]
  simp only [leaves]
  rw [Finset.sum_sub_distrib, Finset.sum_ite_eq, Finset.sum_ite_eq]

/-- As many arcs as the value of a maximum flow separate the sink from the source. -/
theorem IsMaxFlow.exists_cut {s t : N} {flow : A → ℤ} {value : ℤ} (h : IsMaxFlow G s t flow value)
    (hst : s ≠ t) :
    ∃ cut : Finset A, (cut.card : ℤ) = value ∧ ∀ as, G.IsWalk s as t → ∃ a ∈ as, a ∈ cut := by
  classical
  let S := reached G s flow
  let T := (insert s (Finset.univ.image G.tail ∪ Finset.univ.image G.head)).filter (· ∈ S)
  have hs : s ∈ S := ⟨[], rfl, fun step hstep => absurd hstep List.not_mem_nil⟩
  have ht : t ∉ S := by
    rintro ⟨steps, hwalk, hopen⟩
    exact h.not_reaches hst hwalk hopen
  have htail : ∀ a, G.tail a ∈ T ↔ G.tail a ∈ S := fun a => by simp [T]
  have hhead : ∀ a, G.head a ∈ T ↔ G.head a ∈ S := fun a => by simp [T]
  have hsum : ∑ v ∈ T, net G flow v = value := by
    rw [← h.value_eq]
    apply Finset.sum_eq_single_of_mem s (by simp [T, hs])
    intro v hv hvs
    refine h.conserves v hvs fun hvt => ht ?_
    rw [← hvt]
    exact (Finset.mem_filter.mp hv).2
  refine ⟨Finset.univ.filter fun a => G.tail a ∈ S ∧ G.head a ∉ S, ?_, fun as hwalk => ?_⟩
  · rw [← hsum, sum_net, Finset.card_filter, Nat.cast_sum]
    apply Finset.sum_congr rfl
    intro a _
    rw [if_congr (htail a) rfl rfl, if_congr (hhead a) rfl rfl]
    have hnonneg := h.nonneg a
    have hle := h.le_one a
    by_cases hout : G.tail a ∈ S <;> by_cases hin : G.head a ∈ S
    · simp [hout, hin]
    · have hone : flow a = 1 := by
        by_contra hne
        have hopen : Open flow (a, true) := show flow a = 0 by omega
        exact hin (reached_step hopen hout)
      simp [hout, hin, hone]
    · have hzero : flow a = 0 := by
        by_contra hne
        have hopen : Open flow (a, false) := show flow a = 1 by omega
        exact hout (reached_step hopen hin)
      simp [hout, hin, hzero]
    · simp [hout, hin]
  · obtain ⟨a, ha, hleaves⟩ := G.exists_leaving hwalk hs ht
    exact ⟨a, ha, by simp [hleaves.1, hleaves.2]⟩

end Flows

end OlinCourses.Trails
