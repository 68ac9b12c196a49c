import Mathlib.Data.List.Range
import Mathlib.Logic.Equiv.Basic
import Mathlib.Tactic

/-!
# Exchange sort

Each position in turn is compared with all later ones and takes the smaller value of the
two. A sequence is a function of the position, of which the first `n` values count.
-/
namespace OlinCourses.Exchange

variable {α : Type*} [LinearOrder α]

/-- Positions `i` and `j` change places if they are out of order. -/
def exchange (i : ℕ) (a : ℕ → α) (j : ℕ) : ℕ → α := if a j < a i then a ∘ Equiv.swap i j else a

/-- Position `i` against the later ones. -/
def pass (n : ℕ) (a : ℕ → α) (i : ℕ) : ℕ → α :=
  (List.range' (i + 1) (n - (i + 1))).foldl (exchange i) a

def sort (n passes : ℕ) (a : ℕ → α) : ℕ → α := (List.range passes).foldl (pass n) a

/-- The first `n` values. -/
def values (n : ℕ) (a : ℕ → α) : List α := (List.range n).map a

omit [LinearOrder α] in
theorem values_comp_perm {σ : Equiv.Perm ℕ} {n : ℕ} (hσ : ∀ i < n, σ i < n) (a : ℕ → α) :
    (values n (a ∘ σ)).Perm (values n a) := by
  have hperm : ((List.range n).map σ).Perm (List.range n) := by
    refine List.Subperm.perm_of_length_le ?_ (by simp)
    refine List.subperm_of_subset (List.nodup_range.map σ.injective) fun i hi => ?_
    obtain ⟨j, hj, rfl⟩ := List.mem_map.mp hi
    exact List.mem_range.mpr (hσ j (List.mem_range.mp hj))
  rw [values, ← List.map_map]
  exact hperm.map a

theorem values_exchange {n i j : ℕ} (hi : i < n) (hj : j < n) (a : ℕ → α) :
    (values n (exchange i a j)).Perm (values n a) := by
  unfold exchange
  split_ifs
  · refine values_comp_perm (fun k hk => ?_) a
    rw [Equiv.swap_apply_def]
    split_ifs <;> assumption
  · exact List.Perm.refl _

theorem mem_later {n i j : ℕ} : j ∈ List.range' (i + 1) (n - (i + 1)) ↔ i < j ∧ j < n := by
  rw [List.mem_range'_1]
  omega

theorem values_pass (n i : ℕ) (a : ℕ → α) : (values n (pass n a i)).Perm (values n a) := by
  have hloop : ∀ js : List ℕ, (∀ j ∈ js, i < j ∧ j < n) → ∀ a : ℕ → α,
      (values n (js.foldl (exchange i) a)).Perm (values n a) := by
    intro js
    induction js with
    | nil => exact fun _ a => List.Perm.refl _
    | cons j js ih =>
      intro hjs a
      obtain ⟨hij, hj⟩ := hjs j List.mem_cons_self
      have hrest := ih (fun j' hj' => hjs j' (List.mem_cons_of_mem j hj')) (exchange i a j)
      exact hrest.trans (values_exchange (hij.trans hj) hj a)
  exact hloop _ (fun j hj => mem_later.mp hj) a

theorem values_sort (n passes : ℕ) (a : ℕ → α) :
    (values n (sort n passes a)).Perm (values n a) := by
  induction passes with
  | zero => exact List.Perm.refl _
  | succ passes ih =>
    rw [sort, List.range_succ, List.foldl_concat]
    exact (values_pass n passes _).trans ih

/-- Position `p` holds a least value of those from `p` on. -/
def Settled (n : ℕ) (a : ℕ → α) (p : ℕ) : Prop := ∀ q, p < q → q < n → a p ≤ a q

/-- An exchange of later positions leaves a settled position settled. -/
theorem Settled.exchange {n : ℕ} {a : ℕ → α} {p i j : ℕ} (h : Settled n a p) (hpi : p < i)
    (hij : i < j) (hj : j < n) : Settled n (exchange i a j) p := by
  intro q hpq hq
  have hi := h i hpi (hij.trans hj)
  have hj' := h j (hpi.trans hij) hj
  have hq' := h q hpq hq
  unfold Exchange.exchange
  split_ifs
  · rw [Function.comp_apply, Function.comp_apply,
      Equiv.swap_apply_of_ne_of_ne hpi.ne (hpi.trans hij).ne, Equiv.swap_apply_def]
    split_ifs <;> assumption
  · exact hq'

/-- After the comparisons with the positions before `m`, position `i` holds the least of these
values. -/
theorem exchange_least {a : ℕ → α} {i m : ℕ} (him : i < m)
    (h : ∀ q, i < q → q < m → a i ≤ a q) :
    ∀ q, i < q → q < m + 1 → exchange i a m i ≤ exchange i a m q := by
  intro q hiq hqm
  unfold exchange
  split_ifs with hlt
  · rw [Function.comp_apply, Function.comp_apply, Equiv.swap_apply_left]
    obtain rfl | hne := eq_or_ne q m
    · rw [Equiv.swap_apply_right]
      exact hlt.le
    · rw [Equiv.swap_apply_of_ne_of_ne hiq.ne' hne]
      exact hlt.le.trans (h q hiq (by omega))
  · obtain rfl | hne := eq_or_ne q m
    · exact not_lt.mp hlt
    · exact h q hiq (by omega)

/-- A pass settles its position and leaves those before it settled. -/
theorem settled_pass {n i : ℕ} {a : ℕ → α} (h : ∀ p < i, Settled n a p) :
    ∀ p < i + 1, Settled n (pass n a i) p := by
  have hloop : ∀ k, i + 1 + k ≤ n →
      (∀ p < i, Settled n ((List.range' (i + 1) k).foldl (exchange i) a) p) ∧
      ∀ q, i < q → q < i + 1 + k → (List.range' (i + 1) k).foldl (exchange i) a i ≤
        (List.range' (i + 1) k).foldl (exchange i) a q := by
    intro k
    induction k with
    | zero => exact fun _ => ⟨h, fun q hiq hq => absurd hq (by omega)⟩
    | succ k ih =>
      intro hk
      obtain ⟨hbefore, hleast⟩ := ih (by omega)
      have him : i < i + 1 + k := by omega
      rw [List.range'_concat, Nat.one_mul, List.foldl_concat]
      exact ⟨fun p hp => (hbefore p hp).exchange hp him (by omega), exchange_least him hleast⟩
  intro p hp
  by_cases hn : i + 1 ≤ n
  · obtain ⟨hbefore, hleast⟩ := hloop (n - (i + 1)) (by omega)
    obtain hlt | rfl := Nat.lt_succ_iff_lt_or_eq.mp hp
    · exact hbefore p hlt
    · exact fun q hpq hq => hleast q hpq (by omega)
  · have hnone : pass n a i = a := by
      rw [pass, Nat.sub_eq_zero_of_le (by omega)]
      rfl
    rw [hnone]
    obtain hlt | rfl := Nat.lt_succ_iff_lt_or_eq.mp hp
    · exact h p hlt
    · exact fun q hpq hq => absurd hq (by omega)

/-- With a pass for each position but the last, all values are in order. -/
theorem pairwise_sort {n passes : ℕ} (hpasses : n - 1 ≤ passes) (a : ℕ → α) :
    (values n (sort n passes a)).Pairwise (· ≤ ·) := by
  have hsettled : ∀ k, ∀ p < k, Settled n (sort n k a) p := by
    intro k
    induction k with
    | zero => exact fun p hp => absurd hp (Nat.not_lt_zero p)
    | succ k ih =>
      rw [sort, List.range_succ, List.foldl_concat]
      exact settled_pass ih
  rw [values, List.pairwise_map]
  refine List.pairwise_lt_range.imp_of_mem fun {p q} hp hq hpq => ?_
  rw [List.mem_range] at hp hq
  exact hsettled passes p (by omega) q hpq hq

end OlinCourses.Exchange
