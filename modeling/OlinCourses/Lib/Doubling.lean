import Mathlib.Algebra.BigOperators.Fin
import Mathlib.Algebra.BigOperators.Group.Multiset.Basic
import Mathlib.Algebra.Order.BigOperators.Group.Finset
import Mathlib.Data.List.Sort
import Mathlib.Tactic

/-!
# Merging equal pairs

Multisets of numbers in which disjoint equal pairs are replaced by their sum and a
zero. A weight is followed through the merges by what it does to one pair; counting
the entries above each power of two bounds the largest, the second largest and so on.
-/
namespace OlinCourses.Doubling

/-- Disjoint equal pairs `t, t` of the first multiset become `2 * t, 0` in the
second. The zero may stand in later pairs. The last argument is the sum of the merged
entries. -/
inductive Merges : Multiset ℕ → Multiset ℕ → ℕ → Prop
  | nil : Merges 0 0 0
  | keep (t : ℕ) {s s' : Multiset ℕ} {points : ℕ} :
      Merges s s' points → Merges (t ::ₘ s) (t ::ₘ s') points
  | merge (t : ℕ) {s s' : Multiset ℕ} {points : ℕ} :
      Merges (0 ::ₘ s) s' points → Merges (t ::ₘ t ::ₘ s) (2 * t ::ₘ s') (2 * t + points)

namespace Merges

variable {s s' u u' : Multiset ℕ} {p q : ℕ}

theorem refl (s : Multiset ℕ) : Merges s s 0 := by
  induction s using Multiset.induction_on with
  | empty => exact nil
  | cons t s ih => exact keep t ih

theorem add (h : Merges s s' p) (k : Merges u u' q) : Merges (s + u) (s' + u') (p + q) := by
  induction h with
  | nil => simpa using k
  | keep t _ ih =>
    rw [Multiset.cons_add, Multiset.cons_add]
    exact keep t ih
  | merge t _ ih =>
    rw [Multiset.cons_add] at ih
    rw [Multiset.cons_add, Multiset.cons_add, Multiset.cons_add, Nat.add_assoc]
    exact merge t ih

theorem sum {ι : Type*} (t : Finset ι) {f g : ι → Multiset ℕ} {points : ι → ℕ}
    (h : ∀ i ∈ t, Merges (f i) (g i) (points i)) :
    Merges (∑ i ∈ t, f i) (∑ i ∈ t, g i) (∑ i ∈ t, points i) := by
  classical
  induction t using Finset.induction_on with
  | empty => simpa using nil
  | insert i t hi ih =>
    rw [Finset.sum_insert hi, Finset.sum_insert hi, Finset.sum_insert hi]
    exact (h i (Finset.mem_insert_self i t)).add
      (ih fun j hj => h j (Finset.mem_insert_of_mem hj))

theorem card_eq (h : Merges s s' p) : s'.card = s.card := by
  induction h with
  | nil => rfl
  | keep t _ ih => simp [ih]
  | merge t _ ih => simpa using ih

/-- A property of the entries that doubling keeps. -/
theorem forall_mem {P : ℕ → Prop} (hzero : P 0) (hdouble : ∀ t, P t → P (2 * t))
    (h : Merges s s' p) (hs : ∀ t ∈ s, P t) : ∀ t ∈ s', P t := by
  induction h with
  | nil => exact hs
  | keep t _ ih =>
    simp only [Multiset.forall_mem_cons] at hs ⊢
    exact ⟨hs.1, ih hs.2⟩
  | merge t _ ih =>
    simp only [Multiset.forall_mem_cons] at hs ih ⊢
    exact ⟨hdouble t hs.1, ih ⟨hzero, hs.2.2⟩⟩

/-- A weight `w` that a merge of two entries with property `P` raises by the points. -/
theorem weight_eq {P : ℕ → Prop} {w : ℕ → ℕ} {k : ℕ} (hzero : P 0) (hw : w 0 = 0)
    (hdouble : ∀ t, P t → w (2 * t) = 2 * w t + k * (2 * t)) (h : Merges s s' p)
    (hs : ∀ t ∈ s, P t) : (s'.map w).sum = (s.map w).sum + k * p := by
  induction h with
  | nil => rfl
  | keep t _ ih =>
    simp only [Multiset.forall_mem_cons] at hs
    rw [Multiset.map_cons, Multiset.sum_cons, Multiset.map_cons, Multiset.sum_cons, ih hs.2,
      Nat.add_assoc]
  | merge t _ ih =>
    simp only [Multiset.forall_mem_cons] at hs ih
    have hrest := ih ⟨hzero, hs.2.2⟩
    have ht := hdouble t hs.1
    simp only [Multiset.map_cons, Multiset.sum_cons, hw, zero_add] at hrest ⊢
    rw [hrest, ht, Nat.mul_add]
    ring

theorem sum_eq (h : Merges s s' p) : s'.sum = s.sum := by
  simpa using h.weight_eq (P := fun _ => True) (w := id) (k := 0) trivial rfl
    (fun _ _ => by simp) (fun _ _ => trivial)

end Merges

/-- The number of entries that are at least `2 ^ k`. -/
def atLeast (k : ℕ) (s : Multiset ℕ) : ℕ := s.countP (2 ^ k ≤ ·)

theorem atLeast_le_card (k : ℕ) (s : Multiset ℕ) : atLeast k s ≤ s.card :=
  Multiset.countP_le_card _ _

theorem atLeast_cons_of_lt {t k : ℕ} (s : Multiset ℕ) (h : t < 2 ^ k) :
    atLeast k (t ::ₘ s) = atLeast k s :=
  Multiset.countP_cons_of_neg s (by omega)

/-- A merge makes one entry at least `2 ^ (k + 1)` out of two that are at least `2 ^ k`. -/
theorem Merges.atLeast_le {s s' : Multiset ℕ} {p : ℕ} (h : Merges s s' p) (k : ℕ) :
    2 * atLeast (k + 1) s' ≤ atLeast (k + 1) s + atLeast k s := by
  have hpos : 0 < 2 ^ k := Nat.two_pow_pos k
  have hsucc : 2 ^ (k + 1) = 2 * 2 ^ k := by ring
  unfold atLeast at *
  induction h with
  | nil => simp
  | keep t _ ih =>
    simp only [Multiset.countP_cons]
    split_ifs <;> omega
  | merge t _ ih =>
    simp only [Multiset.countP_cons] at ih ⊢
    split_ifs at ih ⊢ <;> omega

/-- In descending order the entries up to place `i` are at least the one there. -/
theorem lt_atLeast_of_le_getElem {l : List ℕ} (hsort : l.Pairwise (· ≥ ·)) {i k : ℕ}
    (hi : i < l.length) (hge : 2 ^ k ≤ l[i]) : i < atLeast k l := by
  have hfirst : ∀ t ∈ l.take (i + 1), 2 ^ k ≤ t := by
    intro t ht
    obtain ⟨j, hj, rfl⟩ := List.mem_take_iff_getElem.mp ht
    rcases Nat.eq_or_lt_of_le (show j ≤ i by omega) with rfl | hlt
    · exact hge
    · exact hge.trans (List.pairwise_iff_getElem.mp hsort j i (by omega) hi hlt)
  have htake : (l.take (i + 1)).countP (2 ^ k ≤ ·) = i + 1 := by
    rw [List.countP_eq_length.mpr (by simpa using hfirst), List.length_take]
    omega
  rw [atLeast, Multiset.coe_countP, ← Nat.succ_le_iff, Nat.succ_eq_add_one, ← htake]
  exact (List.take_sublist _ _).countP_le

/-- Fewer entries above each power of two: none at least `2 ^ (cells + c)`, at most one
at least half of that, and so on down to `2 ^ c`. -/
def Bounded (cells c : ℕ) (s : Multiset ℕ) : Prop := ∀ k, c ≤ k → atLeast k s ≤ cells + c - k

namespace Bounded

variable {cells c : ℕ} {s s' : Multiset ℕ}

/-- Merging keeps the bound. -/
theorem merges {p : ℕ} (hs : Bounded cells c s) (hcard : s.card = cells)
    (h : Merges s s' p) : Bounded cells c s' := by
  intro k hk
  rcases Nat.eq_or_lt_of_le hk with rfl | hlt
  · have hle := atLeast_le_card c s'
    rw [h.card_eq, hcard] at hle
    omega
  · obtain ⟨j, rfl⟩ : ∃ j, k = j + 1 := ⟨k - 1, by omega⟩
    have hmerge := h.atLeast_le j
    have hsame := hs (j + 1) (by omega)
    have hhalf := hs j (by omega)
    omega

/-- A new entry below `2 ^ (c + 1)` in the place of a zero keeps the bound. -/
theorem replace_zero {v : ℕ} (hs : Bounded cells c (0 ::ₘ s)) (hcard : s.card + 1 = cells)
    (hv : v < 2 ^ (c + 1)) : Bounded cells c (v ::ₘ s) := by
  intro k hk
  rcases Nat.eq_or_lt_of_le hk with rfl | hlt
  · have hle := atLeast_le_card c (v ::ₘ s)
    rw [Multiset.card_cons] at hle
    omega
  · have hpow : 2 ^ (c + 1) ≤ 2 ^ k := Nat.pow_le_pow_right (by norm_num) hlt
    have hzero := hs k hk
    rw [atLeast_cons_of_lt s (Nat.two_pow_pos k)] at hzero
    rw [atLeast_cons_of_lt s (by omega)]
    exact hzero

/-- Entries below `2 ^ (c + 1)` satisfy the bound. -/
theorem of_lt (hcard : s.card = cells) (hlt : ∀ t ∈ s, t < 2 ^ (c + 1)) : Bounded cells c s := by
  intro k hk
  rcases Nat.eq_or_lt_of_le hk with rfl | hck
  · have hle := atLeast_le_card c s
    omega
  · have hnone : atLeast k s = 0 := by
      rw [atLeast, Multiset.countP_eq_zero]
      intro t ht hle
      have hpow : 2 ^ (c + 1) ≤ 2 ^ k := Nat.pow_le_pow_right (by norm_num) hck
      have := hlt t ht
      omega
    omega

/-- The entries in descending order lie below descending powers of two. -/
theorem getElem_lt {l : List ℕ} (hs : Bounded cells c l) (hcard : l.length = cells)
    (hsort : l.Pairwise (· ≥ ·)) (i : ℕ) (hi : i < l.length) : l[i] < 2 ^ (cells + c - i) := by
  by_contra hge
  rw [Nat.not_lt] at hge
  have hcount := lt_atLeast_of_le_getElem hsort hi hge
  have hbound := hs (cells + c - i) (by omega)
  omega

end Bounded

theorem sum_le_of_getElem_le {l : List ℕ} {f : ℕ → ℕ}
    (h : ∀ i (hi : i < l.length), l[i] ≤ f i) : l.sum ≤ ∑ i ∈ Finset.range l.length, f i := by
  calc l.sum = ∑ i : Fin l.length, l[i.val] := (Fin.sum_univ_getElem l).symm
    _ ≤ ∑ i : Fin l.length, f i := Finset.sum_le_sum fun i _ => h i i.isLt
    _ = ∑ i ∈ Finset.range l.length, f i := (Finset.sum_range f).symm

/-- A merge of entries at one level takes two of them out of the level below. -/
theorem Merges.atLeast_add_le {s s' : Multiset ℕ} {p : ℕ} (h : Merges s s' p) (k : ℕ) :
    2 * (atLeast (k + 1) s' + atLeast (k + 2) s') ≤
      atLeast k s + atLeast (k + 1) s + 2 * atLeast (k + 2) s := by
  have hpos : 0 < 2 ^ k := Nat.two_pow_pos k
  have hsucc : 2 ^ (k + 1) = 2 * 2 ^ k := by ring
  have hsucc' : 2 ^ (k + 2) = 4 * 2 ^ k := by ring
  unfold atLeast at *
  induction h with
  | nil => simp
  | keep t _ ih =>
    simp only [Multiset.countP_cons]
    split_ifs <;> omega
  | merge t _ ih =>
    simp only [Multiset.countP_cons] at ih ⊢
    split_ifs at ih ⊢ <;> omega

/-- The levels at which the bound is reached. -/
def fullLevels (cells c : ℕ) (s : Multiset ℕ) : Finset ℕ :=
  (Finset.Ico c (cells + c)).filter fun k => atLeast k s = cells + c - k

theorem mem_fullLevels {cells c k : ℕ} {s : Multiset ℕ} : k ∈ fullLevels cells c s ↔
    (c ≤ k ∧ k < cells + c) ∧ atLeast k s = cells + c - k := by
  rw [fullLevels, Finset.mem_filter, Finset.mem_Ico]

namespace Bounded

variable {cells c : ℕ} {s s' : Multiset ℕ} {p : ℕ}

/-- The level below the first one may hold every entry. -/
theorem atLeast_pred_le (hs : Bounded cells c s) (hcard : s.card = cells) {k : ℕ}
    (hk : c ≤ k + 1) : atLeast k s ≤ cells + c - k := by
  by_cases hle : c ≤ k
  · exact hs k hle
  · have hall := atLeast_le_card k s
    omega

/-- A level that a merge fills was full, or the level below it was. -/
theorem full_before (hs : Bounded cells c s) (hcard : s.card = cells) (hc : 0 < c)
    (h : Merges s s' p) {k : ℕ} (hk : k ∈ fullLevels cells c s')
    (hnew : k ∉ fullLevels cells c s) : c < k ∧ k - 1 ∈ fullLevels cells c s := by
  obtain ⟨hrange, hfull⟩ := mem_fullLevels.mp hk
  obtain ⟨j, rfl⟩ : ∃ j, k = j + 1 := ⟨k - 1, by omega⟩
  have hmerge := h.atLeast_le j
  have hle := hs (j + 1) hrange.1
  have hbelow := hs.atLeast_pred_le hcard hrange.1
  rw [mem_fullLevels] at hnew ⊢
  rw [Nat.add_sub_cancel]
  have hlevel : c ≠ j + 1 := by
    -- all entries would be at the first level, before and after
    intro hfirst
    have hall := atLeast_le_card j s
    omega
  omega

/-- A full level does not stay full while it fills the next one. -/
theorem not_full_twice (hs : Bounded cells c s) (hcard : s.card = cells) (hc : 0 < c)
    (h : Merges s s' p) {k : ℕ} (hk : k ∈ fullLevels cells c s')
    (hnext : k + 1 ∈ fullLevels cells c s') : k + 1 ∈ fullLevels cells c s := by
  obtain ⟨hrange, hfull⟩ := mem_fullLevels.mp hk
  obtain ⟨j, rfl⟩ : ∃ j, k = j + 1 := ⟨k - 1, by omega⟩
  change j + 2 ∈ fullLevels cells c s' at hnext
  change j + 2 ∈ fullLevels cells c s
  obtain ⟨hrange', hfull'⟩ := mem_fullLevels.mp hnext
  have hmerge := h.atLeast_add_le j
  have hle := hs (j + 1) hrange.1
  have hle' := hs (j + 2) hrange'.1
  have hbelow := hs.atLeast_pred_le hcard hrange.1
  rw [mem_fullLevels]
  omega

/-- Merging fills no more levels than were full. -/
theorem card_fullLevels_merges (hs : Bounded cells c s) (hcard : s.card = cells) (hc : 0 < c)
    (h : Merges s s' p) : (fullLevels cells c s').card ≤ (fullLevels cells c s).card := by
  -- a level stands for itself if it was full before, and for the one below it otherwise
  apply Finset.card_le_card_of_injOn fun k => if k ∈ fullLevels cells c s then k else k - 1
  · intro k hk
    dsimp only
    split_ifs with hold
    · exact hold
    · exact (hs.full_before hcard hc h hk hold).2
  · intro k hk k' hk' heq
    dsimp only at heq
    split_ifs at heq with hold hold' hold'
    · exact heq
    · obtain ⟨hlt, -⟩ := hs.full_before hcard hc h hk' hold'
      obtain rfl : k' = k + 1 := by omega
      exact absurd (hs.not_full_twice hcard hc h hk hk') hold'
    · obtain ⟨hlt, -⟩ := hs.full_before hcard hc h hk hold
      obtain rfl : k = k' + 1 := by omega
      exact absurd (hs.not_full_twice hcard hc h hk' hk) hold
    · have hpos := (hs.full_before hcard hc h hk hold).1
      have hpos' := (hs.full_before hcard hc h hk' hold').1
      omega

end Bounded

/-- A new entry below `2 ^ c` in the place of a zero fills no level. -/
theorem fullLevels_replace_zero {cells c v : ℕ} (s : Multiset ℕ) (hv : v < 2 ^ c) :
    fullLevels cells c (v ::ₘ s) = fullLevels cells c (0 ::ₘ s) := by
  ext k
  rw [mem_fullLevels, mem_fullLevels]
  apply and_congr_right
  intro hk
  have hpow : 2 ^ c ≤ 2 ^ k := Nat.pow_le_pow_right (by norm_num) hk.1
  rw [atLeast_cons_of_lt s (by omega), atLeast_cons_of_lt s (Nat.two_pow_pos k)]

/-- One below `2 ^ (c + 1)` fills at most the first level. -/
theorem card_fullLevels_replace_zero {cells c v : ℕ} (s : Multiset ℕ) (hv : v < 2 ^ (c + 1)) :
    (fullLevels cells c (v ::ₘ s)).card ≤ (fullLevels cells c (0 ::ₘ s)).card + 1 := by
  have hsub : fullLevels cells c (v ::ₘ s) ⊆ insert c (fullLevels cells c (0 ::ₘ s)) := by
    intro k hk
    rw [Finset.mem_insert]
    obtain ⟨hrange, hfull⟩ := mem_fullLevels.mp hk
    rcases Nat.eq_or_lt_of_le hrange.1 with rfl | hlt
    · exact Or.inl rfl
    · have hpow : 2 ^ (c + 1) ≤ 2 ^ k := Nat.pow_le_pow_right (by norm_num) hlt
      rw [atLeast_cons_of_lt s (by omega)] at hfull
      refine Or.inr (mem_fullLevels.mpr ⟨hrange, ?_⟩)
      rw [atLeast_cons_of_lt s (Nat.two_pow_pos k), hfull]
  exact (Finset.card_le_card hsub).trans (Finset.card_insert_le _ _)

end OlinCourses.Doubling
