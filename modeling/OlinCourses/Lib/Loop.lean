import Mathlib.Tactic

/-!
# Loops that may fail

A `while` loop whose body goes on with a new state, leaves with a result or fails,
run on fuel; counted loops and comprehensions over lists; and their rules of total
correctness.
-/
namespace OlinCourses.Loop

section While

variable {σ ρ : Type*}

/-- `none` is a loop that runs out of fuel, or whose body fails. -/
def loop (body : σ → Option (σ ⊕ ρ)) : ℕ → σ → Option ρ
  | 0, _ => none
  | fuel + 1, s => (body s).bind (Sum.elim (loop body fuel) some)

/-- An invariant that the body keeps, with a measure that every round decreases: the loop
ends within the measure and its result is one that the body leaves with. -/
theorem loop_total {body : σ → Option (σ ⊕ ρ)} {Post : ρ → Prop} (Inv : σ → Prop)
    (measure : σ → ℕ)
    (hbody : ∀ s, Inv s → (∃ s', body s = some (.inl s') ∧ Inv s' ∧ measure s' < measure s) ∨
      ∃ r, body s = some (.inr r) ∧ Post r)
    {s : σ} (hs : Inv s) {fuel : ℕ} (hfuel : measure s < fuel) :
    ∃ r, loop body fuel s = some r ∧ Post r := by
  induction fuel generalizing s with
  | zero => omega
  | succ fuel ih =>
    obtain ⟨s', hnext, hs', hdec⟩ | ⟨r, hleave, hr⟩ := hbody s hs
    · obtain ⟨r, hloop, hr⟩ := ih hs' (by omega)
      exact ⟨r, by rw [loop, hnext, Option.bind_some, Sum.elim_inl, hloop], hr⟩
    · exact ⟨r, by rw [loop, hleave, Option.bind_some, Sum.elim_inr], hr⟩

/-- More fuel, also in the rounds, does not change the result. -/
theorem loop_mono {body body' : σ → Option (σ ⊕ ρ)}
    (hbody : ∀ s out, body s = some out → body' s = some out) {fuel : ℕ} {s : σ} {r : ρ}
    (h : loop body fuel s = some r) {fuel' : ℕ} (hle : fuel ≤ fuel') :
    loop body' fuel' s = some r := by
  induction fuel generalizing s fuel' with
  | zero => cases h
  | succ fuel ih =>
    obtain ⟨k, rfl⟩ : ∃ k, fuel' = k + 1 := ⟨fuel' - 1, by omega⟩
    rw [loop, Option.bind_eq_some_iff] at h ⊢
    obtain ⟨out, hout, hrest⟩ := h
    refine ⟨out, hbody s out hout, ?_⟩
    cases out with
    | inl s' => exact ih hrest (by omega)
    | inr r' => exact hrest

end While

section For

variable {α β σ : Type*}

/-- An invariant indexed by the rounds done, which every round re-establishes without failing. -/
theorem foldlM_range_total {body : σ → ℕ → Option σ} (Inv : ℕ → σ → Prop) (n : ℕ)
    (hbody : ∀ k < n, ∀ s, Inv k s → ∃ s', body s k = some s' ∧ Inv (k + 1) s')
    {s : σ} (hs : Inv 0 s) : ∃ s', (List.range n).foldlM body s = some s' ∧ Inv n s' := by
  induction n with
  | zero => exact ⟨s, rfl, hs⟩
  | succ n ih =>
    obtain ⟨s', hloop, hs'⟩ := ih fun k hk => hbody k (by omega)
    obtain ⟨t, hlast, ht⟩ := hbody n (Nat.lt_succ_self n) s' hs'
    refine ⟨t, ?_, ht⟩
    rw [List.range_succ, List.foldlM_append, hloop, Option.bind_eq_bind, Option.bind_some,
      List.foldlM_cons, hlast]
    rfl

theorem foldlM_succeeds {body : σ → α → Option σ} {xs : List α}
    (hbody : ∀ x ∈ xs, ∀ s, ∃ s', body s x = some s') (s : σ) :
    ∃ s', xs.foldlM body s = some s' := by
  induction xs generalizing s with
  | nil => exact ⟨s, rfl⟩
  | cons x xs ih =>
    obtain ⟨s', hs'⟩ := hbody x List.mem_cons_self s
    obtain ⟨t, ht⟩ := ih (fun x' hx' => hbody x' (List.mem_cons_of_mem x hx')) s'
    exact ⟨t, by rw [List.foldlM_cons, hs', Option.bind_eq_bind, Option.bind_some, ht]⟩

/-- A loop whose body fails on no state of the invariant, and acts on a view of the state as
`f` does, acts on the view as the pure loop of `f`. -/
theorem foldlM_simulates {τ : Type*} {body : σ → α → Option σ} (Inv : σ → Prop) (view : σ → τ)
    (f : τ → α → τ) {xs : List α}
    (hbody : ∀ s, Inv s → ∀ x ∈ xs, ∃ s', body s x = some s' ∧ Inv s' ∧ view s' = f (view s) x)
    {s : σ} (hs : Inv s) :
    ∃ s', xs.foldlM body s = some s' ∧ Inv s' ∧ view s' = xs.foldl f (view s) := by
  induction xs generalizing s with
  | nil => exact ⟨s, rfl, hs, rfl⟩
  | cons x xs ih =>
    obtain ⟨t, hfirst, ht, hview⟩ := hbody s hs x List.mem_cons_self
    obtain ⟨s', hrest, hs', hview'⟩ :=
      ih (fun s hs x' hx' => hbody s hs x' (List.mem_cons_of_mem x hx')) ht
    refine ⟨s', ?_, hs', ?_⟩
    · rw [List.foldlM_cons, hfirst, Option.bind_eq_bind, Option.bind_some, hrest]
    · rw [hview', hview, List.foldl_cons]

/-- Two nested loops are one loop over the pairs. -/
theorem foldlM_product (body : σ → α × β → Option σ) (xs : List α) (ys : List β) (s : σ) :
    (xs.foldlM (fun s x => ys.foldlM (fun s y => body s (x, y)) s) s) =
      (xs ×ˢ ys).foldlM body s := by
  induction xs generalizing s with
  | nil => rfl
  | cons x xs ih =>
    rw [List.product_cons, List.foldlM_append, List.foldlM_cons, List.foldlM_map]
    simp only [ih]

theorem foldlM_eq_none {body : σ → α → Option σ} {xs : List α} {x : α} (hx : x ∈ xs)
    (hbody : ∀ s, body s x = none) (s : σ) : xs.foldlM body s = none := by
  obtain ⟨before, after, rfl⟩ := List.append_of_mem hx
  rw [List.foldlM_append]
  cases before.foldlM body s with
  | none => rfl
  | some s' =>
    rw [Option.bind_eq_bind, Option.bind_some, List.foldlM_cons, hbody, Option.bind_eq_bind,
      Option.bind_none]

theorem mapM_eq_some_iff {f : α → Option β} {xs : List α} {ys : List β} :
    xs.mapM f = some ys ↔ List.Forall₂ (fun x y => f x = some y) xs ys := by
  induction xs generalizing ys with
  | nil => cases ys <;> simp
  | cons x xs ih =>
    rw [List.mapM_cons]
    cases hx : f x with
    | none => cases ys <;> simp [hx]
    | some y =>
      cases hxs : xs.mapM f with
      | none =>
        cases ys with
        | nil => simp
        | cons y' ys =>
          have hnone : ¬ List.Forall₂ (fun x y => f x = some y) xs ys := by
            rw [← ih, hxs]
            exact nofun
          simp [hnone]
      | some zs =>
        cases ys with
        | nil => simp
        | cons y' ys => simp [hx, ← ih, hxs]

theorem mapM_eq_map {f : α → Option β} {g : α → β} {xs : List α}
    (h : ∀ x ∈ xs, f x = some (g x)) : xs.mapM f = some (xs.map g) := by
  rw [mapM_eq_some_iff, List.forall₂_map_right_iff, List.forall₂_same]
  exact h

theorem mapM_succeeds {f : α → Option β} {xs : List α} (h : ∀ x ∈ xs, ∃ y, f x = some y) :
    ∃ ys, xs.mapM f = some ys := by
  induction xs with
  | nil => exact ⟨[], rfl⟩
  | cons x xs ih =>
    obtain ⟨y, hy⟩ := h x List.mem_cons_self
    obtain ⟨ys, hys⟩ := ih fun x' hx' => h x' (List.mem_cons_of_mem x hx')
    refine ⟨y :: ys, ?_⟩
    simp only [List.mapM_cons, hy, hys, Option.bind_eq_bind, Option.bind_some, Option.pure_def]

/-- A loop that appends one result in each round. -/
theorem foldlM_concat {body : List β → α → Option (List β)} {f : α → Option β} {xs : List α}
    (hbody : ∀ x ∈ xs, ∀ ys, body ys x = (f x).map fun y => ys ++ [y]) (ys : List β) :
    xs.foldlM body ys = (xs.mapM f).map (ys ++ ·) := by
  induction xs generalizing ys with
  | nil => simp
  | cons x xs ih =>
    have hrest := ih fun x' hx' => hbody x' (List.mem_cons_of_mem x hx')
    rw [List.foldlM_cons, List.mapM_cons, hbody x List.mem_cons_self]
    cases f x with
    | none => rfl
    | some y =>
      simp only [Option.map_some, Option.bind_eq_bind, Option.bind_some, hrest]
      cases xs.mapM f with
      | none => rfl
      | some zs => simp

/-- A loop that counts the good results. -/
theorem foldlM_count {α β : Type} {f : α → Option β} (good : β → Bool) {xs : List α}
    (h : ∀ x ∈ xs, ∃ y, f x = some y) (n : ℕ) :
    (xs.foldlM (fun (n : ℕ) x => do
      let y ← f x
      return if good y then n + 1 else n) n) = some (n + xs.countP fun x => (f x).any good) := by
  induction xs generalizing n with
  | nil => rfl
  | cons x xs ih =>
    obtain ⟨y, hy⟩ := h x List.mem_cons_self
    have hrest := ih fun x' hx' => h x' (List.mem_cons_of_mem x hx')
    simp only [List.foldlM_cons, hy, Option.bind_eq_bind, Option.bind_some, Option.pure_def]
    simp only [Option.bind_eq_bind, Option.pure_def] at hrest
    rw [hrest, List.countP_cons, hy, Option.any_some]
    split_ifs <;> simp [Nat.add_assoc, Nat.add_comm]

/-- A search through consecutive numbers finds the first one. -/
theorem find?_range'_eq_some {p : ℕ → Bool} {start n i : ℕ}
    (h : (List.range' start n).find? p = some i) :
    start ≤ i ∧ i < start + n ∧ p i = true ∧ ∀ j, start ≤ j → j < i → p j = false := by
  obtain ⟨hi, k, hk, rfl, hbefore⟩ := List.find?_eq_some_iff_getElem.mp h
  rw [List.length_range'] at hk
  simp only [List.getElem_range', Nat.one_mul] at hi hbefore ⊢
  refine ⟨by omega, by omega, hi, fun j hlow hhigh => ?_⟩
  have hj := hbefore (j - start) (by omega)
  rw [Nat.add_sub_cancel' hlow] at hj
  simpa using hj

theorem find?_range'_eq_none {p : ℕ → Bool} {start n : ℕ}
    (h : (List.range' start n).find? p = none) (j : ℕ) (hlow : start ≤ j) (hhigh : j < start + n) :
    p j = false := by
  simpa using List.find?_eq_none.mp h j (List.mem_range'_1.mpr ⟨hlow, hhigh⟩)

/-- The first `n` entries of a list replaced, each by a function of its index and value. -/
def replaceUpTo (f : ℕ → α → α) (n : ℕ) (xs : List α) : List α :=
  xs.mapIdx fun i x => if i < n then f i x else x

@[simp] theorem length_replaceUpTo (f : ℕ → α → α) (n : ℕ) (xs : List α) :
    (replaceUpTo f n xs).length = xs.length := List.length_mapIdx

theorem replaceUpTo_zero (f : ℕ → α → α) (xs : List α) : replaceUpTo f 0 xs = xs := by
  apply List.ext_getElem
  · simp
  · intro i hi hi'
    simp [replaceUpTo]

theorem replaceUpTo_length (f : ℕ → α → α) (xs : List α) :
    replaceUpTo f xs.length xs = xs.mapIdx f := by
  apply List.ext_getElem
  · simp [replaceUpTo]
  · intro i hi hi'
    simp only [length_replaceUpTo] at hi
    simp [replaceUpTo, hi]

theorem getElem?_replaceUpTo (f : ℕ → α → α) (n : ℕ) (xs : List α) :
    (replaceUpTo f n xs)[n]? = xs[n]? := by
  simp [replaceUpTo]

/-- One round of the loop that assigns `f i xs[i]` to `xs[i]`. -/
theorem set_replaceUpTo (f : ℕ → α → α) {n : ℕ} {xs : List α} {x : α} (hx : xs[n]? = some x) :
    (replaceUpTo f n xs).set n (f n x) = replaceUpTo f (n + 1) xs := by
  obtain ⟨hn, rfl⟩ := List.getElem?_eq_some_iff.mp hx
  apply List.ext_getElem
  · simp
  · intro i hi hi'
    rw [List.getElem_set]
    by_cases h : n = i
    · subst h
      simp [replaceUpTo]
    · have hlt : i < n ↔ i < n + 1 := by omega
      simp [replaceUpTo, h, hlt]

end For

section Charges

variable {α σ : Type*} [PartialOrder σ]

/-- A step that does not fail, never raises the value, and leaves it exactly when `P` holds. -/
def Charges (step : σ → Option σ) (P : Prop) : Prop :=
  ∀ s, ∃ s', step s = some s' ∧ s' ≤ s ∧ (s' = s ↔ P)

namespace Charges

variable {step next : σ → Option σ} {P Q : Prop}

theorem congr (h : Charges step P) (hPQ : P ↔ Q) : Charges step Q := by
  intro s
  obtain ⟨s', hstep, hle, heq⟩ := h s
  exact ⟨s', hstep, hle, heq.trans hPQ⟩

/-- Charges do not cancel. -/
theorem bind (h : Charges step P) (hnext : Charges next Q) :
    Charges (fun s => (step s).bind next) (P ∧ Q) := by
  intro s
  obtain ⟨t, hstep, hle, heq⟩ := h s
  obtain ⟨s', hnext', hle', heq'⟩ := hnext t
  refine ⟨s', by simp only [hstep, Option.bind_some, hnext'], hle'.trans hle, ?_⟩
  rw [← heq, ← heq']
  constructor
  · intro hsame
    have ht : t = s := le_antisymm hle (hsame ▸ hle')
    exact ⟨ht, hsame.trans ht.symm⟩
  · rintro ⟨ht, hsame⟩
    exact hsame.trans ht

theorem foldlM {body : σ → α → Option σ} {P : α → Prop} {xs : List α}
    (hbody : ∀ x ∈ xs, Charges (fun s => body s x) (P x)) :
    Charges (fun s => xs.foldlM body s) (∀ x ∈ xs, P x) := by
  induction xs with
  | nil => exact fun s => ⟨s, rfl, le_rfl, by simp⟩
  | cons x xs ih =>
    have hrest := ih fun x' hx' => hbody x' (List.mem_cons_of_mem x hx')
    refine ((hbody x List.mem_cons_self).bind hrest).congr ?_
    rw [List.forall_mem_cons]

end Charges

end Charges

end OlinCourses.Loop
