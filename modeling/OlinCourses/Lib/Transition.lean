import Mathlib.Algebra.BigOperators.Fin
import Mathlib.Logic.Function.Iterate
import Mathlib.Tactic

/-!
# Transition systems

Deterministic machines with a lockstep simulation, labelled transition functions
with the invariant rule and a bound on the length of runs by a decreasing measure,
and totals over the components of a family of processes.
-/
namespace OlinCourses.Transition

section Lockstep

variable {σ τ : Type*}

/-- Exactly `n` successful steps of a partial machine. -/
def iterate (step : τ → Option τ) : ℕ → τ → Option τ
  | 0, t => some t
  | n + 1, t => (step t).bind (iterate step n)

theorem iterate_succ' (step : τ → Option τ) (n : ℕ) (t : τ) :
    iterate step (n + 1) t = (iterate step n t).bind step := by
  induction n generalizing t with
  | zero => exact Option.bind_fun_some (step t)
  | succ n ih =>
    rw [iterate, iterate, Option.bind_assoc]
    exact Option.bind_congr fun t' _ => ih t'

/-- If one step of `f` is matched by `g` wherever `ok` holds, then a run of `f`
through `ok` states is matched by a run of `g` of the same length. -/
theorem iterate_simulation {f : σ → σ} {g : τ → Option τ} {abs : σ → τ} {ok : σ → Prop}
    (hstep : ∀ s, ok s → g (abs s) = some (abs (f s))) (n : ℕ) (s : σ)
    (hok : ∀ k < n, ok (f^[k] s)) : iterate g n (abs s) = some (abs (f^[n] s)) := by
  induction n generalizing s with
  | zero => rfl
  | succ n ih =>
    have h0 : ok s := hok 0 (by omega)
    have hrest : ∀ k < n, ok (f^[k] (f s)) := by
      intro k hk
      simpa only [Function.iterate_succ_apply] using hok (k + 1) (by omega)
    rw [iterate, hstep s h0, Option.bind_some, ih (f s) hrest, Function.iterate_succ_apply]

/-- A property kept by every step from an `ok` state holds along such a run. -/
theorem iterate_invariant {f : σ → σ} {P ok : σ → Prop}
    (hstep : ∀ s, ok s → P s → P (f s)) (n : ℕ) (s : σ) (h0 : P s)
    (hok : ∀ k < n, ok (f^[k] s)) : P (f^[n] s) := by
  induction n with
  | zero => exact h0
  | succ n ih =>
    rw [Function.iterate_succ_apply']
    exact hstep _ (hok n (by omega)) (ih (fun k hk => hok k (by omega)))

end Lockstep

section Labelled

variable {σ α : Type*} (next : σ → α → Option σ)

/-- Take the steps that a schedule names, in order. -/
def run (s : σ) (schedule : List α) : Option σ := schedule.foldlM next s

@[simp] theorem run_nil (s : σ) : run next s [] = some s := rfl

@[simp] theorem run_cons (s : σ) (a : α) (schedule : List α) :
    run next s (a :: schedule) = (next s a).bind fun s' => run next s' schedule := rfl

theorem run_append (s : σ) (first second : List α) :
    run next s (first ++ second) = (run next s first).bind fun s' => run next s' second := by
  rw [run, List.foldlM_append]
  rfl

variable {next}

/-- The invariant rule. -/
theorem run_invariant {Inv : σ → Prop} (hstep : ∀ s a s', Inv s → next s a = some s' → Inv s')
    {s s' : σ} {schedule : List α} (h0 : Inv s) (hrun : run next s schedule = some s') :
    Inv s' := by
  induction schedule generalizing s with
  | nil =>
    rw [run_nil, Option.some_inj] at hrun
    exact hrun ▸ h0
  | cons a schedule ih =>
    rw [run_cons, Option.bind_eq_some_iff] at hrun
    obtain ⟨t, hnext, hrest⟩ := hrun
    exact ih (hstep s a t h0 hnext) hrest

/-- A measure that every step from an invariant state decreases bounds the runs. -/
theorem run_length_le {Inv : σ → Prop} (hstep : ∀ s a s', Inv s → next s a = some s' → Inv s')
    {measure : σ → ℕ} (hdec : ∀ s a s', Inv s → next s a = some s' → measure s' < measure s)
    {s s' : σ} {schedule : List α} (h0 : Inv s) (hrun : run next s schedule = some s') :
    schedule.length + measure s' ≤ measure s := by
  induction schedule generalizing s with
  | nil =>
    rw [run_nil, Option.some_inj] at hrun
    simp [hrun]
  | cons a schedule ih =>
    rw [run_cons, Option.bind_eq_some_iff] at hrun
    obtain ⟨t, hnext, hrest⟩ := hrun
    have hlt := hdec s a t h0 hnext
    have hle := ih (hstep s a t h0 hnext) hrest
    rw [List.length_cons]
    omega

/-- Where at most `k` steps can lower the measure, a final state is that many times the
measure away. -/
theorem exists_run_to_final {Inv Final : σ → Prop} {measure : σ → ℕ} {k : ℕ}
    (hprogress : ∀ s, Inv s → ¬ Final s → ∃ schedule s', run next s schedule = some s' ∧
      schedule.length ≤ k ∧ Inv s' ∧ measure s' < measure s) {s : σ} (h0 : Inv s) :
    ∃ schedule s', run next s schedule = some s' ∧ Final s' ∧
      schedule.length ≤ k * measure s := by
  induction hm : measure s using Nat.strong_induction_on generalizing s with
  | _ m ih =>
    by_cases hfinal : Final s
    · exact ⟨[], s, rfl, hfinal, Nat.zero_le _⟩
    · obtain ⟨first, mid, hfirst, hlen, hmid, hlt⟩ := hprogress s h0 hfinal
      rw [hm] at hlt
      obtain ⟨rest, s', hrest, hend, hle⟩ := ih (measure mid) hlt hmid rfl
      refine ⟨first ++ rest, s', by rw [run_append, hfirst, Option.bind_some, hrest], hend, ?_⟩
      have hstep : k * (measure mid + 1) ≤ k * m := Nat.mul_le_mul_left k hlt
      rw [Nat.mul_succ] at hstep
      rw [List.length_append]
      omega

/-- Steps that never get stuck on an invariant make an infinite run. -/
theorem exists_infinite_run (Inv : σ → Prop) (R : ℕ → σ → σ → Prop) {s : σ} (h0 : Inv s)
    (hstep : ∀ n s, Inv s → ∃ s', Inv s' ∧ R n s s') :
    ∃ f : ℕ → σ, f 0 = s ∧ ∀ n, Inv (f n) ∧ R n (f n) (f (n + 1)) := by
  choose! succ hinv hR using hstep
  obtain ⟨f, hzero, hsucc⟩ : ∃ f : ℕ → σ, f 0 = s ∧ ∀ n, f (n + 1) = succ n (f n) :=
    ⟨Nat.rec s succ, rfl, fun _ => rfl⟩
  have hf : ∀ n, Inv (f n) := by
    intro n
    induction n with
    | zero => rwa [hzero]
    | succ n ih =>
      rw [hsucc]
      exact hinv n (f n) ih
  refine ⟨f, hzero, fun n => ⟨hf n, ?_⟩⟩
  rw [hsucc]
  exact hR n (f n) (hf n)

variable (next) in
/-- Some schedule leads from one state to the other. -/
def Reaches (s s' : σ) : Prop := ∃ schedule, run next s schedule = some s'

namespace Reaches

theorem refl (s : σ) : Reaches next s s := ⟨[], rfl⟩

theorem step {s s' : σ} {a : α} (h : next s a = some s') : Reaches next s s' :=
  ⟨[a], by rw [run_cons, h]; rfl⟩

theorem trans {s s' s'' : σ} (h : Reaches next s s') (h' : Reaches next s' s'') :
    Reaches next s s'' := by
  obtain ⟨first, hfirst⟩ := h
  obtain ⟨second, hsecond⟩ := h'
  exact ⟨first ++ second, by rw [run_append, hfirst, Option.bind_some, hsecond]⟩

/-- One entry of a list after the other. -/
theorem of_prefixes {β : Type*} {stateAt : List β → σ} {l : List β}
    (h : ∀ done b, done ++ [b] <+: l → Reaches next (stateAt done) (stateAt (done ++ [b]))) :
    Reaches next (stateAt []) (stateAt l) := by
  induction l using List.reverseRecOn with
  | nil => exact refl _
  | append_singleton l b ih =>
    have hinit := ih fun done c hbegin => h done c (hbegin.trans (List.prefix_append l [b]))
    exact hinit.trans (h l b (List.prefix_refl _))

end Reaches

end Labelled

section Families

variable {ι β : Type*} [Fintype ι] [DecidableEq ι] (f : ι → β)

/-- The total weight of the components. -/
def total (w : β → ℕ) : ℕ := ∑ i, w (f i)

/-- The number of components with a property. -/
def tally (p : β → Bool) : ℕ := total f fun x => if p x then 1 else 0

/-- Moving one component changes the total by its own weight. -/
theorem total_update (w : β → ℕ) (i : ι) (x : β) :
    total (Function.update f i x) w + w (f i) = total f w + w x := by
  have hsum := Finset.add_sum_erase Finset.univ (fun j => w (f j)) (Finset.mem_univ i)
  have hsum' := Finset.add_sum_erase Finset.univ
    (fun j => w (Function.update f i x j)) (Finset.mem_univ i)
  have hrest : ∑ j ∈ Finset.univ.erase i, w (Function.update f i x j) =
      ∑ j ∈ Finset.univ.erase i, w (f j) := by
    apply Finset.sum_congr rfl
    intro j hj
    rw [Function.update_of_ne (Finset.ne_of_mem_erase hj)]
  rw [hrest, Function.update_self] at hsum'
  rw [total, total, ← hsum, ← hsum']
  omega

theorem tally_update (p : β → Bool) (i : ι) (x : β) :
    tally (Function.update f i x) p + (if p (f i) then 1 else 0) =
      tally f p + if p x then 1 else 0 :=
  total_update f (fun x => if p x then 1 else 0) i x

omit [DecidableEq ι] in
theorem tally_eq_card (p : β → Bool) :
    tally f p = (Finset.univ.filter fun i => p (f i) = true).card := by
  rw [tally, total, Finset.card_filter]

omit [DecidableEq ι] in
theorem tally_le (p : β → Bool) : tally f p ≤ Fintype.card ι := by
  rw [tally_eq_card]
  exact Finset.card_le_univ _

omit [DecidableEq ι] in
theorem tally_eq_card_iff (p : β → Bool) :
    tally f p = Fintype.card ι ↔ ∀ i, p (f i) = true := by
  rw [tally_eq_card, Finset.card_eq_iff_eq_univ, Finset.eq_univ_iff_forall]
  simp

omit [DecidableEq ι] in
theorem tally_eq_zero_iff (p : β → Bool) : tally f p = 0 ↔ ∀ i, p (f i) = false := by
  rw [tally_eq_card, Finset.card_eq_zero, Finset.filter_eq_empty_iff]
  simp

end Families

end OlinCourses.Transition
