import Mathlib.Data.List.TakeWhile
import OlinCourses.Weave.Barrier

/-!
# What the threads can print

Beside the barrier the schedule is free: every order of the `ready` lines followed by every
order of the `go` lines is the output of some run to the end, and no other output is.
-/
namespace OlinCourses.Weave
open Transition

variable {N : ℕ}

theorem next_of_threadStep {s s' : State N} {i : Fin N} (h : ThreadStep s i s') :
    next s (.thread i) = some s' := by
  rw [next, State.synchronize]
  cases h with
  | ready hpc => rw [hpc]
  | lock hpc hfree => simp only [hpc, if_pos hfree]
  | load hpc => rw [hpc]
  | store count hpc => rw [hpc]
  | last hpc hall => simp only [hpc, if_pos hall]
  | early hpc hsome => simp only [hpc, if_neg hsome]
  | post k hpc hlt => simp only [hpc, if_pos hlt]
  | posted k hpc hge => simp only [hpc, if_neg hge]
  | unlock hpc => rw [hpc]
  | wait hpc hpos => simp only [hpc, if_pos hpos]
  | go hpc => rw [hpc]

theorem ThreadStep.reaches {s s' : State N} {i : Fin N} (h : ThreadStep s i s') :
    Reaches next s s' := .step (next_of_threadStep h)

/-- Thread `i` holds the mutex, before the operation `p`. -/
def State.hold (s : State N) (i : Fin N) (p : Pc) (readyThreads goSignal : ℕ) : State N :=
  { s.goto i p with owner := some i, readyThreads, goSignal }

section OneThread

variable (s : State N) (i : Fin N)

theorem hold_goto (p q : Pc) (r g : ℕ) : (s.hold i p r g).goto i q = s.hold i q r g := by
  simp only [State.hold, State.goto, Function.update_idem]

@[simp] theorem hold_pc (p : Pc) (r g : ℕ) : (s.hold i p r g).pc i = p := goto_pc_self s i p

variable {s i}

theorem reaches_compare (hpc : s.pc i = .lock) (hfree : s.owner = none) :
    Reaches next s (s.hold i .compare (s.readyThreads + 1) s.goSignal) := by
  have hlock : ThreadStep s i (s.hold i .load s.readyThreads s.goSignal) := .lock hpc hfree
  have hload := ThreadStep.load (hold_pc s i .load s.readyThreads s.goSignal)
  rw [hold_goto] at hload
  have hstore := ThreadStep.store s.readyThreads
    (hold_pc s i (.store s.readyThreads) s.readyThreads s.goSignal)
  rw [hold_goto] at hstore
  exact (hlock.reaches.trans hload.reaches).trans hstore.reaches

theorem reaches_wait (r g : ℕ) : Reaches next (s.hold i .unlock r g)
    { s.goto i .wait with owner := none, readyThreads := r, goSignal := g } := by
  have hunlock := ThreadStep.unlock (hold_pc s i .unlock r g)
  rw [hold_goto] at hunlock
  exact hunlock.reaches

/-- A thread that is not the last one leaves the signal alone. -/
theorem reaches_wait_of_early (hpc : s.pc i = .lock) (hfree : s.owner = none)
    (hsome : s.readyThreads + 1 ≠ N) : Reaches next s { s.goto i .wait with
      owner := none, readyThreads := s.readyThreads + 1 } := by
  have hearly := ThreadStep.early
    (hold_pc s i .compare (s.readyThreads + 1) s.goSignal) hsome
  rw [hold_goto] at hearly
  exact ((reaches_compare hpc hfree).trans hearly.reaches).trans (reaches_wait _ _)

theorem reaches_posted (r g : ℕ) {k : ℕ} (hk : k ≤ N) :
    Reaches next (s.hold i (.post 0) r g) (s.hold i (.post k) r (g + k)) := by
  induction k with
  | zero => exact .refl _
  | succ k ih =>
    have hpost := ThreadStep.post k (hold_pc s i (.post k) r (g + k)) hk
    rw [hold_goto] at hpost
    exact (ih (by omega)).trans hpost.reaches

/-- The last thread posts a token for each one. -/
theorem reaches_wait_of_last (hpc : s.pc i = .lock) (hfree : s.owner = none)
    (hall : s.readyThreads + 1 = N) : Reaches next s { s.goto i .wait with
      owner := none, readyThreads := s.readyThreads + 1, goSignal := s.goSignal + N } := by
  have hlast := ThreadStep.last
    (hold_pc s i .compare (s.readyThreads + 1) s.goSignal) hall
  rw [hold_goto] at hlast
  have hposted := ThreadStep.posted N
    (hold_pc s i (.post N) (s.readyThreads + 1) (s.goSignal + N)) (lt_irrefl N)
  rw [hold_goto] at hposted
  exact ((((reaches_compare hpc hfree).trans hlast.reaches).trans
    (reaches_posted _ _ le_rfl)).trans hposted.reaches).trans (reaches_wait _ _)

theorem reaches_done (hpc : s.pc i = .wait) (hpos : 0 < s.goSignal) :
    Reaches next s { s.goto i .done with
      goSignal := s.goSignal - 1, out := s.out ++ [.go i] } := by
  have hwait := ThreadStep.wait hpc hpos
  have hgo := ThreadStep.go (s := { s.goto i .go with goSignal := s.goSignal - 1 })
    (goto_pc_self s i .go)
  have hsame : State.goto { s.goto i .go with goSignal := s.goSignal - 1 } i .done =
      { s.goto i .done with goSignal := s.goSignal - 1 } := by
    simp only [State.goto, Function.update_idem]
  rw [hsame] at hgo
  exact hwait.reaches.trans hgo.reaches

end OneThread

section Phases

/-- The first `k` threads are created. -/
def created (N k : ℕ) : State N :=
  { init N with main := .create k, pc := fun i => if i.val < k then .ready else .idle }

theorem reaches_created {k : ℕ} (hk : k ≤ N) : Reaches next (init N) (created N k) := by
  induction k with
  | zero => exact .refl _
  | succ k ih =>
    refine (ih (by omega)).trans (.step (a := .main) ?_)
    have hlt : k < N := hk
    simp only [next, State.startThreads, created, dif_pos hlt, State.goto, Option.some_inj]
    congr 1
    funext i
    by_cases hi : i = ⟨k, hlt⟩
    · subst hi
      simp
    · have hne : i.val ≠ k := fun h => hi (Fin.ext h)
      rw [Function.update_of_ne hi]
      exact if_congr (by omega) rfl rfl

theorem notMem_before {l done : List (Fin N)} {i : Fin N} (hl : l.Nodup)
    (h : done ++ [i] <+: l) : i ∉ done := by
  obtain ⟨-, -, hne⟩ := List.nodup_append.mp (hl.sublist h.sublist)
  exact fun hmem => hne i hmem i (List.mem_singleton_self i) rfl

/-- The threads of the list are at `p`, the others at `q`. -/
def pcs {α : Type*} [DecidableEq α] (l : List α) (p q : Pc) (i : α) : Pc := if i ∈ l then p else q

theorem update_pcs (done : List (Fin N)) (i : Fin N) (p q : Pc) :
    Function.update (pcs done p q) i p = pcs (done ++ [i]) p q := by
  ext j
  by_cases hj : j = i
  · subst hj
    simp [pcs]
  · rw [Function.update_of_ne hj]
    simp [pcs, hj]

@[simp] theorem pcs_nil (p q : Pc) : pcs ([] : List (Fin N)) p q = fun _ => q := rfl

theorem pcs_of_forall {l : List (Fin N)} (hl : ∀ i, i ∈ l) (p q : Pc) :
    pcs l p q = fun _ => p := by
  ext i
  simp [pcs, hl]

/-- The threads of the list have printed their `ready` lines, in its order. -/
def announced (l : List (Fin N)) : State N :=
  { init N with
    main := .join 0
    pc := pcs l .lock .ready
    out := l.map .ready }

theorem reaches_announced {σ : List (Fin N)} (hσ : σ.Nodup) :
    Reaches next (init N) (announced σ) := by
  have hjoin : next (created N N) .main = some (announced []) := by
    simp [next, State.startThreads, created, announced, init]
  refine ((reaches_created le_rfl).trans (.step hjoin)).trans (Reaches.of_prefixes ?_)
  intro done i hbegin
  have hpc : (announced done).pc i = .ready := if_neg (notMem_before hσ hbegin)
  have hstep := (ThreadStep.ready hpc).reaches
  simp only [State.goto, announced, update_pcs] at hstep ⊢
  rwa [List.map_append]

/-- Those of the list have also been counted. -/
def entered (σ l : List (Fin N)) : State N :=
  { announced σ with
    pc := pcs l .wait .lock
    readyThreads := l.length
    goSignal := if l.length = N then N else 0 }

theorem announced_eq_entered {σ : List (Fin N)} (hσ : ∀ i, i ∈ σ) :
    announced σ = entered σ [] := by
  have hzero : (if 0 = N then N else 0) = 0 := by split_ifs <;> omega
  simp [announced, entered, pcs_of_forall hσ, init, hzero]

theorem reaches_entered (σ : List (Fin N)) {l : List (Fin N)} (hl : l.Nodup)
    (hlen : l.length = N) : Reaches next (entered σ []) (entered σ l) := by
  apply Reaches.of_prefixes
  intro done i hbegin
  have hpc : (entered σ done).pc i = .lock := if_neg (notMem_before hl hbegin)
  have hlt : done.length + 1 ≤ N := by
    have hle := hbegin.length_le
    rwa [List.length_append, List.length_singleton, hlen] at hle
  have hsignal : (if done.length = N then N else 0) = 0 := if_neg (by omega)
  by_cases hall : done.length + 1 = N
  · have hstep := reaches_wait_of_last hpc rfl hall
    simp only [State.goto, entered, update_pcs, hsignal, Nat.zero_add] at hstep ⊢
    rwa [List.length_append, List.length_singleton, if_pos hall]
  · have hstep := reaches_wait_of_early hpc rfl hall
    simp only [State.goto, entered, update_pcs, hsignal] at hstep ⊢
    rwa [List.length_append, List.length_singleton, if_neg hall]

/-- Those of the second list have printed their `go` lines, in its order. -/
def released (σ l : List (Fin N)) : State N :=
  { announced σ with
    pc := pcs l .done .wait
    readyThreads := N
    goSignal := N - l.length
    out := σ.map .ready ++ l.map .go }

theorem entered_eq_released (σ : List (Fin N)) {l : List (Fin N)} (hl : ∀ i, i ∈ l)
    (hlen : l.length = N) : entered σ l = released σ [] := by
  simp [entered, released, pcs_of_forall hl, hlen, announced]

theorem reaches_released (σ : List (Fin N)) {τ : List (Fin N)} (hτ : τ.Nodup)
    (hlen : τ.length = N) : Reaches next (released σ []) (released σ τ) := by
  apply Reaches.of_prefixes
  intro done i hbegin
  have hpc : (released σ done).pc i = .wait := if_neg (notMem_before hτ hbegin)
  have hlt : done.length + 1 ≤ N := by
    have hle := hbegin.length_le
    rwa [List.length_append, List.length_singleton, hlen] at hle
  have hpos : 0 < (released σ done).goSignal := by
    rw [released]
    dsimp only
    omega
  have hstep := reaches_done hpc hpos
  simp only [State.goto, released, update_pcs] at hstep ⊢
  rwa [List.map_append, List.length_append, List.length_singleton, Nat.sub_add_eq,
    ← List.append_assoc]

/-- The creating thread joins the others and destroys the mutex and the semaphore. -/
theorem reaches_finished {s : State N} (hmain : s.main = .join 0) (hdone : ∀ i, s.pc i = .done) :
    ∃ s', Reaches next s s' ∧ s'.Finished ∧ s'.out = s.out := by
  have hjoined : ∀ k ≤ N, Reaches next s { s with main := .join k } := by
    intro k hk
    induction k with
    | zero =>
      rw [← hmain]
      exact .refl s
    | succ k ih =>
      refine (ih (by omega)).trans (.step (a := .main) ?_)
      have hlt : k < N := hk
      simp [next, State.startThreads, hlt, hdone]
  refine ⟨{ s with main := .done, lockDestroyed := true, goSignalDestroyed := true }, ?_,
    ⟨rfl, hdone⟩, rfl⟩
  have hlock : next { s with main := .join N } .main = some { s with main := .destroyLock } := by
    simp [next, State.startThreads]
  exact (((hjoined N le_rfl).trans (.step hlock)).trans (.step (a := .main) rfl)).trans
    (.step (a := .main) rfl)

end Phases

def Line.isReady : Line N → Bool
  | .ready _ => true
  | .go _ => false

theorem ready_injective : Function.Injective (Line.ready : Fin N → Line N) :=
  fun _ _ h => Line.ready.inj h

theorem go_injective : Function.Injective (Line.go : Fin N → Line N) :=
  fun _ _ h => Line.go.inj h

theorem perm_finRange {l : List (Fin N)} (h : ∀ i, l.count i = 1) :
    l.Perm (List.finRange N) := by
  rw [List.perm_iff_count]
  intro i
  rw [h i, List.count_eq_one_of_mem (List.nodup_finRange N) (List.mem_finRange i)]

/-- One line of each kind for each thread, the `go` lines behind all others: first the one
kind and then the other. -/
theorem exists_orders {out : List (Line N)} (hready : ∀ i, out.count (.ready i) = 1)
    (hgo : ∀ i, out.count (.go i) = 1) (hordered : Ordered out) :
    ∃ σ τ : List (Fin N), σ.Perm (List.finRange N) ∧ τ.Perm (List.finRange N) ∧
      out = σ.map .ready ++ τ.map .go := by
  have hsplit := List.takeWhile_append_dropWhile (p := Line.isReady) (l := out)
  obtain ⟨σ, hσ⟩ : ∃ σ : List (Fin N), σ.map .ready = out.takeWhile Line.isReady := by
    have hrange : out.takeWhile Line.isReady ∈ Set.range (List.map (Line.ready (N := N))) := by
      rw [Set.range_list_map]
      intro line hline
      have hkind := List.mem_takeWhile_imp hline
      cases line with
      | ready i => exact ⟨i, rfl⟩
      | go i => cases hkind
    exact hrange
  obtain ⟨τ, hτ⟩ : ∃ τ : List (Fin N), τ.map .go = out.dropWhile Line.isReady := by
    have hrange : out.dropWhile Line.isReady ∈ Set.range (List.map (Line.go (N := N))) := by
      rw [Set.range_list_map]
      intro line hline
      cases line with
      | go i => exact ⟨i, rfl⟩
      | ready j =>
        -- the first of these lines is a `go`, so the `ready` line is there twice
        exfalso
        obtain ⟨first, rest, hfirst⟩ := List.exists_cons_of_ne_nil (List.ne_nil_of_mem hline)
        have hkind := List.head?_dropWhile_not Line.isReady out
        rw [hfirst] at hkind hsplit hline
        cases first with
        | ready i => cases hkind
        | go i =>
          have hbefore := List.one_le_count_iff.mpr (hordered _ i rest hsplit.symm j)
          have hbehind := List.one_le_count_iff.mpr hline
          have hcount := hready j
          rw [← hsplit, List.count_append] at hcount
          omega
    exact hrange
  rw [← hσ, ← hτ] at hsplit
  refine ⟨σ, τ, perm_finRange fun i => ?_, perm_finRange fun i => ?_, hsplit.symm⟩
  · have hcount := hready i
    rw [← hsplit, List.count_append, List.count_map_of_injective _ _ ready_injective] at hcount
    have hnone : (τ.map Line.go).count (.ready i) = 0 := List.count_eq_zero.mpr (by simp)
    omega
  · have hcount := hgo i
    rw [← hsplit, List.count_append, List.count_map_of_injective _ _ go_injective] at hcount
    have hnone : (σ.map Line.ready).count (.go i) = 0 := List.count_eq_zero.mpr (by simp)
    omega

/-- The outputs of the complete runs are the `ready` lines in any order and then the `go`
lines in any order. -/
theorem outputs_iff (out : List (Line N)) :
    (∃ schedule s, run next (init N) schedule = some s ∧ s.Finished ∧ s.out = out) ↔
      ∃ σ τ : List (Fin N), σ.Perm (List.finRange N) ∧ τ.Perm (List.finRange N) ∧
        out = σ.map .ready ++ τ.map .go := by
  constructor
  · rintro ⟨schedule, s, hrun, hfinished, rfl⟩
    have hout := (good_of_run hrun).out
    refine exists_orders (fun i => ?_) (fun i => ?_) hout.ordered
    · rw [hout.ready i, hfinished.2 i]
      rfl
    · rw [hout.go i, hfinished.2 i]
      rfl
  · rintro ⟨σ, τ, hσ, hτ, rfl⟩
    have hmem : ∀ {l : List (Fin N)}, l.Perm (List.finRange N) → ∀ i, i ∈ l :=
      fun h i => h.mem_iff.mpr (List.mem_finRange i)
    have hnodup : ∀ {l : List (Fin N)}, l.Perm (List.finRange N) → l.Nodup :=
      fun h => h.nodup_iff.mpr (List.nodup_finRange N)
    have hlen : ∀ {l : List (Fin N)}, l.Perm (List.finRange N) → l.length = N :=
      fun h => h.length_eq.trans List.length_finRange
    have hannounced := reaches_announced (hnodup hσ)
    rw [announced_eq_entered (hmem hσ)] at hannounced
    have hentered := hannounced.trans (reaches_entered σ (hnodup hσ) (hlen hσ))
    rw [entered_eq_released σ (hmem hσ) (hlen hσ)] at hentered
    have hreleased := hentered.trans (reaches_released σ (hnodup hτ) (hlen hτ))
    obtain ⟨s, hs, hfinished, hout⟩ :=
      reaches_finished (s := released σ τ) rfl fun i => if_pos (hmem hτ i)
    obtain ⟨schedule, hrun⟩ := hreleased.trans hs
    exact ⟨schedule, s, hrun, hfinished, hout⟩

end OlinCourses.Weave
