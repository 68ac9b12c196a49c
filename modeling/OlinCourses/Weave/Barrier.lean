import OlinCourses.Weave.Invariant

/-!
# The barrier

Over every schedule of the creating thread and the `N` threads: no thread executes
`go` before all have executed `ready`, no thread uses a destroyed object, nothing
blocks for ever, and every schedule ends with each thread through both calls once.
-/
namespace OlinCourses.Weave
open Transition

variable {N : ℕ}

/-- Every `go` line comes after the `ready` line of every thread. -/
def Ordered (out : List (Line N)) : Prop :=
  ∀ before i after, out = before ++ .go i :: after → ∀ j, .ready j ∈ before

theorem ordered_concat_ready {out : List (Line N)} (h : Ordered out) (i : Fin N) :
    Ordered (out ++ [.ready i]) := by
  intro before j after heq
  obtain rfl | ⟨rest, last, rfl⟩ := List.eq_nil_or_concat' after
  · have hlast := (List.append_inj_right' heq rfl)
    simp at hlast
  · rw [← List.cons_append, ← List.append_assoc] at heq
    exact h before j rest (List.append_inj_left' heq rfl)

theorem ordered_concat_go {out : List (Line N)} (h : Ordered out) (i : Fin N)
    (hall : ∀ j, .ready j ∈ out) : Ordered (out ++ [.go i]) := by
  intro before j after heq
  obtain rfl | ⟨rest, last, rfl⟩ := List.eq_nil_or_concat' after
  · have hinit := List.append_inj_left' heq rfl
    exact hinit ▸ hall
  · rw [← List.cons_append, ← List.append_assoc] at heq
    exact h before j rest (List.append_inj_left' heq rfl)

/-- Past `go`. -/
@[simp] def Pc.finished : Pc → Bool
  | .done => true
  | _ => false

/-- One line of the family `f` for each thread of the class `q`. -/
def Printed (s : State N) (f : Fin N → Line N) (q : Pc → Bool) : Prop :=
  ∀ i, s.out.count (f i) = if q (s.pc i) then 1 else 0

section Printed

variable {s s' : State N} {f : Fin N → Line N} {q : Pc → Bool} {i : Fin N} {p : Pc}

/-- A move that prints nothing and keeps the class of its thread. -/
theorem Printed.goto (h : Printed s f q) (hpc : s'.pc = (s.goto i p).pc) (hout : s'.out = s.out)
    (hq : q p = q (s.pc i)) : Printed s' f q := by
  intro j
  rw [hout, hpc, h j]
  by_cases hj : j = i
  · rw [hj, goto_pc_self, hq]
  · rw [goto_pc_of_ne _ _ _ hj]

/-- A move that prints a line of another family. -/
theorem Printed.other (h : Printed s f q) (hpc : s'.pc = (s.goto i p).pc) {line : Line N}
    (hout : s'.out = s.out ++ [line]) (hline : ∀ j, line ≠ f j) (hq : q p = q (s.pc i)) :
    Printed s' f q := by
  have hmoved : Printed (s.goto i p) f q := h.goto rfl rfl hq
  intro j
  rw [hout, List.count_append, List.count_singleton, beq_false_of_ne (hline j), hpc]
  exact hmoved j

/-- A move that prints the line of its thread and enters the class. -/
theorem Printed.own (h : Printed s f q) (hf : Function.Injective f)
    (hpc : s'.pc = (s.goto i p).pc) (hout : s'.out = s.out ++ [f i]) (hold : q (s.pc i) = false)
    (hnew : q p = true) : Printed s' f q := by
  intro j
  have hj := h j
  rw [hout, hpc, List.count_append, List.count_singleton, hj]
  by_cases hji : j = i
  · rw [hji, goto_pc_self, hold, hnew]
    simp
  · rw [goto_pc_of_ne _ _ _ hji, beq_false_of_ne fun heq => hji (hf heq).symm]
    simp

end Printed

/-- What has been printed, and in which order. -/
structure OutInv (s : State N) : Prop where
  ready : Printed s .ready Pc.announced
  go : Printed s .go Pc.finished
  ordered : Ordered s.out

theorem OutInv.threadStep {s s' : State N} (h : OutInv s) (hinv : Inv s) {i : Fin N}
    (hs : ThreadStep s i s') : OutInv s' := by
  cases hs with
  | ready hpc =>
    have hready : Function.Injective (Line.ready (N := N)) := fun _ _ heq => Line.ready.inj heq
    exact ⟨h.ready.own hready (p := .lock) rfl rfl (by simp [hpc]) rfl,
      h.go.other (p := .lock) rfl rfl (by simp) (by simp [hpc]),
      ordered_concat_ready h.ordered i⟩
  | go hpc =>
    have hgo : Function.Injective (Line.go (N := N)) := fun _ _ heq => Line.go.inj heq
    have hwoken : s.readyThreads = N := hinv.readyThreads_eq_of_woken (i := i) (by simp [hpc])
    have hcounted := (tally_eq_card_iff s.pc Pc.counted).mp
      (hinv.counted.symm.trans (hwoken.trans (Fintype.card_fin N).symm))
    have hall : ∀ j, .ready j ∈ s.out := by
      intro j
      have hcount := h.ready j
      rw [if_pos (Pc.announced_of_counted (hcounted j))] at hcount
      exact List.count_pos_iff.mp (by omega)
    exact ⟨h.ready.other (p := .done) rfl rfl (by simp) (by simp [hpc]),
      h.go.own hgo (p := .done) rfl rfl (by simp [hpc]) rfl,
      ordered_concat_go h.ordered i hall⟩
  | lock hpc | load hpc | store _ hpc | last hpc | early hpc | post _ hpc | posted _ hpc
  | unlock hpc | wait hpc =>
    exact ⟨h.ready.goto rfl rfl (by simp [hpc]), h.go.goto rfl rfl (by simp [hpc]), h.ordered⟩

theorem OutInv.mainStep {s s' : State N} (h : OutInv s) (hmain : MainInv s)
    (hs : MainStep s s') : OutInv s' := by
  cases hs with
  | create k hk =>
    have hidle : s.pc k = .idle := (hmain.idle k).mpr ⟨k, hk, le_rfl⟩
    exact ⟨h.ready.goto (p := .ready) rfl rfl (by simp [hidle]),
      h.go.goto (p := .ready) rfl rfl (by simp [hidle]), h.ordered⟩
  | created | join | joined | destroyLock | destroyGoSignal => exact ⟨h.ready, h.go, h.ordered⟩

/-- The whole invariant. -/
structure Good (s : State N) : Prop where
  inv : Inv s
  main : MainInv s
  out : OutInv s

theorem good_init (N : ℕ) : Good (init N) where
  inv := {
    counted := by
      have hzero := (tally_eq_zero_iff (init N).pc Pc.counted).mpr fun _ => rfl
      exact hzero.symm
    owner := fun i => by simp [init, Pc.critical]
    store := fun i count h => by simp [init] at h
    post := fun i k h => by simp [init] at h
    tokens := by
      have hzero := (tally_eq_zero_iff (init N).pc Pc.woken).mpr fun _ => rfl
      have hposted : (init N).posted = if 0 < N then 0 else N := rfl
      rw [hzero, hposted]
      simp only [init]
      split_ifs <;> omega }
  main := {
    idle := fun i => by simp [init]
    joining := fun k h => by simp [init] at h
    joined := fun h => by cases h
    destroyed := fun h => by simp [init] at h }
  out := {
    ready := fun i => rfl
    go := fun i => rfl
    ordered := fun before i after h => by simp [init] at h }

theorem Good.step {s s' : State N} {a : Actor N} (h : Good s) (hnext : next s a = some s') :
    Good s' := by
  cases a with
  | main =>
    have hs := mainStep_of_next hnext
    exact ⟨h.inv.mainStep h.main hs, h.main.mainStep hs, h.out.mainStep h.main hs⟩
  | thread i =>
    have hs := threadStep_of_next hnext
    exact ⟨h.inv.threadStep hs, h.main.threadStep hs, h.out.threadStep h.inv hs⟩

theorem good_of_run {schedule : List (Actor N)} {s : State N}
    (hrun : run next (init N) schedule = some s) : Good s :=
  run_invariant (fun _ _ _ h hnext => h.step hnext) (good_init N) hrun

/-- The mutex or the semaphore has been destroyed. -/
def State.Destroyed (s : State N) : Prop := s.lockDestroyed = true ∨ s.goSignalDestroyed = true

theorem destroyed_of_run {s s' : State N} {later : List (Actor N)} (h : s.Destroyed)
    (hrun : run next s later = some s') : s'.Destroyed := by
  have hstep : ∀ (t : State N) a t', t.Destroyed → next t a = some t' → t'.Destroyed := by
    intro t a t' ht hnext
    cases a with
    | main =>
      cases mainStep_of_next hnext with
      | create | created | join | joined => exact ht
      | destroyLock => exact Or.inl rfl
      | destroyGoSignal => exact Or.inr rfl
    | thread i =>
      obtain ⟨-, -, -, -, -, hlock, hsignal⟩ := (threadStep_of_next hnext).frame
      rw [State.Destroyed, hlock, hsignal]
      exact ht
  exact run_invariant hstep h hrun

theorem Good.done_of_destroyed {s : State N} (h : Good s) (hs : s.Destroyed) (i : Fin N) :
    s.pc i = .done :=
  h.main.joined (h.main.destroyed hs) i

/-- No thread executes `go` before all have executed `ready`, and once the mutex or
the semaphore is destroyed every thread has finished and takes no further step. -/
theorem barrier_safe {schedule : List (Actor N)} {s : State N}
    (hrun : run next (init N) schedule = some s) :
    (∀ before i after, s.out = before ++ .go i :: after → ∀ j, .ready j ∈ before) ∧
      (s.Destroyed → (∀ i, s.pc i = .done) ∧
        ∀ later s', run next s later = some s' → ∀ i, next s' (.thread i) = none) := by
  have hgood := good_of_run hrun
  refine ⟨hgood.out.ordered, fun hs => ⟨hgood.done_of_destroyed hs, ?_⟩⟩
  intro later s' hlater i
  have hgood' : Good s' := run_invariant (fun _ _ _ h hnext => h.step hnext) hgood hlater
  have hdone := hgood'.done_of_destroyed (destroyed_of_run hs hlater) i
  rw [next, State.synchronize, hdone]

/-- Numerals name the two threads. -/
local instance neZero_two : NeZero 2 := ⟨by decide⟩

/-- A complete schedule of two threads in which the first to arrive is woken while
the other still posts. -/
def twoThreads : List (Actor 2) :=
  [.main, .main, .main, .thread 1, .thread 0, .thread 1, .thread 1, .thread 1, .thread 1,
    .thread 1, .thread 0, .thread 0, .thread 0, .thread 0, .thread 0, .thread 1, .thread 1,
    .thread 0, .thread 0, .thread 0, .thread 0, .thread 0, .main, .main, .main, .main, .main]

theorem barrier_safe_twoThreads : ∃ s, run next (init 2) twoThreads = some s ∧
    s.out = [.ready 1, .ready 0, .go 1, .go 0] ∧ s.lockDestroyed = true ∧
    (∀ i, s.pc i = .done) ∧ ∀ i before after, s.out = before ++ .go i :: after →
      ∀ j, .ready j ∈ before := by
  have hrun : run next (init 2) twoThreads = some _ := rfl
  obtain ⟨hordered, hdestroyed⟩ := barrier_safe hrun
  exact ⟨_, rfl, rfl, rfl, (hdestroyed (Or.inl rfl)).1,
    fun i before after => hordered before i after⟩

theorem synchronize_eq_none {s : State N} {i : Fin N} (h : next s (.thread i) = none) :
    s.pc i = .idle ∨ (s.pc i = .lock ∧ s.owner ≠ none) ∨ (s.pc i = .wait ∧ s.goSignal = 0) ∨
      s.pc i = .done := by
  rw [next, State.synchronize] at h
  cases hpc : s.pc i <;> simp only [hpc] at h
  case idle => exact Or.inl rfl
  case lock =>
    split_ifs at h with howner
    exact Or.inr (Or.inl ⟨rfl, howner⟩)
  case wait =>
    split_ifs at h with hpos
    exact Or.inr (Or.inr (Or.inl ⟨rfl, by omega⟩))
  case done => exact Or.inr (Or.inr (Or.inr rfl))
  case post k => split_ifs at h
  all_goals cases h

theorem startThreads_eq_none {s : State N} (h : next s .main = none) :
    s.main = .done ∨ ∃ k : Fin N, s.main = .join k ∧ s.pc k ≠ .done := by
  rw [next, State.startThreads] at h
  cases hmain : s.main <;> simp only [hmain] at h
  case create k => split_ifs at h
  case join k =>
    split_ifs at h with hlt hdone
    exact Or.inr ⟨⟨k, hlt⟩, rfl, hdone⟩
  case done => exact Or.inl rfl
  all_goals cases h

/-- A state without steps is one in which every thread has finished. -/
theorem Good.finished_of_stuck {s : State N} (h : Good s) (hstuck : ∀ a, next s a = none) :
    s.Finished := by
  obtain hmain | ⟨k, hmain, hk⟩ := startThreads_eq_none (hstuck .main)
  · exact ⟨hmain, h.main.joined (by simp [hmain])⟩
  · exfalso
    have hthread : ∀ i, (s.pc i = .lock ∧ s.owner ≠ none) ∨ (s.pc i = .wait ∧ s.goSignal = 0) ∨
        s.pc i = .done := by
      intro i
      refine (synchronize_eq_none (hstuck (.thread i))).resolve_left fun hidle => ?_
      obtain ⟨l, hl, -⟩ := (h.main.idle i).mp hidle
      rw [hmain] at hl
      cases hl
    -- nobody is inside the critical section, so the mutex is free
    have hfree : s.owner = none := by
      by_contra howner
      obtain ⟨i, hi⟩ := Option.ne_none_iff_exists'.mp howner
      have hcritical := (h.inv.owner i).mp hi
      obtain ⟨hpc, -⟩ | ⟨hpc, -⟩ | hpc := hthread i <;> rw [hpc] at hcritical <;> cases hcritical
    have hpast : ∀ i, (s.pc i = .wait ∧ s.goSignal = 0) ∨ s.pc i = .done := fun i =>
      (hthread i).resolve_left fun hlock => hlock.2 hfree
    -- so every thread is counted and all tokens have been posted
    have hall : s.readyThreads = N := by
      rw [h.inv.counted, (tally_eq_card_iff s.pc Pc.counted).mpr, Fintype.card_fin]
      intro i
      obtain ⟨hpc, -⟩ | hpc := hpast i <;> rw [hpc] <;> rfl
    have hposted : s.posted = N := by simp [State.posted, hall, hfree]
    have hzero : s.goSignal = 0 := ((hpast k).resolve_right hk).2
    have htokens := h.inv.tokens
    rw [hzero, hposted, Nat.zero_add] at htokens
    have hwoken := (tally_eq_card_iff s.pc Pc.woken).mp (htokens.trans (Fintype.card_fin N).symm) k
    rw [((hpast k).resolve_right hk).1] at hwoken
    cases hwoken

/-- An upper bound on the operations that a thread still executes. -/
def Pc.remaining (N : ℕ) : Pc → ℕ
  | .idle => N + 10
  | .ready => N + 9
  | .lock => N + 8
  | .load => N + 7
  | .store _ => N + 6
  | .compare => N + 5
  | .post k => N - k + 4
  | .unlock => 3
  | .wait => 2
  | .go => 1
  | .done => 0

def MainPc.remaining (N : ℕ) : MainPc → ℕ
  | .create k => N - k + N + 4
  | .join k => N - k + 3
  | .destroyLock => 2
  | .destroyGoSignal => 1
  | .done => 0

def State.remaining (s : State N) : ℕ := s.main.remaining N + total s.pc (Pc.remaining N)

theorem remaining_step {s s' : State N} {a : Actor N} (hgood : Good s)
    (hnext : next s a = some s') : s'.remaining < s.remaining := by
  have htotal : ∀ i p, total (s.goto i p).pc (Pc.remaining N) + (s.pc i).remaining N =
      total s.pc (Pc.remaining N) + p.remaining N := total_update s.pc (Pc.remaining N)
  cases a with
  | main =>
    have hidle := hgood.main.idle
    cases mainStep_of_next hnext with
    | create k hk =>
      have hsum := htotal k .ready
      have hlt := k.isLt
      rw [(hidle k).mpr ⟨k, hk, le_rfl⟩] at hsum
      show (MainPc.create (k + 1)).remaining N + total (s.goto k .ready).pc (Pc.remaining N) < _
      rw [State.remaining, hk]
      simp only [Pc.remaining, MainPc.remaining] at hsum ⊢
      omega
    | created k hk hge =>
      simp only [State.remaining, hk, MainPc.remaining]
      omega
    | join k hk =>
      have hlt := k.isLt
      simp only [State.remaining, hk, MainPc.remaining]
      omega
    | joined k hk | destroyLock hk | destroyGoSignal hk =>
      simp only [State.remaining, hk, MainPc.remaining]
      omega
  | thread i =>
    have hdec : ∀ p, p.remaining N < (s.pc i).remaining N →
        s.main.remaining N + total (s.goto i p).pc (Pc.remaining N) < s.remaining := by
      intro p hp
      have hsum := htotal i p
      unfold State.remaining
      omega
    cases threadStep_of_next hnext with
    | ready hpc | lock hpc | load hpc | store _ hpc | last hpc | early hpc | posted _ hpc
    | unlock hpc | wait hpc | go hpc =>
      exact hdec _ (by rw [hpc]; simp only [Pc.remaining]; omega)
    | post k hpc hlt => exact hdec (.post (k + 1)) (by rw [hpc]; simp only [Pc.remaining]; omega)

/-- The operations that any schedule can take. -/
def maxSteps (N : ℕ) : ℕ := N * (N + 10) + 2 * N + 4

theorem remaining_init (N : ℕ) : (init N).remaining = maxSteps N := by
  simp [State.remaining, init, MainPc.remaining, total, Pc.remaining, maxSteps]
  ring

/-- A state reached by any schedule steps on until every thread has finished, after
at most `maxSteps N` steps in all; then the counter is `N`, the mutex is free, the
semaphore is 0, and each thread has executed `ready` once and `go` once. -/
theorem barrier_live {schedule : List (Actor N)} {s : State N}
    (hrun : run next (init N) schedule = some s) :
    schedule.length ≤ maxSteps N ∧
      (¬ s.Finished → ∃ a s', next s a = some s') ∧
      ((∀ a, next s a = none) → s.Finished ∧ s.readyThreads = N ∧ s.owner = none ∧
        s.goSignal = 0 ∧ ∀ i, s.out.count (.ready i) = 1 ∧ s.out.count (.go i) = 1) := by
  have hgood := good_of_run hrun
  refine ⟨?_, ?_, ?_⟩
  · have hlen := run_length_le (fun _ _ _ h hnext => h.step hnext)
      (fun _ _ _ h hnext => remaining_step h hnext) (good_init N) hrun
    rw [remaining_init] at hlen
    omega
  · intro hnot
    by_contra hstuck
    push Not at hstuck
    refine hnot (hgood.finished_of_stuck fun a => ?_)
    exact Option.eq_none_iff_forall_ne_some.mpr (hstuck a)
  · intro hstuck
    have hfinished := hgood.finished_of_stuck hstuck
    have hdone := hfinished.2
    have hall : s.readyThreads = N := by
      rw [hgood.inv.counted, (tally_eq_card_iff s.pc Pc.counted).mpr, Fintype.card_fin]
      exact fun i => by simp [hdone i]
    have hfree : s.owner = none := by
      by_contra howner
      obtain ⟨i, hi⟩ := Option.ne_none_iff_exists'.mp howner
      exact hgood.inv.not_owner (by simp [hdone i]) hi
    have hwoken : tally s.pc Pc.woken = N := by
      rw [(tally_eq_card_iff s.pc Pc.woken).mpr, Fintype.card_fin]
      exact fun i => by simp [hdone i]
    have hposted : s.posted = N := by simp [State.posted, hall, hfree]
    have htokens := hgood.inv.tokens
    refine ⟨hfinished, hall, hfree, by omega, fun i => ⟨?_, ?_⟩⟩
    · rw [hgood.out.ready i, hdone i]
      rfl
    · rw [hgood.out.go i, hdone i]
      rfl

theorem barrier_live_twoThreads : ∃ s, run next (init 2) twoThreads = some s ∧
    twoThreads.length ≤ maxSteps 2 ∧ s.Finished ∧ s.goSignal = 0 := by
  have hstuck : ∀ a, (run next (init 2) twoThreads).bind (fun s => next s a) = none := by
    intro a
    cases a with
    | main => rfl
    | thread i => fin_cases i <;> rfl
  obtain ⟨s, hrun⟩ : ∃ s, run next (init 2) twoThreads = some s := ⟨_, rfl⟩
  rw [hrun] at hstuck
  obtain ⟨hlen, -, hfinal⟩ := barrier_live hrun
  obtain ⟨hfinished, -, -, hsignal, -⟩ := hfinal hstuck
  exact ⟨s, hrun, hlen, hfinished, hsignal⟩

end OlinCourses.Weave
