import OlinCourses.Weave.Threads

/-!
# The invariant of the barrier

The counter is the number of threads past their increment, the owner of the mutex
is the thread inside the critical section, and the tokens still in the semaphore
with those already taken are exactly the tokens posted so far.
-/
namespace OlinCourses.Weave
open Transition

namespace Pc

/-- Between `pthread_mutex_lock` and `pthread_mutex_unlock`. -/
@[simp] def critical : Pc → Bool
  | .load | .store _ | .compare | .post _ | .unlock => true
  | _ => false

/-- Past the increment of `ready_threads`. -/
@[simp] def counted : Pc → Bool
  | .compare | .post _ | .unlock | .wait | .go | .done => true
  | _ => false

/-- Past `sem_wait`. -/
@[simp] def woken : Pc → Bool
  | .go | .done => true
  | _ => false

/-- Past `ready`. -/
@[simp] def announced : Pc → Bool
  | .idle | .ready => false
  | _ => true

theorem announced_of_counted {p : Pc} (h : p.counted = true) : p.announced = true := by
  cases p <;> first | rfl | cases h

end Pc

variable {N : ℕ}

/-- The tokens posted so far: all or none, except while the last thread posts. -/
def State.posted (s : State N) : ℕ :=
  if s.readyThreads < N then 0
  else match s.owner with
    | none => N
    | some i => match s.pc i with
      | .compare => 0
      | .post k => k
      | _ => N

/-- The threads, the counter, the mutex and the semaphore. -/
structure Inv (s : State N) : Prop where
  counted : s.readyThreads = tally s.pc Pc.counted
  owner : ∀ i, s.owner = some i ↔ (s.pc i).critical = true
  store : ∀ i count, s.pc i = .store count → count = s.readyThreads
  post : ∀ i k, s.pc i = .post k → s.readyThreads = N ∧ k ≤ N
  tokens : s.goSignal + tally s.pc Pc.woken = s.posted

section Consequences

variable {s : State N} (h : Inv s)

include h

theorem Inv.readyThreads_le : s.readyThreads ≤ N := by
  have hle := tally_le s.pc Pc.counted
  rw [Fintype.card_fin] at hle
  exact h.counted.trans_le hle

theorem Inv.readyThreads_lt {i : Fin N} (hi : (s.pc i).counted = false) : s.readyThreads < N := by
  refine lt_of_le_of_ne h.readyThreads_le fun heq => ?_
  have hall := (tally_eq_card_iff s.pc Pc.counted).mp
    (h.counted.symm.trans (heq.trans (Fintype.card_fin N).symm))
  rw [hall i] at hi
  cases hi

/-- The mutex excludes. -/
theorem Inv.critical_unique {i j : Fin N} (hi : (s.pc i).critical = true)
    (hj : (s.pc j).critical = true) : i = j := by
  have howner := (h.owner i).mpr hi
  rw [(h.owner j).mpr hj] at howner
  exact (Option.some_injective _ howner).symm

theorem Inv.not_owner {i : Fin N} (hi : (s.pc i).critical = false) : s.owner ≠ some i := by
  intro howner
  rw [(h.owner i).mp howner] at hi
  cases hi

/-- A thread past `sem_wait` finds every thread counted. -/
theorem Inv.readyThreads_eq_of_woken {i : Fin N} (hi : (s.pc i).woken = true) :
    s.readyThreads = N := by
  by_contra hne
  have hlt := lt_of_le_of_ne h.readyThreads_le hne
  have htokens := h.tokens
  rw [State.posted, if_pos hlt] at htokens
  have hzero := (tally_eq_zero_iff s.pc Pc.woken).mp (by omega) i
  rw [hzero] at hi
  cases hi

end Consequences

section Goto

variable (s : State N) (i : Fin N) (p : Pc)

@[simp] theorem goto_pc_self : (s.goto i p).pc i = p := Function.update_self _ _ _

@[simp] theorem goto_pc_of_ne {j : Fin N} (h : j ≠ i) : (s.goto i p).pc j = s.pc j :=
  Function.update_of_ne h _ _

theorem goto_pc_cases {j : Fin N} {q : Pc} (h : (s.goto i p).pc j = q) :
    p = q ∨ (j ≠ i ∧ s.pc j = q) := by
  by_cases hj : j = i
  · subst hj
    rw [goto_pc_self] at h
    exact Or.inl h
  · rw [goto_pc_of_ne _ _ _ hj] at h
    exact Or.inr ⟨hj, h⟩

@[simp] theorem goto_owner : (s.goto i p).owner = s.owner := rfl
@[simp] theorem goto_goSignal : (s.goto i p).goSignal = s.goSignal := rfl
@[simp] theorem goto_readyThreads : (s.goto i p).readyThreads = s.readyThreads := rfl
@[simp] theorem goto_main : (s.goto i p).main = s.main := rfl
@[simp] theorem goto_out : (s.goto i p).out = s.out := rfl

theorem tally_goto (q : Pc → Bool) :
    tally (s.goto i p).pc q + (if q (s.pc i) then 1 else 0) =
      tally s.pc q + if q p then 1 else 0 :=
  tally_update s.pc q i p

/-- A move that keeps each class of `p` keeps each tally. -/
theorem tally_goto_of_eq {q : Pc → Bool} (h : q p = q (s.pc i)) :
    tally (s.goto i p).pc q = tally s.pc q := by
  have htally := tally_goto s i p q
  rw [h] at htally
  omega

theorem posted_goto (h : s.owner ≠ some i) : (s.goto i p).posted = s.posted := by
  rw [State.posted, State.posted, goto_owner, goto_readyThreads]
  cases howner : s.owner with
  | none => rfl
  | some j =>
    have hne : j ≠ i := fun heq => h (howner.trans (congrArg some heq))
    simp [hne]

end Goto

section GotoInv

variable {s : State N} (h : Inv s) {i : Fin N} {p : Pc}

include h

theorem owner_goto (hp : p.critical = (s.pc i).critical) (j : Fin N) :
    s.owner = some j ↔ ((s.goto i p).pc j).critical = true := by
  by_cases hj : j = i
  · subst hj
    rw [goto_pc_self, hp]
    exact h.owner j
  · rw [goto_pc_of_ne _ _ _ hj]
    exact h.owner j

theorem store_goto (hp : ∀ count, p ≠ .store count) (j : Fin N) (count : ℕ)
    (hj : (s.goto i p).pc j = .store count) : count = s.readyThreads := by
  obtain heq | ⟨-, hold⟩ := goto_pc_cases s i p hj
  · exact absurd heq (hp count)
  · exact h.store j count hold

theorem post_goto (hp : ∀ k, p ≠ .post k) (j : Fin N) (k : ℕ)
    (hj : (s.goto i p).pc j = .post k) : s.readyThreads = N ∧ k ≤ N := by
  obtain heq | ⟨-, hold⟩ := goto_pc_cases s i p hj
  · exact absurd heq (hp k)
  · exact h.post j k hold

/-- A step that moves a thread but past no wait, and changes neither the semaphore nor the
tokens posted. -/
theorem Inv.tokens_of_posted_eq {s' : State N} (hpc : s'.pc = (s.goto i p).pc)
    (hsignal : s'.goSignal = s.goSignal) (hwoken : p.woken = (s.pc i).woken)
    (hposted : s'.posted = s.posted) : s'.goSignal + tally s'.pc Pc.woken = s'.posted := by
  rw [hpc, tally_goto_of_eq s i p hwoken, hsignal, hposted]
  exact h.tokens

/-- A move outside the critical section that passes neither the increment nor the wait. -/
theorem Inv.goto_outside (hi : (s.pc i).critical = false) (hp : p.critical = false)
    (hcounted : p.counted = (s.pc i).counted) (hwoken : p.woken = (s.pc i).woken) :
    Inv (s.goto i p) where
  counted := h.counted.trans (tally_goto_of_eq s i p hcounted).symm
  owner := owner_goto h (hp.trans hi.symm)
  store := store_goto h fun count heq => by rw [heq] at hp; cases hp
  post := post_goto h fun k heq => by rw [heq] at hp; cases hp
  tokens := h.tokens_of_posted_eq rfl rfl hwoken (posted_goto s i p (h.not_owner hi))

end GotoInv

section Steps

variable {s s' : State N} {i : Fin N} (h : Inv s) (hs : ThreadStep s i s')

include h hs

theorem counted_step : s'.readyThreads = tally s'.pc Pc.counted := by
  cases hs with
  | store count hpc =>
    have htally := tally_goto s i .compare Pc.counted
    have hcount := h.store i count hpc
    have hcounted := h.counted
    simp only [hpc, Pc.counted, Bool.false_eq_true, if_false, if_true] at htally
    show count + 1 = tally (s.goto i .compare).pc Pc.counted
    omega
  | ready hpc | lock hpc | load hpc | last hpc | early hpc | post _ hpc | posted _ hpc
  | unlock hpc | wait hpc | go hpc =>
    exact h.counted.trans (tally_goto_of_eq s i _ (by simp [hpc])).symm

theorem owner_step (j : Fin N) : s'.owner = some j ↔ (s'.pc j).critical = true := by
  cases hs with
  | lock hpc hfree =>
    show some i = some j ↔ ((s.goto i .load).pc j).critical = true
    by_cases hj : j = i
    · subst hj
      simp [Pc.critical]
    · have howner := h.owner j
      rw [goto_pc_of_ne _ _ _ hj, ← howner, hfree]
      simp [Ne.symm hj]
  | unlock hpc =>
    show none = some j ↔ ((s.goto i .wait).pc j).critical = true
    by_cases hj : j = i
    · subst hj
      simp [Pc.critical]
    · have howner := (h.owner i).mpr (by simp [hpc])
      rw [goto_pc_of_ne _ _ _ hj, ← h.owner j, howner]
      simp [Ne.symm hj]
  | ready hpc | load hpc | store _ hpc | last hpc | early hpc | post _ hpc | posted _ hpc
  | wait hpc | go hpc =>
    exact owner_goto h (by simp [hpc]) j

theorem store_step (j : Fin N) (count : ℕ) (hj : s'.pc j = .store count) :
    count = s'.readyThreads := by
  cases hs with
  | load hpc =>
    obtain heq | ⟨-, hold⟩ := goto_pc_cases s i _ hj
    · cases heq
      rfl
    · exact h.store j count hold
  | store c hpc =>
    -- another thread at its store would share the critical section
    obtain heq | ⟨hji, hold⟩ := goto_pc_cases s i .compare hj
    · cases heq
    · exact absurd (h.critical_unique (by simp [hold]) (by simp [hpc])) hji
  | ready hpc | lock hpc | last hpc | early hpc | post _ hpc | posted _ hpc | unlock hpc
  | wait hpc | go hpc =>
    exact store_goto h (by simp) j count hj

theorem post_step (j : Fin N) (k : ℕ) (hj : s'.pc j = .post k) :
    s'.readyThreads = N ∧ k ≤ N := by
  cases hs with
  | store c hpc =>
    obtain heq | ⟨hji, hold⟩ := goto_pc_cases s i .compare hj
    · cases heq
    · exact absurd (h.critical_unique (by simp [hold]) (by simp [hpc])) hji
  | last hpc hall =>
    obtain heq | ⟨-, hold⟩ := goto_pc_cases s i _ hj
    · cases heq
      exact ⟨hall, Nat.zero_le N⟩
    · exact h.post j k hold
  | post c hpc hlt =>
    obtain heq | ⟨-, hold⟩ := goto_pc_cases s i (.post (c + 1)) hj
    · cases heq
      exact ⟨(h.post i c hpc).1, hlt⟩
    · exact h.post j k hold
  | ready hpc | lock hpc | load hpc | early hpc | posted _ hpc | unlock hpc | wait hpc | go hpc =>
    exact post_goto h (by simp) j k hj

theorem tokens_step : s'.goSignal + tally s'.pc Pc.woken = s'.posted := by
  have htokens := h.tokens
  have howner : (s.pc i).critical = true → s.owner = some i := (h.owner i).mpr
  cases hs with
  | ready hpc => exact (h.goto_outside (p := .lock) (by simp [hpc]) rfl (by simp [hpc])
      (by simp [hpc])).tokens
  | lock hpc hfree =>
    refine h.tokens_of_posted_eq (p := .load) rfl rfl (by simp [hpc]) ?_
    simp [State.posted, hfree]
  | load hpc =>
    rw [hpc] at howner
    refine h.tokens_of_posted_eq (p := .store s.readyThreads) rfl rfl (by simp [hpc]) ?_
    simp [State.posted, howner rfl, hpc]
  | store count hpc =>
    -- nothing is posted before the last increment, and not by it
    have hlt := h.readyThreads_lt (i := i) (by simp [hpc])
    rw [hpc] at howner
    refine h.tokens_of_posted_eq (p := .compare) rfl rfl (by simp [hpc]) ?_
    simp [State.posted, howner rfl, hlt]
  | last hpc hall =>
    rw [hpc] at howner
    refine h.tokens_of_posted_eq (p := .post 0) rfl rfl (by simp [hpc]) ?_
    simp [State.posted, howner rfl, hpc]
  | early hpc hsome =>
    have hlt := lt_of_le_of_ne h.readyThreads_le hsome
    refine h.tokens_of_posted_eq (p := .unlock) rfl rfl (by simp [hpc]) ?_
    simp [State.posted, hlt]
  | post k hpc hlt =>
    have hall := (h.post i k hpc).1
    rw [hpc] at howner
    have htally := tally_goto_of_eq s i (.post (k + 1)) (q := Pc.woken) (by simp [hpc])
    have hposted : s.posted = k := by simp [State.posted, howner rfl, hpc, hall]
    show s.goSignal + 1 + tally (s.goto i (.post (k + 1))).pc Pc.woken = _
    rw [htally, Nat.add_right_comm, htokens, hposted]
    simp [State.posted, howner rfl, hall]
  | posted k hpc hge =>
    obtain ⟨hall, hle⟩ := h.post i k hpc
    have hk : k = N := le_antisymm hle (not_lt.mp hge)
    rw [hpc] at howner
    refine h.tokens_of_posted_eq (p := .unlock) rfl rfl (by simp [hpc]) ?_
    simp [State.posted, howner rfl, hpc, hk]
  | unlock hpc =>
    rw [hpc] at howner
    have hposted : s.posted = if s.readyThreads < N then 0 else N := by
      simp only [State.posted, howner rfl, hpc]
    exact h.tokens_of_posted_eq (p := .wait) rfl rfl (by simp [hpc]) hposted.symm
  | wait hpc hpos =>
    have htally := tally_goto s i .go Pc.woken
    have hposted := posted_goto s i .go (h.not_owner (by simp [hpc]))
    simp only [hpc, Pc.woken, Bool.false_eq_true, if_false, if_true] at htally
    show s.goSignal - 1 + tally (s.goto i .go).pc Pc.woken = (s.goto i .go).posted
    omega
  | go hpc => exact (h.goto_outside (p := .done) (by simp [hpc]) rfl (by simp [hpc])
      (by simp [hpc])).tokens

/-- A step of a thread that runs `synchronize`. -/
theorem Inv.threadStep : Inv s' :=
  ⟨counted_step h hs, owner_step h hs, store_step h hs, post_step h hs, tokens_step h hs⟩

end Steps

/-- Past both loops of `start_threads`. -/
@[simp] def MainPc.joined : MainPc → Bool
  | .destroyLock | .destroyGoSignal | .done => true
  | _ => false

/-- The position of the creating thread in its two loops. -/
structure MainInv (s : State N) : Prop where
  idle : ∀ i : Fin N, s.pc i = .idle ↔ ∃ k, s.main = .create k ∧ k ≤ i
  joining : ∀ k, s.main = .join k → ∀ i : Fin N, i < k → s.pc i = .done
  joined : s.main.joined = true → ∀ i, s.pc i = .done
  destroyed : s.lockDestroyed = true ∨ s.goSignalDestroyed = true → s.main.joined = true

theorem MainInv.not_destroyed {s : State N} (h : MainInv s) (hs : s.main.joined = false) :
    ¬ (s.lockDestroyed = true ∨ s.goSignalDestroyed = true) := by
  intro hdestroyed
  rw [h.destroyed hdestroyed] at hs
  cases hs

section MainSteps

variable {s s' : State N}

theorem Inv.mainStep (h : Inv s) (hmain : MainInv s) (hs : MainStep s s') : Inv s' := by
  cases hs with
  | create k hk =>
    have hidle : s.pc k = .idle := (hmain.idle k).mpr ⟨k, hk, le_rfl⟩
    have hgoto := h.goto_outside (i := k) (p := .ready) (by simp [hidle]) rfl
      (by simp [hidle]) (by simp [hidle])
    exact ⟨hgoto.counted, hgoto.owner, hgoto.store, hgoto.post, hgoto.tokens⟩
  | created | join | joined | destroyLock | destroyGoSignal =>
    exact ⟨h.counted, h.owner, h.store, h.post, h.tokens⟩

/-- A thread leaves the other threads and the creating thread alone. -/
theorem ThreadStep.frame {i : Fin N} (hs : ThreadStep s i s') :
    s.pc i ≠ .idle ∧ s.pc i ≠ .done ∧ s'.main = s.main ∧ s'.pc i ≠ .idle ∧
      (∀ j ≠ i, s'.pc j = s.pc j) ∧ s'.lockDestroyed = s.lockDestroyed ∧
      s'.goSignalDestroyed = s.goSignalDestroyed := by
  cases hs with
  | ready hpc | lock hpc | load hpc | store _ hpc | last hpc | early hpc | post _ hpc
  | posted _ hpc | unlock hpc | wait hpc | go hpc =>
    refine ⟨by simp [hpc], by simp [hpc], rfl, ?_, fun j hj => goto_pc_of_ne _ _ _ hj, rfl, rfl⟩
    simp [State.goto]

theorem MainInv.threadStep (h : MainInv s) {i : Fin N} (hs : ThreadStep s i s') :
    MainInv s' := by
  obtain ⟨hidle, hdone, hmain, hidle', hother, hlock, hsignal⟩ := hs.frame
  have hstart : ∀ j : Fin N, s.pc j = .done → s'.pc j = .done := by
    intro j hj
    rw [hother j fun heq => hdone (heq ▸ hj)]
    exact hj
  refine ⟨?_, ?_, ?_, ?_⟩
  · intro j
    rw [hmain, ← h.idle j]
    by_cases hj : j = i
    · subst hj
      simp [hidle, hidle']
    · rw [hother j hj]
  · rw [hmain]
    exact fun k hk j hj => hstart j (h.joining k hk j hj)
  · rw [hmain]
    exact fun hjoined j => hstart j (h.joined hjoined j)
  · rw [hmain, hlock, hsignal]
    exact h.destroyed

theorem MainInv.mainStep (h : MainInv s) (hs : MainStep s s') : MainInv s' := by
  cases hs with
  | create k hk =>
    refine ⟨?_, by simp, by simp [MainPc.joined], ?_⟩
    · intro j
      show (s.goto k .ready).pc j = .idle ↔ _
      by_cases hj : j = k
      · subst hj
        simp
      · have hne : (j : ℕ) ≠ k := fun heq => hj (Fin.ext heq)
        rw [goto_pc_of_ne _ _ _ hj, h.idle j, hk]
        simp
        omega
    · exact fun hdestroyed => absurd hdestroyed (h.not_destroyed (by simp [hk]))
  | created k hk hge =>
    refine ⟨?_, by simp, by simp [MainPc.joined], ?_⟩
    · intro j
      rw [h.idle j, hk]
      have hj := j.isLt
      simp
      omega
    · exact fun hdestroyed => absurd hdestroyed (h.not_destroyed (by simp [hk]))
  | join k hk hdone =>
    refine ⟨?_, ?_, by simp [MainPc.joined], ?_⟩
    · intro j
      rw [h.idle j, hk]
      simp
    · intro l hl j hj
      cases hl
      by_cases heq : j = k
      · rw [heq]
        exact hdone
      · exact h.joining k hk j (by have hne : (j : ℕ) ≠ k := fun hv => heq (Fin.ext hv); omega)
    · exact fun hdestroyed => absurd hdestroyed (h.not_destroyed (by simp [hk]))
  | joined k hk hge =>
    refine ⟨?_, by simp, fun _ j => h.joining k hk j (j.isLt.trans_le hge), fun _ => rfl⟩
    intro j
    rw [h.idle j, hk]
    simp
  | destroyLock hk =>
    refine ⟨?_, by simp, fun _ => h.joined (by simp [hk]), fun _ => rfl⟩
    intro j
    rw [h.idle j, hk]
    simp
  | destroyGoSignal hk =>
    refine ⟨?_, by simp, fun _ => h.joined (by simp [hk]), fun _ => rfl⟩
    intro j
    rw [h.idle j, hk]
    simp

end MainSteps

end OlinCourses.Weave
