import OlinCourses.Lib.Transition

/-!
# The threads of `start_threads`

`weave.c`: the creating thread and `num_threads` threads that run `synchronize`,
interleaved one atomic operation at a time. The increment of `ready_threads` is a
load and a store. A blocked operation has no step. The semaphore has no upper bound:
`sem_post` never overflows.
-/
namespace OlinCourses.Weave
open Transition

/-- The next operation of a thread that runs `synchronize`. `idle` is before its
creation; `store` and `post` carry the loaded count and the loop counter. -/
inductive Pc
  | idle
  | ready
  | lock
  | load
  | store (count : ℕ)
  | compare
  | post (i : ℕ)
  | unlock
  | wait
  | go
  | done
  deriving DecidableEq

/-- The next operation of `start_threads`, with the counters of its two loops. -/
inductive MainPc
  | create (i : ℕ)
  | join (i : ℕ)
  | destroyLock
  | destroyGoSignal
  | done
  deriving DecidableEq

/-- The lines that `ready` and `go` print. -/
inductive Line (N : ℕ)
  | ready (threadId : Fin N)
  | go (threadId : Fin N)
  deriving DecidableEq

structure State (N : ℕ) where
  main : MainPc
  pc : Fin N → Pc
  owner : Option (Fin N)
  goSignal : ℕ
  readyThreads : ℕ
  out : List (Line N)
  lockDestroyed : Bool
  goSignalDestroyed : Bool

/-- After `pthread_mutex_init` and `sem_init`. -/
def init (N : ℕ) : State N where
  main := .create 0
  pc := fun _ => .idle
  owner := none
  goSignal := 0
  readyThreads := 0
  out := []
  lockDestroyed := false
  goSignalDestroyed := false

variable {N : ℕ}

namespace State

def goto (s : State N) (i : Fin N) (p : Pc) : State N :=
  { s with pc := Function.update s.pc i p }

/-- One operation of thread `i`. -/
def synchronize (s : State N) (i : Fin N) : Option (State N) :=
  match s.pc i with
  | .idle => none
  | .ready => some { s.goto i .lock with out := s.out ++ [.ready i] }
  | .lock => if s.owner = none then some { s.goto i .load with owner := some i } else none
  | .load => some (s.goto i (.store s.readyThreads))
  | .store count => some { s.goto i .compare with readyThreads := count + 1 }
  | .compare => some (s.goto i (if s.readyThreads = N then .post 0 else .unlock))
  | .post k =>
    if k < N then some { s.goto i (.post (k + 1)) with goSignal := s.goSignal + 1 }
    else some (s.goto i .unlock)
  | .unlock => some { s.goto i .wait with owner := none }
  | .wait => if 0 < s.goSignal then some { s.goto i .go with goSignal := s.goSignal - 1 } else none
  | .go => some { s.goto i .done with out := s.out ++ [.go i] }
  | .done => none

/-- One operation of the creating thread. -/
def startThreads (s : State N) : Option (State N) :=
  match s.main with
  | .create k =>
    if h : k < N then some { s.goto ⟨k, h⟩ .ready with main := .create (k + 1) }
    else some { s with main := .join 0 }
  | .join k =>
    if h : k < N then
      if s.pc ⟨k, h⟩ = .done then some { s with main := .join (k + 1) } else none
    else some { s with main := .destroyLock }
  | .destroyLock => some { s with main := .destroyGoSignal, lockDestroyed := true }
  | .destroyGoSignal => some { s with main := .done, goSignalDestroyed := true }
  | .done => none

end State

inductive Actor (N : ℕ)
  | main
  | thread (i : Fin N)
  deriving DecidableEq

/-- One step of the thread that the scheduler picks. -/
def next (s : State N) : Actor N → Option (State N)
  | .main => s.startThreads
  | .thread i => s.synchronize i

/-- Every thread has finished. -/
def State.Finished (s : State N) : Prop := s.main = .done ∧ ∀ i, s.pc i = .done

/-- The steps of thread `i`, one for each operation. -/
inductive ThreadStep (s : State N) (i : Fin N) : State N → Prop
  | ready (hpc : s.pc i = .ready) :
      ThreadStep s i { s.goto i .lock with out := s.out ++ [.ready i] }
  | lock (hpc : s.pc i = .lock) (hfree : s.owner = none) :
      ThreadStep s i { s.goto i .load with owner := some i }
  | load (hpc : s.pc i = .load) : ThreadStep s i (s.goto i (.store s.readyThreads))
  | store (count : ℕ) (hpc : s.pc i = .store count) :
      ThreadStep s i { s.goto i .compare with readyThreads := count + 1 }
  | last (hpc : s.pc i = .compare) (hall : s.readyThreads = N) :
      ThreadStep s i (s.goto i (.post 0))
  | early (hpc : s.pc i = .compare) (hsome : s.readyThreads ≠ N) :
      ThreadStep s i (s.goto i .unlock)
  | post (k : ℕ) (hpc : s.pc i = .post k) (hlt : k < N) :
      ThreadStep s i { s.goto i (.post (k + 1)) with goSignal := s.goSignal + 1 }
  | posted (k : ℕ) (hpc : s.pc i = .post k) (hge : ¬ k < N) : ThreadStep s i (s.goto i .unlock)
  | unlock (hpc : s.pc i = .unlock) : ThreadStep s i { s.goto i .wait with owner := none }
  | wait (hpc : s.pc i = .wait) (hpos : 0 < s.goSignal) :
      ThreadStep s i { s.goto i .go with goSignal := s.goSignal - 1 }
  | go (hpc : s.pc i = .go) : ThreadStep s i { s.goto i .done with out := s.out ++ [.go i] }

/-- The steps of the creating thread. -/
inductive MainStep (s : State N) : State N → Prop
  | create (k : Fin N) (hmain : s.main = .create k) :
      MainStep s { s.goto k .ready with main := .create (k + 1) }
  | created (k : ℕ) (hmain : s.main = .create k) (hge : N ≤ k) :
      MainStep s { s with main := .join 0 }
  | join (k : Fin N) (hmain : s.main = .join k) (hdone : s.pc k = .done) :
      MainStep s { s with main := .join (k + 1) }
  | joined (k : ℕ) (hmain : s.main = .join k) (hge : N ≤ k) :
      MainStep s { s with main := .destroyLock }
  | destroyLock (hmain : s.main = .destroyLock) :
      MainStep s { s with main := .destroyGoSignal, lockDestroyed := true }
  | destroyGoSignal (hmain : s.main = .destroyGoSignal) :
      MainStep s { s with main := .done, goSignalDestroyed := true }

theorem threadStep_of_next {s s' : State N} {i : Fin N} (h : next s (.thread i) = some s') :
    ThreadStep s i s' := by
  rw [next, State.synchronize] at h
  cases hpc : s.pc i <;> simp only [hpc] at h
  case idle => cases h
  case ready => cases h; exact .ready hpc
  case lock =>
    split_ifs at h with hfree
    cases h
    exact .lock hpc hfree
  case load => cases h; exact .load hpc
  case store count => cases h; exact .store count hpc
  case compare =>
    split_ifs at h with hall
    · cases h; exact .last hpc hall
    · cases h; exact .early hpc hall
  case post k =>
    split_ifs at h with hlt
    · cases h; exact .post k hpc hlt
    · cases h; exact .posted k hpc hlt
  case unlock => cases h; exact .unlock hpc
  case wait =>
    split_ifs at h with hpos
    cases h
    exact .wait hpc hpos
  case go => cases h; exact .go hpc
  case done => cases h

theorem mainStep_of_next {s s' : State N} (h : next s .main = some s') : MainStep s s' := by
  rw [next, State.startThreads] at h
  cases hmain : s.main <;> simp only [hmain] at h
  case create k =>
    split_ifs at h with hlt
    · cases h; exact .create ⟨k, hlt⟩ hmain
    · cases h; exact .created k hmain (not_lt.mp hlt)
  case join k =>
    split_ifs at h with hlt hdone
    · cases h; exact .join ⟨k, hlt⟩ hmain hdone
    · cases h; exact .joined k hmain (not_lt.mp hlt)
  case destroyLock => cases h; exact .destroyLock hmain
  case destroyGoSignal => cases h; exact .destroyGoSignal hmain
  case done => cases h

end OlinCourses.Weave
