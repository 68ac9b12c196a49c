import Mathlib.Data.Set.Function
import Mathlib.Tactic

/-!
# Copying by positions

For each position of a list in turn, the value at the source of the position goes to
its destination. Where no destination is a source and no two positions share one,
every destination ends with the value that its source began with.
-/
namespace OlinCourses.Copying

variable {P A V : Type*} [DecidableEq A] (src dst : P → A)

/-- The memory with one value copied. -/
def copy (mem : A → V) (p : P) : A → V := Function.update mem (dst p) (mem (src p))

/-- The memory with the values of all positions copied in order. -/
def copyAll (mem : A → V) (ps : List P) : A → V := ps.foldl (copy src dst) mem

theorem copyAll_cons (mem : A → V) (p : P) (ps : List P) :
    copyAll src dst mem (p :: ps) = copyAll src dst (copy src dst mem p) ps := rfl

variable {src dst} {ps : List P}

/-- What is no destination is left as it was. -/
theorem copyAll_frame {a : A} (h : ∀ p ∈ ps, dst p ≠ a) (mem : A → V) :
    copyAll src dst mem ps a = mem a := by
  induction ps generalizing mem with
  | nil => rfl
  | cons p ps ih =>
    rw [copyAll_cons, ih fun q hq => h q (List.mem_cons_of_mem p hq)]
    exact Function.update_of_ne (h p List.mem_cons_self).symm _ _

theorem copyAll_src (hdisj : ∀ p ∈ ps, ∀ q ∈ ps, dst p ≠ src q) (mem : A → V) {q : P}
    (hq : q ∈ ps) : copyAll src dst mem ps (src q) = mem (src q) :=
  copyAll_frame (fun p hp => hdisj p hp q hq) mem

theorem copyAll_dst (hinj : Set.InjOn dst {p | p ∈ ps})
    (hdisj : ∀ p ∈ ps, ∀ q ∈ ps, dst p ≠ src q) (mem : A → V) {q : P} (hq : q ∈ ps) :
    copyAll src dst mem ps (dst q) = mem (src q) := by
  induction ps generalizing mem with
  | nil => cases hq
  | cons p ps ih =>
    have hsub : ∀ r ∈ ps, r ∈ p :: ps := fun r hr => List.mem_cons_of_mem p hr
    rw [copyAll_cons]
    by_cases hlater : q ∈ ps
    · rw [ih (hinj.mono hsub) (fun r hr s hs => hdisj r (hsub r hr) s (hsub s hs)) _ hlater]
      exact Function.update_of_ne (hdisj p List.mem_cons_self q hq).symm _ _
    · -- the last position with this destination is the first of the list
      obtain rfl : q = p := (List.mem_cons.mp hq).resolve_right hlater
      rw [copyAll_frame, copy, Function.update_self]
      intro r hr heq
      exact hlater (hinj (hsub r hr) hq heq ▸ hr)

end OlinCourses.Copying
