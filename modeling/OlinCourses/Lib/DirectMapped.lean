import Mathlib.Data.List.Basic
import Mathlib.Logic.Function.Basic
import Mathlib.Tactic

/-!
# Direct-mapped caches

Addresses are split into a tag, a line index and an offset. The directory records
which tag each line holds after a history of accesses; a cache is coherent when
every resident address reads the memory's value.
-/
namespace OlinCourses.DirectMapped

/-- A split of addresses that loses nothing. -/
structure Geometry (A T I O : Type*) where
  tag : A → T
  index : A → I
  offset : A → O
  ext : ∀ a b, tag a = tag b → index a = index b → offset a = offset b → a = b

namespace Geometry

variable {A T I O B : Type*} [DecidableEq I] (g : Geometry A T I O)

/-- The line of `a` holds the tag of `a` afterwards; every other line is kept. -/
def access (d : I → Option T) (a : A) : I → Option T :=
  Function.update d (g.index a) (some (g.tag a))

/-- The directory after a history of accesses, first to last. -/
def directory (history : List A) : I → Option T :=
  history.foldl g.access (fun _ => none)

/-- The most recent access to line `i`. -/
def latest (history : List A) (i : I) : Option A :=
  (history.filter fun a => g.index a = i).getLast?

@[simp] theorem directory_concat (history : List A) (a : A) :
    g.directory (history ++ [a]) = g.access (g.directory history) a := by
  simp [directory]

theorem latest_concat (history : List A) (a : A) (i : I) :
    g.latest (history ++ [a]) i = if g.index a = i then some a else g.latest history i := by
  by_cases h : g.index a = i
  · simp [latest, h]
  · simp [latest, h]

theorem directory_eq_latest (history : List A) (i : I) :
    g.directory history i = (g.latest history i).map g.tag := by
  induction history using List.reverseRecOn with
  | nil => rfl
  | append_singleton history a ih =>
    rw [directory_concat, latest_concat, access]
    by_cases h : g.index a = i
    · subst h
      simp
    · rw [Function.update_of_ne (Ne.symm h), if_neg h, ih]

/-- A resident tag belongs to an address of its line. -/
theorem exists_of_directory_eq_some {history : List A} {i : I} {t : T}
    (h : g.directory history i = some t) : ∃ a, g.index a = i ∧ g.tag a = t := by
  rw [directory_eq_latest] at h
  obtain ⟨a, ha, rfl⟩ := Option.map_eq_some_iff.mp h
  have hmem := List.mem_of_getLast? ha
  exact ⟨a, by simpa using (List.mem_filter.mp hmem).2, rfl⟩

section Outcomes

inductive Outcome
  | hit
  | cold
  | evict
  deriving DecidableEq

variable [DecidableEq T]

/-- What an access to `a` meets in its line. -/
def outcome (d : I → Option T) (a : A) : Outcome :=
  match d (g.index a) with
  | none => .cold
  | some t => if t = g.tag a then .hit else .evict

/-- The outcome of each access of a history, from a given directory. -/
def outcomes : (I → Option T) → List A → List Outcome
  | _, [] => []
  | d, a :: history => g.outcome d a :: outcomes (g.access d a) history

theorem outcomes_concat (d : I → Option T) (history : List A) (a : A) :
    g.outcomes d (history ++ [a]) =
      g.outcomes d history ++ [g.outcome (history.foldl g.access d) a] := by
  induction history generalizing d with
  | nil => rfl
  | cons b history ih => simp [outcomes, ih]

/-- How many accesses of a history, from the empty directory, meet `o`. -/
def count (o : Outcome) (history : List A) : ℕ :=
  (g.outcomes (fun _ => none) history).count o

@[simp] theorem count_nil (o : Outcome) : g.count o [] = 0 := rfl

theorem count_concat (o : Outcome) (history : List A) (a : A) :
    g.count o (history ++ [a]) =
      g.count o history + if g.outcome (g.directory history) a = o then 1 else 0 := by
  simp only [count, outcomes_concat, List.count_append, List.count_singleton, beq_iff_eq]
  rfl

/-- An access that is not a hit is a miss, cold or with an eviction. -/
def misses (history : List A) : ℕ := g.count .cold history + g.count .evict history

theorem misses_concat (history : List A) (a : A) :
    g.misses (history ++ [a]) =
      g.misses history + if g.outcome (g.directory history) a = .hit then 0 else 1 := by
  rw [misses, misses, count_concat, count_concat]
  cases g.outcome (g.directory history) a <;> simp <;> omega

/-- Every access is a hit or a miss. -/
theorem hits_add_misses (history : List A) :
    g.count .hit history + g.misses history = history.length := by
  induction history using List.reverseRecOn with
  | nil => rfl
  | append_singleton history a ih =>
    rw [count_concat, misses_concat, List.length_append, List.length_singleton]
    split_ifs <;> omega

/-- A hit is an access whose line was last accessed with the same tag. -/
theorem outcome_eq_hit_iff (history : List A) (a : A) :
    g.outcome (g.directory history) a = .hit ↔
      ∃ b, g.latest history (g.index a) = some b ∧ g.tag b = g.tag a := by
  rw [outcome, directory_eq_latest]
  cases g.latest history (g.index a) with
  | none => simp
  | some b => by_cases h : g.tag b = g.tag a <;> simp [h]

/-- An eviction is an access whose line was last accessed with another tag. -/
theorem outcome_eq_evict_iff (history : List A) (a : A) :
    g.outcome (g.directory history) a = .evict ↔
      ∃ b, g.latest history (g.index a) = some b ∧ g.tag b ≠ g.tag a := by
  rw [outcome, directory_eq_latest]
  cases g.latest history (g.index a) with
  | none => simp
  | some b => by_cases h : g.tag b = g.tag a <;> simp [h]

end Outcomes

omit [DecidableEq I] in
/-- Every resident address reads the value that memory holds there. -/
def Coherent (d : I → Option T) (data : I → O → B) (mem : A → B) : Prop :=
  ∀ a, d (g.index a) = some (g.tag a) → data (g.index a) (g.offset a) = mem a

omit [DecidableEq I] in
theorem coherent_empty (data : I → O → B) (mem : A → B) :
    g.Coherent (fun _ => none) data mem := by
  intro a ha
  cases ha

/-- Loading the block of `a` into its line. -/
theorem Coherent.fill {g : Geometry A T I O} {d : I → Option T} {data : I → O → B} {mem : A → B}
    (h : g.Coherent d data mem) (a : A) (block : O → B)
    (hblock : ∀ b, g.tag b = g.tag a → g.index b = g.index a → block (g.offset b) = mem b) :
    g.Coherent (g.access d a) (Function.update data (g.index a) block) mem := by
  intro b hb
  by_cases hi : g.index b = g.index a
  · have ht : g.tag b = g.tag a := by
      rw [access, hi, Function.update_self] at hb
      exact (Option.some_injective _ hb).symm
    rw [hi, Function.update_self]
    exact hblock b ht hi
  · rw [access, Function.update_of_ne hi] at hb
    rw [Function.update_of_ne hi]
    exact h b hb

/-- Writing a resident address through to memory. -/
theorem Coherent.write [DecidableEq A] [DecidableEq O] {g : Geometry A T I O} {d : I → Option T}
    {data : I → O → B} {mem : A → B} (h : g.Coherent d data mem) (a : A)
    (ha : d (g.index a) = some (g.tag a)) (v : B) :
    g.Coherent d
      (Function.update data (g.index a) (Function.update (data (g.index a)) (g.offset a) v))
      (Function.update mem a v) := by
  intro b hb
  by_cases hab : b = a
  · subst hab
    simp
  · rw [Function.update_of_ne hab]
    by_cases hi : g.index b = g.index a
    · have ht : g.tag b = g.tag a := by
        rw [hi, ha] at hb
        exact (Option.some_injective _ hb).symm
      have ho : g.offset b ≠ g.offset a := fun ho => hab (g.ext b a ht hi ho)
      rw [hi, Function.update_self, Function.update_of_ne ho, ← hi]
      exact h b hb
    · rw [Function.update_of_ne hi]
      exact h b hb

end Geometry

end OlinCourses.DirectMapped
