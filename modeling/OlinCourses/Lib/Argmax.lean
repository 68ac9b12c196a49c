import Mathlib.Order.Basic
import Mathlib.Order.Lattice
import Mathlib.Tactic

/-!
# Collecting the best candidates

A scan that keeps the greatest value seen so far, from a starting value on, and the
candidates that attain it.
-/
namespace OlinCourses.Argmax

section Collect

variable {α K : Type*} [DecidableEq α] [LinearOrder K] (value : α → K)

/-- One candidate of the scan. -/
def collect (best : K × List α) (candidate : α) : K × List α :=
  if best.1 < value candidate then (value candidate, [candidate])
  else if value candidate = best.1 then (best.1, best.2.insert candidate)
  else best

/-- The scan from the value `start`. -/
def collectAll (start : K) (candidates : List α) : K × List α :=
  candidates.foldl (collect value) (start, [])

/-- What the scan has found among the candidates seen so far. -/
structure Collected (start : K) (seen : List α) (best : K × List α) : Prop where
  start_le : start ≤ best.1
  le : ∀ candidate ∈ seen, value candidate ≤ best.1
  attained : best.1 = start ∨ ∃ candidate ∈ seen, value candidate = best.1
  mem_iff : ∀ candidate, candidate ∈ best.2 ↔ candidate ∈ seen ∧ value candidate = best.1

variable {value} {start : K} {seen : List α} {best : K × List α}

omit [DecidableEq α] in
/-- A further candidate does not take the maximum away. -/
theorem Collected.attained_concat (h : Collected value start seen best) (candidate : α) :
    best.1 = start ∨ ∃ other ∈ seen ++ [candidate], value other = best.1 :=
  h.attained.imp_right fun ⟨other, hseen, hvalue⟩ =>
    ⟨other, List.mem_append_left _ hseen, hvalue⟩

theorem Collected.collect (h : Collected value start seen best) (candidate : α) :
    Collected value start (seen ++ [candidate]) (collect value best candidate) := by
  unfold Argmax.collect
  split_ifs with hlt heq
  · refine ⟨h.start_le.trans hlt.le, ?_, Or.inr ⟨candidate, by simp, rfl⟩, ?_⟩
    · exact List.forall_mem_append.mpr
        ⟨fun other hseen => (h.le other hseen).trans hlt.le, List.forall_mem_singleton.mpr le_rfl⟩
    · intro other
      rw [List.mem_singleton, List.mem_append, List.mem_singleton]
      constructor
      · rintro rfl
        exact ⟨Or.inr rfl, rfl⟩
      · rintro ⟨hseen | hnew, hvalue⟩
        · exact absurd hvalue ((h.le other hseen).trans_lt hlt).ne
        · exact hnew
  · refine ⟨h.start_le, ?_, h.attained_concat candidate, ?_⟩
    · exact List.forall_mem_append.mpr ⟨h.le, List.forall_mem_singleton.mpr heq.le⟩
    · intro other
      rw [List.mem_insert_iff, h.mem_iff, List.mem_append, List.mem_singleton]
      constructor
      · rintro (rfl | ⟨hseen, hvalue⟩)
        · exact ⟨Or.inr rfl, heq⟩
        · exact ⟨Or.inl hseen, hvalue⟩
      · rintro ⟨hseen | hnew, hvalue⟩
        · exact Or.inr ⟨hseen, hvalue⟩
        · exact Or.inl hnew
  · have hless : value candidate < best.1 := lt_of_le_of_ne (not_lt.mp hlt) heq
    refine ⟨h.start_le, ?_, h.attained_concat candidate, ?_⟩
    · exact List.forall_mem_append.mpr ⟨h.le, List.forall_mem_singleton.mpr hless.le⟩
    · intro other
      rw [h.mem_iff, List.mem_append, List.mem_singleton]
      constructor
      · exact fun ⟨hseen, hvalue⟩ => ⟨Or.inl hseen, hvalue⟩
      · rintro ⟨hseen | rfl, hvalue⟩
        · exact ⟨hseen, hvalue⟩
        · exact absurd hvalue hless.ne

theorem Collected.foldl (h : Collected value start seen best) (candidates : List α) :
    Collected value start (seen ++ candidates) (candidates.foldl (Argmax.collect value) best) := by
  induction candidates generalizing seen best with
  | nil => rwa [List.append_nil]
  | cons candidate candidates ih =>
    rw [List.append_cons]
    exact ih (h.collect candidate)

variable (value start)

/-- The scan collects the candidates of greatest value, if that reaches the start. -/
theorem mem_collectAll {candidates : List α} {candidate : α} :
    candidate ∈ (collectAll value start candidates).2 ↔
      candidate ∈ candidates ∧ start ≤ value candidate ∧
        ∀ other ∈ candidates, value other ≤ value candidate := by
  have hempty : Collected value start [] (start, []) := ⟨le_rfl, by simp, Or.inl rfl, by simp⟩
  have h := hempty.foldl candidates
  rw [List.nil_append] at h
  rw [collectAll, h.mem_iff]
  constructor
  · rintro ⟨hmem, hvalue⟩
    exact ⟨hmem, hvalue ▸ h.start_le, fun other hother => hvalue ▸ h.le other hother⟩
  · rintro ⟨hmem, hstart, hmax⟩
    refine ⟨hmem, (h.le candidate hmem).antisymm ?_⟩
    obtain hbest | ⟨other, hother, hbest⟩ := h.attained
    · rwa [hbest]
    · rw [← hbest]
      exact hmax other hother

end Collect

section Best

variable {α K : Type*} [LinearOrder K] (value : α → K)

/-- A scan that moves on to each candidate of strictly greater value ends at a greatest. -/
theorem le_foldl_best (candidates : List α) (start : α) :
    ∀ candidate, candidate = start ∨ candidate ∈ candidates → value candidate ≤
      value (candidates.foldl (fun best next => if value next > value best then next else best)
        start) := by
  induction candidates generalizing start with
  | nil =>
    rintro candidate (rfl | hmem)
    · exact le_rfl
    · cases hmem
  | cons next rest ih =>
    intro candidate hcandidate
    rw [List.foldl_cons]
    by_cases hgt : value next > value start
    · rw [if_pos hgt]
      obtain rfl | hmem := hcandidate
      · exact hgt.le.trans (ih next next (Or.inl rfl))
      · exact ih next candidate (List.mem_cons.mp hmem)
    · rw [if_neg hgt]
      obtain rfl | hmem := hcandidate
      · exact ih candidate candidate (Or.inl rfl)
      · obtain rfl | hmem := List.mem_cons.mp hmem
        · exact (not_lt.mp hgt).trans (ih start start (Or.inl rfl))
        · exact ih start candidate (Or.inr hmem)

end Best

end OlinCourses.Argmax
