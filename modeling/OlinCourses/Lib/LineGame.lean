import Mathlib.Logic.Function.Basic
import Mathlib.Tactic

/-!
# Marking games with lines

Players mark cells of a board one at a time. A line is a list of cells; a mark
completes it when it stands on all of them.
-/
namespace OlinCourses.LineGame

section Completes

variable {Cell Mark : Type*} [DecidableEq Cell]

/-- The mark stands on every cell of some line. -/
def Completes (lines : List (List Cell)) (board : Cell → Mark) (mark : Mark) : Prop :=
  ∃ line ∈ lines, ∀ cell ∈ line, board cell = mark

instance [DecidableEq Mark] (lines : List (List Cell)) (board : Cell → Mark) (mark : Mark) :
    Decidable (Completes lines board mark) :=
  inferInstanceAs (Decidable (∃ line ∈ lines, _))

variable {lines : List (List Cell)} {board : Cell → Mark} {cell : Cell} {mark mark' : Mark}

/-- Marking a cell completes no line for another mark. -/
theorem Completes.of_update (h : Completes lines (Function.update board cell mark) mark')
    (hne : mark ≠ mark') : Completes lines board mark' := by
  obtain ⟨line, hline, hmarked⟩ := h
  refine ⟨line, hline, fun other hother => ?_⟩
  have hcell : other ≠ cell := by
    intro heq
    have hvalue := hmarked other hother
    rw [heq, Function.update_self] at hvalue
    exact hne hvalue
  rw [← hmarked other hother, Function.update_of_ne hcell]

omit [DecidableEq Cell] in
theorem completes_append {lines' : List (List Cell)} :
    Completes (lines ++ lines') board mark ↔
      Completes lines board mark ∨ Completes lines' board mark := by
  simp [Completes, or_and_right, exists_or]

omit [DecidableEq Cell] in
/-- No mark completes a line that has a cell with a different mark. -/
theorem not_completes_of_forall (h : ∀ line ∈ lines, ∃ cell ∈ line, board cell ≠ mark) :
    ¬ Completes lines board mark := by
  rintro ⟨line, hline, hmarked⟩
  obtain ⟨cell, hcell, hne⟩ := h line hline
  exact hne (hmarked cell hcell)

end Completes

end OlinCourses.LineGame
