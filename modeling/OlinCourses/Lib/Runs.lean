import Mathlib.Data.List.Basic
import Mathlib.Tactic

/-!
# Maximal runs

The maximal runs of a list between the elements that separate them, as a
decomposition of the list and as pieces of its split.
-/
namespace OlinCourses.Runs

variable {α : Type*} (sep : α → Bool)

/-- `rs` are the maximal runs of elements of `l` that are no separators, in order.
A run ends at the end of the list or at a separator. -/
inductive MaxRuns : List α → List (List α) → Prop
  | nil : MaxRuns [] []
  | skip (a : α) (l : List α) (rs : List (List α)) (ha : sep a = true) (h : MaxRuns l rs) :
      MaxRuns (a :: l) rs
  | run (r l : List α) (rs : List (List α)) (hr : r ≠ []) (hsep : ∀ a ∈ r, sep a = false)
      (hend : ∀ a ∈ l.head?, sep a = true) (h : MaxRuns l rs) : MaxRuns (r ++ l) (r :: rs)

/-- The non-empty pieces among `pieces`. -/
def nonempty (pieces : List (List α)) : List (List α) := pieces.filter fun r => !r.isEmpty

@[simp] theorem nonempty_nil : nonempty ([] : List (List α)) = [] := rfl

@[simp] theorem nonempty_nil_cons (pieces : List (List α)) :
    nonempty ([] :: pieces) = nonempty pieces := rfl

theorem nonempty_cons {r : List α} (hr : r ≠ []) (pieces : List (List α)) :
    nonempty (r :: pieces) = r :: nonempty pieces := by
  simp [nonempty, hr]

theorem nonempty_append (first second : List (List α)) :
    nonempty (first ++ second) = nonempty first ++ nonempty second := List.filter_append ..

variable {sep}

theorem splitOnP_cons_of_sep {a : α} (ha : sep a = true) (l : List α) :
    (a :: l).splitOnP sep = [] :: l.splitOnP sep :=
  List.splitOnP_append_cons [] l ha

/-- The maximal runs are the non-empty pieces between separators. -/
theorem MaxRuns.eq_nonempty {l : List α} {rs : List (List α)} (h : MaxRuns sep l rs) :
    rs = nonempty (l.splitOnP sep) := by
  induction h with
  | nil => rfl
  | skip a l rs ha _ ih => rw [ih, splitOnP_cons_of_sep ha, nonempty_nil_cons]
  | run r l rs hr hsep hend _ ih =>
    cases l with
    | nil =>
      rw [List.append_nil, List.splitOnP_eq_singleton hsep, nonempty_cons hr, ih]
      rfl
    | cons a l =>
      have ha : sep a = true := hend a rfl
      rw [splitOnP_cons_of_sep ha, nonempty_nil_cons] at ih
      rw [List.splitOnP_append_cons_of_forall_mem hsep a ha, nonempty_cons hr, ih]

theorem maxRuns_append (cur l : List α) (hcur : ∀ a ∈ cur, sep a = false) :
    MaxRuns sep (cur ++ l) (nonempty ((cur ++ l).splitOnP sep)) := by
  induction l generalizing cur with
  | nil =>
    rw [List.append_nil, List.splitOnP_eq_singleton hcur]
    by_cases hnil : cur = []
    · subst hnil
      exact .nil
    · have hrun := MaxRuns.run cur [] [] hnil hcur (by simp) .nil
      rw [List.append_nil] at hrun
      rwa [nonempty_cons hnil]
  | cons a l ih =>
    by_cases ha : sep a = true
    · have hrest := MaxRuns.skip a l _ ha (ih [] (by simp))
      rw [List.splitOnP_append_cons_of_forall_mem hcur a ha]
      by_cases hnil : cur = []
      · subst hnil
        exact hrest
      · rw [nonempty_cons hnil]
        exact .run cur (a :: l) _ hnil hcur (by simpa using ha) hrest
    · have hext := ih (cur ++ [a]) (by simpa [or_imp, forall_and] using ⟨hcur, by simpa using ha⟩)
      rwa [List.append_assoc, List.singleton_append] at hext

theorem maxRuns_iff (l : List α) (rs : List (List α)) :
    MaxRuns sep l rs ↔ rs = nonempty (l.splitOnP sep) := by
  constructor
  · exact MaxRuns.eq_nonempty
  · rintro rfl
    exact maxRuns_append [] l (by simp)

variable (sep) in
/-- The maximal runs that are followed by a separator. -/
def ended (l : List α) : List (List α) := nonempty (l.splitOnP sep).dropLast

theorem ended_of_forall {cur : List α} (hcur : ∀ a ∈ cur, sep a = false) : ended sep cur = [] := by
  rw [ended, List.splitOnP_eq_singleton hcur]
  rfl

theorem ended_append_cons {cur : List α} (hcur : ∀ a ∈ cur, sep a = false) {a : α}
    (ha : sep a = true) (l : List α) :
    ended sep (cur ++ a :: l) = nonempty [cur] ++ ended sep l := by
  rw [ended, List.splitOnP_append_cons_of_forall_mem hcur a ha,
    List.dropLast_cons_of_ne_nil (List.splitOnP_ne_nil sep l), ← List.singleton_append,
    nonempty_append]
  rfl

/-- A separator ends the run before it, and the scan begins anew after it. -/
theorem ended_append_sep (l : List α) {a : α} (ha : sep a = true) (l' : List α) :
    ended sep (l ++ a :: l') = nonempty (l.splitOnP sep) ++ ended sep l' := by
  rw [ended, List.splitOnP_append_cons l l' ha,
    List.dropLast_append_of_ne_nil (List.splitOnP_ne_nil sep l'), nonempty_append, ended]

theorem ended_separators_append {w : List α} (hw : ∀ a ∈ w, sep a = true) (l : List α) :
    ended sep (w ++ l) = ended sep l := by
  induction w with
  | nil => rfl
  | cons a w ih =>
    have ha := hw a List.mem_cons_self
    have hrest := ih fun a' ha' => hw a' (List.mem_cons_of_mem a ha')
    rw [List.cons_append, ← List.nil_append (a :: (w ++ l)), ended_append_sep [] ha, hrest]
    rfl

/-- Which separators stand between two lists, and how many, makes no difference. -/
theorem ended_append_separators {w : List α} (hw : ∀ a ∈ w, sep a = true) (hne : w ≠ [])
    (l l' : List α) :
    ended sep (l ++ (w ++ l')) = nonempty (l.splitOnP sep) ++ ended sep l' := by
  obtain ⟨a, w, rfl⟩ := List.exists_cons_of_ne_nil hne
  have hrest := ended_separators_append (fun a' ha' => hw a' (List.mem_cons_of_mem a ha')) l'
  rw [List.cons_append, ended_append_sep l (hw a List.mem_cons_self), hrest]

/-- The last piece is empty exactly when nothing follows the last separator. -/
theorem getLast_pieces_iff (cur l : List α) (hcur : ∀ a ∈ cur, sep a = false) :
    ((cur ++ l).splitOnP sep).getLast? = some [] ↔
      ∀ a ∈ (cur ++ l).getLast?, sep a = true := by
  induction l generalizing cur with
  | nil =>
    rw [List.append_nil, List.splitOnP_eq_singleton hcur]
    cases hlast : cur.getLast? with
    | none => simpa using hlast
    | some a =>
      have ha := hcur a (List.mem_of_getLast? hlast)
      have hne : cur ≠ [] := by
        rintro rfl
        cases hlast
      simp [ha, hne]
  | cons a l ih =>
    by_cases ha : sep a = true
    · have hne := List.splitOnP_ne_nil sep l
      rw [List.splitOnP_append_cons_of_forall_mem hcur a ha,
        List.getLast?_append_of_ne_nil _ (List.cons_ne_nil a l), ← List.singleton_append,
        List.getLast?_append_of_ne_nil _ hne]
      cases l with
      | nil => simp [ha]
      | cons b l => simpa using ih [] (by simp)
    · have hext := ih (cur ++ [a]) (by simpa [or_imp, forall_and] using ⟨hcur, by simpa using ha⟩)
      rwa [List.append_assoc, List.singleton_append] at hext

/-- Every run is ended exactly when the list is empty or its last element separates. -/
theorem maxRuns_ended_iff (l : List α) :
    MaxRuns sep l (ended sep l) ↔ ∀ a ∈ l.getLast?, sep a = true := by
  have hlast : (l.splitOnP sep).getLast? = some [] ↔ ∀ a ∈ l.getLast?, sep a = true :=
    getLast_pieces_iff [] l (by simp)
  rw [maxRuns_iff, ← hlast, ended]
  obtain ⟨pieces, piece, hpieces⟩ := List.eq_nil_or_concat' (l.splitOnP sep) |>.resolve_left
    (List.splitOnP_ne_nil sep l)
  rw [hpieces, List.dropLast_concat, nonempty_append, List.getLast?_concat]
  by_cases hpiece : piece = []
  · simp [hpiece, nonempty]
  · simp [hpiece, nonempty]

end OlinCourses.Runs
