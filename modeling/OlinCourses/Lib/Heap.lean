import Mathlib.Data.List.Nodup
import Mathlib.Data.List.Perm.Basic
import Mathlib.Logic.Function.Basic
import Mathlib.Tactic

/-!
# Heaps and the cells a structure owns

A heap maps addresses to objects. Addresses that were handed out once are not handed out
again, so an access through a stale pointer finds nothing. A structure owns cells of the
heap; what it does to them leaves the rest of the heap, its frame, as it was.
-/
namespace OlinCourses

/-- The objects by address. Addresses from `next` on have not been handed out yet. -/
structure Heap (β : Type*) where
  block : ℕ → Option β
  next : ℕ
  fresh : ∀ p, next ≤ p → block p = none

namespace Heap

variable {β : Type*}

/-- A new object, at a new address. -/
def malloc (h : Heap β) (x : β) : ℕ × Heap β where
  fst := h.next
  snd :=
    { block := Function.update h.block h.next (some x)
      next := h.next + 1
      fresh := by
        intro p hp
        rw [Function.update_of_ne (by omega)]
        exact h.fresh p (by omega) }

/-- Release an object; `none` if there is none at this address. -/
def free (h : Heap β) (p : ℕ) : Option (Heap β) :=
  match h.block p with
  | none => none
  | some _ => some
    { block := Function.update h.block p none
      next := h.next
      fresh := by
        intro q hq
        by_cases hpq : q = p
        · rw [hpq, Function.update_self]
        · rw [Function.update_of_ne hpq, h.fresh q hq] }

/-- Replace an object; `none` if there is none at this address. -/
def set (h : Heap β) (p : ℕ) (x : β) : Option (Heap β) :=
  match hp : h.block p with
  | none => none
  | some _ => some
    { block := Function.update h.block p (some x)
      next := h.next
      fresh := by
        intro q hq
        have hne : q ≠ p := by
          rintro rfl
          rw [h.fresh q hq] at hp
          cases hp
        rw [Function.update_of_ne hne, h.fresh q hq] }

theorem exists_free {h : Heap β} {p : ℕ} {x : β} (hp : h.block p = some x) :
    ∃ h', h.free p = some h' ∧ h'.block = Function.update h.block p none := by
  rw [free, hp]
  exact ⟨_, rfl, rfl⟩

theorem exists_set {h : Heap β} {p : ℕ} {x : β} (hp : h.block p = some x) (y : β) :
    ∃ h', h.set p y = some h' ∧ h'.block = Function.update h.block p (some y) := by
  unfold set
  split
  · rename_i hnone
    rw [hnone] at hp
    cases hp
  · exact ⟨_, rfl, rfl⟩

/-- `h` is the frame together with the cells, each at an address of its own. -/
structure Owns (h : Heap β) (frame : ℕ → Option β) (cells : List (ℕ × β)) : Prop where
  nodup : (cells.map Prod.fst).Nodup
  holds : ∀ c ∈ cells, h.block c.1 = some c.2
  apart : ∀ c ∈ cells, frame c.1 = none
  rest : ∀ p ∉ cells.map Prod.fst, h.block p = frame p

namespace Owns

variable {h : Heap β} {frame : ℕ → Option β} {cells : List (ℕ × β)} {p : ℕ} {x : β}

theorem nil (h : Heap β) : h.Owns h.block [] where
  nodup := List.nodup_nil
  holds := nofun
  apart := nofun
  rest _ _ := rfl

/-- Without cells the heap is the frame. -/
theorem eq_frame (ho : h.Owns frame []) : h.block = frame := by
  ext1 p
  exact ho.rest p List.not_mem_nil

theorem of_eq (hframe : h.block = frame) : h.Owns frame [] := hframe ▸ nil h

/-- The order of the cells does not matter. -/
theorem perm (ho : h.Owns frame cells) {cells' : List (ℕ × β)} (hperm : cells.Perm cells') :
    h.Owns frame cells' where
  nodup := (hperm.map Prod.fst).nodup_iff.mp ho.nodup
  holds c hc := ho.holds c (hperm.mem_iff.mpr hc)
  apart c hc := ho.apart c (hperm.mem_iff.mpr hc)
  rest p hp := ho.rest p fun hin => hp ((hperm.map Prod.fst).mem_iff.mp hin)

theorem congr (ho : h.Owns frame cells) {h' : Heap β} (hblock : h'.block = h.block) :
    h'.Owns frame cells where
  nodup := ho.nodup
  holds c hc := hblock ▸ ho.holds c hc
  apart := ho.apart
  rest p hp := hblock ▸ ho.rest p hp

/-- What was there before is kept. -/
theorem block_frame (ho : h.Owns frame cells) (hp : frame p = some x) : h.block p = some x := by
  rw [ho.rest p ?_, hp]
  intro hin
  obtain ⟨c, hc, rfl⟩ := List.mem_map.mp hin
  rw [ho.apart c hc] at hp
  cases hp

theorem malloc (ho : h.Owns frame cells) (x : β) :
    (h.malloc x).2.Owns frame (((h.malloc x).1, x) :: cells) := by
  have hnew : ∀ c ∈ cells, c.1 ≠ h.next := by
    intro c hc heq
    have hnone := h.fresh c.1 heq.ge
    rw [ho.holds c hc] at hnone
    cases hnone
  have hnext : h.next ∉ cells.map Prod.fst := by
    rw [List.mem_map]
    rintro ⟨c, hc, heq⟩
    exact hnew c hc heq
  refine ⟨List.nodup_cons.mpr ⟨hnext, ho.nodup⟩, ?_, ?_, ?_⟩
  · intro c hc
    rcases List.mem_cons.mp hc with rfl | hc
    · exact Function.update_self ..
    · exact (Function.update_of_ne (hnew c hc) ..).trans (ho.holds c hc)
  · intro c hc
    rcases List.mem_cons.mp hc with rfl | hc
    · exact (ho.rest h.next hnext).symm.trans (h.fresh h.next le_rfl)
    · exact ho.apart c hc
  · intro p hp
    rw [List.map_cons, List.mem_cons, not_or] at hp
    exact (Function.update_of_ne hp.1 ..).trans (ho.rest p hp.2)

theorem head (ho : h.Owns frame ((p, x) :: cells)) : h.block p = some x :=
  ho.holds (p, x) List.mem_cons_self

/-- Another cell is not the first one. -/
theorem ne_head (ho : h.Owns frame ((p, x) :: cells)) {c : ℕ × β} (hc : c ∈ cells) : c.1 ≠ p := by
  intro heq
  have hnodup := ho.nodup
  rw [List.map_cons, List.nodup_cons] at hnodup
  exact hnodup.1 (List.mem_map.mpr ⟨c, hc, heq⟩)

theorem free (ho : h.Owns frame ((p, x) :: cells)) :
    ∃ h', h.free p = some h' ∧ h'.Owns frame cells := by
  obtain ⟨h', hfree, hblock⟩ := exists_free ho.head
  refine ⟨h', hfree, (List.nodup_cons.mp ho.nodup).2, ?_, ?_, ?_⟩
  · intro c hc
    rw [hblock, Function.update_of_ne (ho.ne_head hc)]
    exact ho.holds c (List.mem_cons_of_mem _ hc)
  · exact fun c hc => ho.apart c (List.mem_cons_of_mem _ hc)
  · intro q hq
    rw [hblock]
    by_cases hqp : q = p
    · rw [hqp, Function.update_self]
      exact (ho.apart (p, x) List.mem_cons_self).symm
    · rw [Function.update_of_ne hqp]
      exact ho.rest q (by simpa [hqp] using hq)

theorem set (ho : h.Owns frame ((p, x) :: cells)) (y : β) :
    ∃ h', h.set p y = some h' ∧ h'.Owns frame ((p, y) :: cells) := by
  obtain ⟨h', hset, hblock⟩ := exists_set ho.head y
  refine ⟨h', hset, ho.nodup, ?_, ?_, ?_⟩
  · intro c hc
    rw [hblock]
    rcases List.mem_cons.mp hc with rfl | hc
    · exact Function.update_self ..
    · rw [Function.update_of_ne (ho.ne_head hc)]
      exact ho.holds c (List.mem_cons_of_mem _ hc)
  · intro c hc
    rcases List.mem_cons.mp hc with rfl | hc
    · exact ho.apart (p, x) List.mem_cons_self
    · exact ho.apart c (List.mem_cons_of_mem _ hc)
  · intro q hq
    rw [List.map_cons, List.mem_cons, not_or] at hq
    rw [hblock, Function.update_of_ne hq.1]
    exact ho.rest q (by simpa using hq)

section Middle

variable (before : List (ℕ × β)) {after : List (ℕ × β)}

theorem free_mid (ho : h.Owns frame (before ++ (p, x) :: after)) :
    ∃ h', h.free p = some h' ∧ h'.Owns frame (before ++ after) :=
  (ho.perm List.perm_middle).free

theorem set_mid (ho : h.Owns frame (before ++ (p, x) :: after)) (y : β) :
    ∃ h', h.set p y = some h' ∧ h'.Owns frame (before ++ (p, y) :: after) := by
  obtain ⟨h', hset, ho'⟩ := (ho.perm List.perm_middle).set y
  exact ⟨h', hset, ho'.perm List.perm_middle.symm⟩

end Middle

/-- Cells owned on top of a heap with cells. -/
theorem trans (ho : h.Owns frame cells) {h' : Heap β} {more : List (ℕ × β)}
    (ho' : h'.Owns h.block more) : h'.Owns frame (more ++ cells) := by
  have hkept : ∀ c ∈ cells, c.1 ∉ more.map Prod.fst := by
    intro c hc hin
    obtain ⟨d, hd, heq⟩ := List.mem_map.mp hin
    have hnone := ho'.apart d hd
    rw [heq, ho.holds c hc] at hnone
    cases hnone
  have hnew : ∀ d ∈ more, d.1 ∉ cells.map Prod.fst := by
    intro d hd hin
    obtain ⟨c, hc, heq⟩ := List.mem_map.mp hin
    exact hkept c hc (List.mem_map.mpr ⟨d, hd, heq.symm⟩)
  refine ⟨?_, ?_, ?_, ?_⟩
  · rw [List.map_append, List.nodup_append']
    refine ⟨ho'.nodup, ho.nodup, ?_⟩
    intro p hmore hcells
    obtain ⟨c, hc, rfl⟩ := List.mem_map.mp hcells
    exact hkept c hc hmore
  · intro c hc
    rcases List.mem_append.mp hc with hc | hc
    · exact ho'.holds c hc
    · rw [ho'.rest c.1 (hkept c hc), ho.holds c hc]
  · intro c hc
    rcases List.mem_append.mp hc with hc | hc
    · rw [← ho.rest c.1 (hnew c hc), ho'.apart c hc]
    · exact ho.apart c hc
  · intro p hp
    rw [List.map_append, List.mem_append, not_or] at hp
    rw [ho'.rest p hp.1, ho.rest p hp.2]

/-- The heap but for some cells. -/
def without (h : Heap β) (cells : List (ℕ × β)) : Heap β where
  block p := if p ∈ cells.map Prod.fst then none else h.block p
  next := h.next
  fresh := by
    intro p hp
    rw [h.fresh p hp, ite_self]

theorem of_append {more : List (ℕ × β)} (ho : h.Owns frame (cells ++ more)) :
    h.Owns (without h cells).block cells ∧ (without h cells).Owns frame more := by
  obtain ⟨hnodup, hnodup', hdisj⟩ := List.nodup_append'.mp (List.map_append ▸ ho.nodup)
  refine ⟨⟨hnodup, fun c hc => ho.holds c (List.mem_append_left _ hc), ?_, ?_⟩, hnodup', ?_,
    fun c hc => ho.apart c (List.mem_append_right _ hc), ?_⟩
  · exact fun c hc => if_pos (List.mem_map_of_mem hc)
  · exact fun p hp => (if_neg hp).symm
  · intro c hc
    have hout : c.1 ∉ cells.map Prod.fst := fun hin => hdisj hin (List.mem_map_of_mem hc)
    exact (if_neg hout).trans (ho.holds c (List.mem_append_right _ hc))
  · intro p hp
    by_cases hin : p ∈ cells.map Prod.fst
    · obtain ⟨c, hc, rfl⟩ := List.mem_map.mp hin
      exact (if_pos hin).trans (ho.apart c (List.mem_append_left _ hc)).symm
    · refine (if_neg hin).trans (ho.rest p ?_)
      rw [List.map_append, List.mem_append, not_or]
      exact ⟨hin, hp⟩

/-- The frame rule: what an operation does to cells it does beside any others. -/
theorem frame_rule (op : Heap β → Option (Heap β)) (cells' : List (ℕ × β))
    {more : List (ℕ × β)}
    (hop : ∀ frame', h.Owns frame' cells → ∃ h', op h = some h' ∧ h'.Owns frame' cells')
    (ho : h.Owns frame (cells ++ more)) :
    ∃ h', op h = some h' ∧ h'.Owns frame (cells' ++ more) := by
  obtain ⟨hcells, hmore⟩ := ho.of_append
  obtain ⟨h', hrun, ho'⟩ := hop _ hcells
  exact ⟨h', hrun, hmore.trans ho'⟩

end Owns

end Heap

end OlinCourses
