import OlinCourses.Game2048.Rows
import OlinCourses.Lib.Doubling

/-!
# The tiles of a board

A board as the multiset of its sixteen entries. Every move merges equal pairs, and
the random tile takes the place of a zero.
-/
namespace OlinCourses.Game2048
open Doubling
open scoped BigOperators

/-- The sixteen entries of the board. -/
def cells (b : Grid) : Multiset ℕ := ∑ r, ∑ c, {b r c}

theorem sum_singleton_eq_ofFn {n : ℕ} (f : Fin n → ℕ) :
    ∑ c, ({f c} : Multiset ℕ) = (List.ofFn f : Multiset ℕ) := by
  rw [← List.sum_ofFn, show (List.ofFn fun c => ({f c} : Multiset ℕ)) =
    (List.ofFn f).map ({·}) by rw [List.map_ofFn]; rfl]
  exact Multiset.sum_map_singleton (List.ofFn f : Multiset ℕ)

theorem cells_eq (b : Grid) : cells b = ∑ r, (List.ofFn (b r) : Multiset ℕ) :=
  Finset.sum_congr rfl fun r _ => sum_singleton_eq_ofFn (b r)

theorem cells_transpose (b : Grid) : cells (fun r c => b c r) = cells b := Finset.sum_comm

@[simp] theorem card_cells (b : Grid) : (cells b).card = 16 := by
  simp [cells_eq]

theorem mem_cells {b : Grid} {t : ℕ} : t ∈ cells b ↔ ∃ r c, b r c = t := by
  simp [cells, eq_comm]

theorem sum_map_cells (w : ℕ → ℕ) (b : Grid) :
    ((cells b).map w).sum = ∑ r, ∑ c, w (b r c) := by
  have hweight : ∀ s : Multiset ℕ,
      (s.map w).sum = Multiset.sumAddMonoidHom (Multiset.mapAddMonoidHom w s) := fun _ => rfl
  rw [hweight, cells, map_sum, map_sum]
  refine Finset.sum_congr rfl fun r _ => ?_
  rw [map_sum, map_sum]
  refine Finset.sum_congr rfl fun c _ => ?_
  rw [← hweight, Multiset.map_singleton, Multiset.sum_singleton]

theorem mergeFrom_merges (tile : ℕ) (rest : List ℕ) :
    Merges (tile :: rest : List ℕ) (mergeFrom tile rest).1 (mergeFrom tile rest).2 := by
  induction rest generalizing tile with
  | nil => exact Merges.keep tile Merges.nil
  | cons next rest ih =>
    simp only [mergeFrom]
    split_ifs with heq
    · subst heq
      have hrest := ih 0
      rw [← Multiset.cons_coe] at hrest
      rw [← two_mul]
      exact Merges.merge tile hrest
    · exact Merges.keep tile (ih next)

theorem mergeRow_merges (row : List ℕ) : Merges row (mergeRow row).1 (mergeRow row).2 := by
  cases row with
  | nil => exact Merges.nil
  | cons tile rest => exact mergeFrom_merges tile rest

/-- Unbounded numbers are only padded. -/
theorem append_eq (row : List ℕ) : append row = row ++ List.replicate (4 - row.length) 0 := by
  rw [append]
  split_ifs with hfull
  · rw [Nat.sub_eq_zero_of_le hfull, List.replicate_zero, List.append_nil]
    exact List.map_id row
  · rfl

/-- Compacting and padding moves the zeros to the end. -/
theorem coe_append_compact (row : List ℕ) (hrow : row.length ≤ 4) :
    (append (compact row) : Multiset ℕ) =
      (row : Multiset ℕ) + Multiset.replicate (4 - row.length) 0 := by
  have hzeros : row.filter (fun t => !decide (t ≠ 0)) =
      List.replicate (row.length - (compact row).length) 0 := by
    rw [List.eq_replicate_iff]
    refine ⟨?_, fun t ht => by simpa using (List.mem_filter.mp ht).2⟩
    have hsum := (List.filter_append_perm (fun t => decide (t ≠ 0)) row).length_eq
    rw [List.length_append] at hsum
    rw [compact]
    omega
  have hperm := List.filter_append_perm (fun t => decide (t ≠ 0)) row
  rw [hzeros, ← Multiset.coe_eq_coe] at hperm
  have hlen := length_compact_le row
  rw [← hperm, append_eq, ← Multiset.coe_add, ← Multiset.coe_add, add_assoc]
  congr 1
  rw [← Multiset.coe_replicate, Multiset.coe_add, List.replicate_append_replicate]
  congr 2
  omega

theorem shiftRow_merges (row : List ℕ) (hrow : row.length = 4) :
    Merges row (shiftRow row).1 (shiftRow row).2 := by
  have hlen := length_compact_le row
  have hcompact : (row : Multiset ℕ) =
      (compact row : Multiset ℕ) + Multiset.replicate (4 - (compact row).length) 0 := by
    have hpad := coe_append_compact row hrow.le
    rw [hrow, Nat.sub_self, Multiset.replicate_zero, add_zero] at hpad
    rw [← hpad, append_eq, ← Multiset.coe_add, Multiset.coe_replicate]
  rw [shiftRow, coe_append_compact _ (by rw [length_mergeRow]; omega), length_mergeRow]
  nth_rewrite 1 [hcompact]
  exact (mergeRow_merges (compact row)).add (Merges.refl _)

/-- The points of the rows, added up. -/
theorem foldl_points (p : Fin 4 → ℕ) (score : ℕ) :
    (List.finRange 4).foldl (fun s r => s + p r) score = score + ∑ r, p r := by
  rw [Fin.sum_univ_four]
  simp only [show List.finRange 4 = [0, 1, 2, 3] from rfl, List.foldl_cons, List.foldl_nil]
  omega

/-- The board after merging equal pairs, with the merged tiles added to the score. -/
def MergesTo (g g' : Board) : Prop :=
  ∃ points, Merges (cells g.board) (cells g'.board) points ∧ g'.score = g.score + points

theorem mergesTo_of_rows {g g' : Board} {points : Fin 4 → ℕ}
    (hscore : g'.score = g.score + ∑ r, points r)
    (hrows : ∀ r, Merges (List.ofFn (g.board r)) (List.ofFn (g'.board r)) (points r)) :
    MergesTo g g' := by
  refine ⟨_, ?_, hscore⟩
  rw [cells_eq, cells_eq]
  exact Merges.sum _ fun r _ => hrows r

theorem leftPressed_mergesTo (g : Board) : MergesTo g (leftPressed g) := by
  rw [leftPressed_eq_shiftRow]
  apply mergesTo_of_rows (foldl_points (fun r => (shiftRow (List.ofFn (g.board r))).2) g.score)
  intro r
  rw [ofFn_toRow _ (length_shiftRow _ List.length_ofFn)]
  exact shiftRow_merges _ List.length_ofFn

theorem rightPressed_mergesTo (g : Board) : MergesTo g (rightPressed g) := by
  rw [rightPressed_eq_shiftRow]
  apply mergesTo_of_rows
    (foldl_points (fun r => (shiftRow (List.ofFn (g.board r)).reverse).2) g.score)
  intro r
  have hrow : (List.ofFn (g.board r)).reverse.length = 4 := by simp
  rw [ofFn_toRow _ (by rw [List.length_reverse, length_shiftRow _ hrow]),
    ← Multiset.coe_reverse (List.ofFn (g.board r)), Multiset.coe_reverse (shiftRow _).1]
  exact shiftRow_merges _ hrow

theorem MergesTo.transpose {g g' : Board} (h : MergesTo (transpose g) g') :
    MergesTo g (transpose g') := by
  obtain ⟨points, hmerges, hscore⟩ := h
  refine ⟨points, ?_, hscore⟩
  simpa only [Game2048.transpose, cells_transpose] using hmerges

theorem upPressed_mergesTo (g : Board) : MergesTo g (upPressed g) := by
  rw [upPressed]
  exact (leftPressed_mergesTo _).transpose

theorem downPressed_mergesTo (g : Board) : MergesTo g (downPressed g) := by
  rw [downPressed]
  exact (rightPressed_mergesTo _).transpose

theorem MergesTo.refl (g : Board) : MergesTo g g := ⟨0, Merges.refl _, rfl⟩

theorem move_mergesTo (g : Board) (direction : String) : MergesTo g (move g direction).2 :=
  move_cases g direction (upPressed_mergesTo g) (leftPressed_mergesTo g) (downPressed_mergesTo g)
    (rightPressed_mergesTo g) (MergesTo.refl g)

section Blanks

variable {α : Type} [DecidableEq α] [OfNat α 0]

theorem mem_emptyTiles {b : GridOf α} {cell : Fin 4 × Fin 4} :
    cell ∈ emptyTiles b ↔ b cell.1 cell.2 = 0 := by
  simp [emptyTiles]

theorem emptyTiles_eq_nil {b : GridOf α} : emptyTiles b = [] ↔ ∀ r c, b r c ≠ 0 := by
  simp [List.eq_nil_iff_forall_not_mem, mem_emptyTiles]

/-- A random tile is placed on a blank tile if there is one. -/
theorem addRandomTile_eq [OfNat α 2] [OfNat α 4] (g : BoardOf α) (draw : Draw) :
    (emptyTiles g.board = [] ∧ addRandomTile g draw = g) ∨
      ∃ r c, g.board r c = 0 ∧
        addRandomTile g draw = { g with board := place g.board r c (draw.tileOf α) } := by
  cases hcell : (emptyTiles g.board)[draw.choice % (emptyTiles g.board).length]? with
  | none =>
    have hnil : emptyTiles g.board = [] := by
      rw [List.getElem?_eq_none_iff] at hcell
      by_contra hne
      exact absurd (Nat.mod_lt draw.choice (List.length_pos_iff.mpr hne)) (by omega)
    exact Or.inl ⟨hnil, by rw [addRandomTile, hcell]⟩
  | some cell =>
    have hmem : cell ∈ emptyTiles g.board := List.mem_of_getElem? hcell
    exact Or.inr ⟨cell.1, cell.2, mem_emptyTiles.mp hmem, by rw [addRandomTile, hcell]⟩

end Blanks

theorem addRandomTile_cases (g : Board) (draw : Draw) :
    ((∀ r c, g.board r c ≠ 0) ∧ randomTile g draw = [] ∧ addRandomTile g draw = g) ∨
      ∃ r c, g.board r c = 0 ∧ randomTile g draw = [draw.tile] ∧
        addRandomTile g draw = { g with board := place g.board r c draw.tile } := by
  obtain ⟨hnil, hboard⟩ | ⟨r, c, hcell, hboard⟩ := addRandomTile_eq g draw
  · exact Or.inl ⟨emptyTiles_eq_nil.mp hnil, by rw [randomTile, if_pos hnil], hboard⟩
  · have hne : emptyTiles g.board ≠ [] := fun hnil => emptyTiles_eq_nil.mp hnil r c hcell
    exact Or.inr ⟨r, c, hcell, by rw [randomTile, if_neg hne], hboard⟩

theorem sum_update_add {ι β M : Type*} [Fintype ι] [DecidableEq ι] [AddCommMonoid M]
    (f : ι → β) (w : β → M) (i : ι) (x : β) :
    ∑ j, w (Function.update f i x j) + w (f i) = ∑ j, w (f j) + w x := by
  have hcomp : ∀ j, w (Function.update f i x j) = Function.update (w ∘ f) i (w x) j := by
    intro j
    by_cases hj : j = i
    · subst hj
      simp
    · simp [hj]
  rw [Finset.sum_congr rfl fun j _ => hcomp j, Finset.sum_update_of_mem (Finset.mem_univ i),
    ← Finset.sum_sdiff (Finset.subset_univ {i}), Finset.sum_singleton]
  simp only [Function.comp_apply]
  ac_rfl

theorem cells_place_add (b : Grid) (r c : Fin 4) (tile : ℕ) :
    cells (place b r c tile) + {b r c} = cells b + {tile} := by
  have hrow := sum_update_add (b r) (fun t => ({t} : Multiset ℕ)) c tile
  have hgrid := sum_update_add b (fun row => ∑ c, ({row c} : Multiset ℕ)) r
    (Function.update (b r) c tile)
  have hcancel : ∑ c, {b r c} + (cells (place b r c tile) + {b r c}) =
      ∑ c, {b r c} + (cells b + {tile}) := by
    calc ∑ c, {b r c} + (cells (place b r c tile) + {b r c})
        = cells (place b r c tile) + ∑ c, {b r c} + {b r c} := by ac_rfl
      _ = cells b + ∑ j, {Function.update (b r) c tile j} + {b r c} := congrArg (· + _) hgrid
      _ = cells b + (∑ j, {Function.update (b r) c tile j} + {b r c}) := add_assoc _ _ _
      _ = cells b + (∑ c, {b r c} + {tile}) := congrArg (cells b + ·) hrow
      _ = ∑ c, {b r c} + (cells b + {tile}) := by ac_rfl
  exact add_left_cancel hcancel

theorem place_of_ne (b : Grid) {r r' : Fin 4} (h : r' ≠ r) (c : Fin 4) (tile : ℕ) :
    place b r c tile r' = b r' := Function.update_of_ne h _ _

/-- Placing a tile replaces one zero. -/
theorem cells_place {b : Grid} {r c : Fin 4} (h : b r c = 0) (tile : ℕ) :
    ∃ s, cells b = 0 ::ₘ s ∧ cells (place b r c tile) = tile ::ₘ s := by
  obtain ⟨s, hs⟩ := Multiset.exists_cons_of_mem (mem_cells.mpr ⟨r, c, h⟩)
  refine ⟨s, hs, ?_⟩
  have hadd := cells_place_add b r c tile
  rw [hs, h, ← Multiset.singleton_add 0 s, add_comm, add_assoc] at hadd
  rw [add_left_cancel hadd, ← Multiset.singleton_add, add_comm]

end OlinCourses.Game2048
