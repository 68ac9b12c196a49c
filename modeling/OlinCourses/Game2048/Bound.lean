import OlinCourses.Game2048.Accounts

/-!
# The largest tiles and the length of a game

The sixteen entries in descending order stay below descending powers of two. So their
sum is bounded, and with it the number of turns that change the board.
-/
namespace OlinCourses.Game2048
open Doubling
open scoped BigOperators

/-- The sixteen entries, the largest first. -/
def tilesDescending (b : Grid) : List ℕ :=
  ((List.finRange 4).flatMap fun r => List.ofFn (b r)).mergeSort fun s t => decide (t ≤ s)

theorem coe_tilesDescending (b : Grid) : (tilesDescending b : Multiset ℕ) = cells b := by
  rw [tilesDescending, Multiset.coe_eq_coe.mpr (List.mergeSort_perm _ _), cells_eq,
    Fin.sum_univ_four]
  simp [List.finRange_succ]

@[simp] theorem length_tilesDescending (b : Grid) : (tilesDescending b).length = 16 := by
  rw [← Multiset.coe_card, coe_tilesDescending, card_cells]

theorem pairwise_tilesDescending (b : Grid) : (tilesDescending b).Pairwise (· ≥ ·) :=
  List.pairwise_mergeSort' (· ≥ ·) _

section Bound

variable {c : ℕ} {g : Board}

theorem bounded_mergesTo {g' : Board} (h : Bounded 16 c (cells g.board)) (hg : MergesTo g g') :
    Bounded 16 c (cells g'.board) := by
  obtain ⟨points, hmerges, -⟩ := hg
  exact h.merges (card_cells _) hmerges

theorem Draw.tile_lt (draw : Draw) (hc : 2 ≤ c) : draw.tile < 2 ^ (c + 1) := by
  have hpow : 2 ^ 3 ≤ 2 ^ (c + 1) := Nat.pow_le_pow_right (by norm_num) (by omega)
  obtain h | h := draw.tile_eq <;> omega

theorem bounded_addRandomTile (h : Bounded 16 c (cells g.board)) (hc : 2 ≤ c) (draw : Draw) :
    Bounded 16 c (cells (addRandomTile g draw).board) := by
  obtain ⟨-, -, hboard⟩ | ⟨row, col, hcell, -, hboard⟩ := addRandomTile_cases g draw
  · rwa [hboard]
  · obtain ⟨s, hbefore, hafter⟩ := cells_place hcell draw.tile
    have hcard := card_cells g.board
    rw [hbefore] at h hcard
    rw [Multiset.card_cons] at hcard
    rw [hboard, hafter]
    exact h.replace_zero hcard (draw.tile_lt hc)

theorem bounded_next (h : Bounded 16 c (cells g.board)) (hc : 2 ≤ c) (turn : Turn) :
    Bounded 16 c (cells (g.next turn).board) := by
  have hmove := bounded_mergesTo h (move_mergesTo g turn.direction)
  rw [next_eq]
  split_ifs
  · exact bounded_addRandomTile hmove hc turn.draw
  · exact hmove

theorem bounded_play (h : Bounded 16 c (cells g.board)) (hc : 2 ≤ c) (turns : List Turn) :
    Bounded 16 c (cells (play g turns).board) := by
  induction turns generalizing g with
  | nil => exact h
  | cons turn turns ih => exact ih (bounded_next h hc turn)

theorem bounded_empty : Bounded 16 2 (cells fun _ _ => 0) := by
  refine Bounded.of_lt (card_cells _) fun t ht => ?_
  obtain ⟨r, c, rfl⟩ := mem_cells.mp ht
  norm_num

theorem bounded_newBoard (first second : Draw) :
    Bounded 16 2 (cells (newBoard first second).board) :=
  bounded_addRandomTile (bounded_addRandomTile (g := ⟨fun _ _ => 0, 0⟩) bounded_empty le_rfl first)
    le_rfl second

end Bound

/-- How many of the turns change the board. -/
def changes (g : Board) : List Turn → ℕ
  | [] => 0
  | turn :: turns =>
    (if (g.next turn).board = g.board then 0 else 1) + changes (g.next turn) turns

/-- The sum of the entries. -/
def total (g : Board) : ℕ := (cells g.board).sum

theorem total_move (g : Board) (direction : String) : total (move g direction).2 = total g := by
  obtain ⟨points, hmerges, -⟩ := move_mergesTo g direction
  exact hmerges.sum_eq

/-- A move that changes the board makes room for a random tile. -/
theorem total_next {g : Board} {turn : Turn} (hchanged : Moves g turn.direction) :
    total g + 2 ≤ total (g.next turn) := by
  have hmerge := total_move g turn.direction
  rw [show g.next turn = _ from next_of_moves hchanged turn.draw]
  obtain ⟨hfull, -, -⟩ | ⟨r, c, hcell, -, hboard⟩ :=
    addRandomTile_cases (move g turn.direction).2 turn.draw
  · exact absurd (move_board_eq hfull) hchanged
  · obtain ⟨s, hbefore, hafter⟩ := cells_place hcell turn.draw.tile
    unfold total at hmerge ⊢
    rw [hbefore, Multiset.sum_cons, zero_add] at hmerge
    rw [hboard, hafter, Multiset.sum_cons, hmerge]
    obtain htile | htile := turn.draw.tile_eq <;> omega

theorem next_board_ne_iff {g : Board} {turn : Turn} :
    (g.next turn).board ≠ g.board ↔ Moves g turn.direction := by
  constructor
  · intro hne hsame
    rw [next_eq, BoardOf.changed, if_neg (by simp [hsame])] at hne
    exact hne hsame
  · intro hchanged hsame
    have hstep := total_next hchanged
    rw [total, total, hsame] at hstep
    omega

theorem total_play (g : Board) (turns : List Turn) :
    total g + 2 * changes g turns ≤ total (play g turns) := by
  induction turns generalizing g with
  | nil => simp [changes]
  | cons turn turns ih =>
    have hrest := ih (g.next turn)
    rw [changes, play_cons]
    split_ifs with hsame
    · have htotal : total (g.next turn) = total g := by rw [total, hsame, total]
      omega
    · have hstep := total_next (next_board_ne_iff.mp hsame)
      omega

theorem changes_append (g : Board) (first second : List Turn) :
    changes g (first ++ second) = changes g first + changes (play g first) second := by
  induction first generalizing g with
  | nil => simp [changes]
  | cons turn first ih => rw [List.cons_append, changes, changes, ih, play_cons, Nat.add_assoc]

theorem total_newBoard (first second : Draw) : 4 ≤ total (newBoard first second) := by
  rw [total, (accounts_newBoard first second).sum]
  obtain h | h := first.tile_eq <;> obtain h' | h' := second.tile_eq <;> simp [h, h']

theorem IsTile.le_of_lt {t k : ℕ} (h : IsTile t) (hlt : t < 2 ^ (k + 1)) : t ≤ 2 ^ k := by
  obtain rfl | ⟨j, -, rfl⟩ := h
  · exact Nat.zero_le _
  · have hj : j < k + 1 := (Nat.pow_lt_pow_iff_right (by norm_num)).mp hlt
    exact Nat.pow_le_pow_right (by norm_num) (by omega)

theorem getElem_tilesDescending_le {g : Board} (htiles : ∀ t ∈ cells g.board, IsTile t)
    (hbound : Bounded 16 2 (cells g.board)) (i : ℕ) (hi : i < (tilesDescending g.board).length) :
    (tilesDescending g.board)[i] ≤ 2 ^ (17 - i) := by
  have hi' := hi
  rw [length_tilesDescending] at hi'
  rw [← coe_tilesDescending] at hbound htiles
  have hlt := hbound.getElem_lt (length_tilesDescending _) (pairwise_tilesDescending _) i hi
  rw [show 16 + 2 - i = 17 - i + 1 by omega] at hlt
  exact (htiles _ (Multiset.mem_coe.mpr (List.getElem_mem hi))).le_of_lt hlt

/-- Every board satisfies some bound. -/
theorem exists_bounded (g : Board) : ∃ c, 2 ≤ c ∧ Bounded 16 c (cells g.board) := by
  refine ⟨total g + 2, by omega, Bounded.of_lt (card_cells _) fun t ht => ?_⟩
  calc t ≤ total g := Multiset.le_sum_of_mem ht
    _ < 2 ^ total g := Nat.lt_two_pow_self
    _ ≤ 2 ^ (total g + 2 + 1) := Nat.pow_le_pow_right (by norm_num) (by omega)

theorem total_le_of_getElem_le {g : Board} {f : ℕ → ℕ}
    (h : ∀ i (hi : i < (tilesDescending g.board).length), (tilesDescending g.board)[i] ≤ f i) :
    total g ≤ ∑ i ∈ Finset.range 16, f i := by
  calc total g = (tilesDescending g.board).sum := by
        rw [total, ← coe_tilesDescending, Multiset.sum_coe]
    _ ≤ ∑ i ∈ Finset.range (tilesDescending g.board).length, f i := sum_le_of_getElem_le h
    _ = ∑ i ∈ Finset.range 16, f i := by rw [length_tilesDescending]

theorem total_le_of_bounded {c : ℕ} {g : Board} (h : Bounded 16 c (cells g.board)) :
    total g ≤ ∑ i ∈ Finset.range 16, 2 ^ (16 + c - i) := by
  rw [← coe_tilesDescending] at h
  exact total_le_of_getElem_le fun i hi =>
    (h.getElem_lt (length_tilesDescending _) (pairwise_tilesDescending _) i hi).le

theorem total_le {g : Board} (htiles : ∀ t ∈ cells g.board, IsTile t)
    (hbound : Bounded 16 2 (cells g.board)) : total g ≤ 262140 := by
  have hsum : ∑ i ∈ Finset.range 16, 2 ^ (17 - i) = 262140 := by decide
  rw [← hsum]
  exact total_le_of_getElem_le (getElem_tilesDescending_le htiles hbound)

theorem total_play_le (first second : Draw) (turns : List Turn) :
    total (play (newBoard first second) turns) ≤ 262140 :=
  total_le ((accounts_newBoard first second).play turns).tiles
    (bounded_play (bounded_newBoard first second) le_rfl turns)

/-- In every game from `Board()` the entry in place `i` (from 0) of the descending order
is at most `2 ^ (17 - i)`, so no tile exceeds 131072, and at most 131068 turns change
the board. -/
theorem game_bounded (first second : Draw) (turns : List Turn) :
    let g := play (newBoard first second) turns
    (∀ i : Fin 16, (tilesDescending g.board).getD i 0 ≤ 2 ^ (17 - i.val)) ∧
      (∀ r c, g.board r c ≤ 131072) ∧
      changes (newBoard first second) turns ≤ 131068 := by
  intro g
  have htiles := ((accounts_newBoard first second).play turns).tiles
  have hbound : Bounded 16 2 (cells g.board) :=
    bounded_play (bounded_newBoard first second) le_rfl turns
  have hplace := getElem_tilesDescending_le htiles hbound
  refine ⟨fun i => ?_, fun r c => ?_, ?_⟩
  · have hi : i.val < (tilesDescending g.board).length := by
      rw [length_tilesDescending]
      exact i.isLt
    rw [List.getD_eq_getElem?_getD, List.getElem?_eq_getElem hi, Option.getD_some]
    exact hplace i hi
  · have hmem : g.board r c ∈ tilesDescending g.board := by
      rw [← Multiset.mem_coe, coe_tilesDescending]
      exact mem_cells.mpr ⟨r, c, rfl⟩
    obtain ⟨i, hi, hentry⟩ := List.mem_iff_getElem.mp hmem
    rw [← hentry]
    calc (tilesDescending g.board)[i] ≤ 2 ^ (17 - i) := hplace i hi
      _ ≤ 2 ^ 17 := Nat.pow_le_pow_right (by norm_num) (by omega)
      _ = 131072 := by norm_num
  · have hstart := total_newBoard first second
    have hplay := total_play (newBoard first second) turns
    have hend : total g ≤ 262140 := total_le htiles hbound
    change _ ≤ total g at hplay
    omega

end OlinCourses.Game2048
