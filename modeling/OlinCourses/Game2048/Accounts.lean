import OlinCourses.Game2048.Moves
import OlinCourses.Game2048.Tiles

/-!
# Tiles, sum and score of a game

Every game keeps the books: its tiles are powers of two, their sum is what was
spawned, and the score is what the merges have paid.
-/
namespace OlinCourses.Game2048
open Doubling
open scoped BigOperators

theorem randomTile_of_blank {g : Board} {r c : Fin 4} (h : g.board r c = 0) (draw : Draw) :
    randomTile g draw = [draw.tile] := by
  obtain ⟨hfull, -, -⟩ | ⟨-, -, -, htile, -⟩ := addRandomTile_cases g draw
  · exact absurd h (hfull r c)
  · exact htile

/-- After the first tile of a game a blank cell is left. -/
theorem exists_blank (first : Draw) :
    ∃ r c, (addRandomTile ⟨fun _ _ => 0, 0⟩ first).board r c = 0 := by
  obtain ⟨-, -, hboard⟩ | ⟨r, c, hcell, -, hboard⟩ :=
    addRandomTile_cases ⟨fun _ _ => 0, 0⟩ first
  · rw [hboard]
    exact ⟨0, 0, rfl⟩
  · refine ⟨r + 1, c, ?_⟩
    have hne : r + 1 ≠ r := by omega
    rw [hboard]
    exact congrFun (place_of_ne _ hne c first.tile) c

/-- An invariant of a board and the tiles spawned so far, kept by merges and by a random tile. -/
structure KeptByTurns (P : Board → List ℕ → Prop) : Prop where
  mergesTo {g g' : Board} {spawned : List ℕ} (h : P g spawned) (hg : MergesTo g g') : P g' spawned
  addRandomTile {g : Board} {spawned : List ℕ} (h : P g spawned) (draw : Draw) :
    P (addRandomTile g draw) (spawned ++ randomTile g draw)

namespace KeptByTurns

variable {P : Board → List ℕ → Prop} (hP : KeptByTurns P) {g : Board} {spawned : List ℕ}

include hP

theorem next (h : P g spawned) (turn : Turn) : P (g.next turn) (spawned ++ g.spawned turn) := by
  have hmove := hP.mergesTo h (move_mergesTo g turn.direction)
  rw [next_eq, BoardOf.spawned]
  split_ifs
  · exact hP.addRandomTile hmove turn.draw
  · rwa [List.append_nil]

theorem play (h : P g spawned) (turns : List Turn) :
    P (play g turns) (spawned ++ spawns g turns) := by
  induction turns generalizing g spawned with
  | nil => simpa [spawns, Game2048.play] using h
  | cons turn turns ih =>
    rw [spawns, ← List.append_assoc]
    exact ih (hP.next h turn)

theorem newBoard (hempty : P ⟨fun _ _ => 0, 0⟩ []) (first second : Draw) :
    P (newBoard first second) [first.tile, second.tile] := by
  obtain ⟨r, c, hblank⟩ := exists_blank first
  have h := hP.addRandomTile (hP.addRandomTile hempty first) second
  rwa [randomTile_of_blank (r := 0) (c := 0) rfl, randomTile_of_blank hblank] at h

end KeptByTurns

/-- An entry of a board: blank, or a power of two that is at least 2. -/
def IsTile (t : ℕ) : Prop := t = 0 ∨ ∃ k, 1 ≤ k ∧ t = 2 ^ k

/-- The points that building a tile out of 2-tiles pays. -/
def potential (t : ℕ) : ℕ := t * (Nat.log2 t - 1)

theorem IsTile.double {t : ℕ} (h : IsTile t) : IsTile (2 * t) := by
  obtain rfl | ⟨k, hk, rfl⟩ := h
  · exact Or.inl rfl
  · exact Or.inr ⟨k + 1, by omega, by ring⟩

theorem IsTile.potential_double {t : ℕ} (h : IsTile t) :
    potential (2 * t) = 2 * potential t + 1 * (2 * t) := by
  obtain rfl | ⟨k, hk, rfl⟩ := h
  · rfl
  · obtain ⟨j, rfl⟩ : ∃ j, k = j + 1 := ⟨k - 1, by omega⟩
    have hdouble : 2 * 2 ^ (j + 1) = 2 ^ (j + 2) := by ring
    rw [hdouble, potential, potential, Nat.log2_two_pow, Nat.log2_two_pow]
    simp only [Nat.add_sub_cancel, show j + 2 - 1 = j + 1 by omega]
    ring

theorem Draw.tile_eq (draw : Draw) : draw.tile = 2 ∨ draw.tile = 4 := by
  unfold Draw.tile Draw.tileOf
  split_ifs
  · exact Or.inl rfl
  · exact Or.inr rfl

theorem Draw.isTile (draw : Draw) : IsTile draw.tile := by
  obtain h | h := draw.tile_eq
  · exact Or.inr ⟨1, le_refl 1, h⟩
  · exact Or.inr ⟨2, by norm_num, h⟩

/-- The books of a game in which the tiles `spawned` have appeared. -/
structure Accounts (g : Board) (spawned : List ℕ) : Prop where
  tiles : ∀ t ∈ cells g.board, IsTile t
  sum : (cells g.board).sum = 2 * spawned.count 2 + 4 * spawned.count 4
  score : g.score + 4 * spawned.count 4 = ((cells g.board).map potential).sum

namespace Accounts

variable {g : Board} {spawned : List ℕ}

/-- Merging pays the points that the potential gains. -/
theorem mergesTo {g' : Board} (h : Accounts g spawned) (hg : MergesTo g g') :
    Accounts g' spawned := by
  obtain ⟨points, hmerges, hscore⟩ := hg
  have hpotential := hmerges.weight_eq (Or.inl rfl) rfl
    (fun t ht => IsTile.potential_double ht) h.tiles
  refine ⟨hmerges.forall_mem (Or.inl rfl) (fun t ht => ht.double) h.tiles, ?_, ?_⟩
  · rw [hmerges.sum_eq, h.sum]
  · rw [hpotential, hscore, ← h.score]
    omega

/-- Placing a tile on a blank cell. -/
theorem place {r c : Fin 4} (h : Accounts g spawned) (hcell : g.board r c = 0) (draw : Draw) :
    Accounts { g with board := place g.board r c draw.tile } (spawned ++ [draw.tile]) := by
  obtain ⟨s, hbefore, hafter⟩ := cells_place hcell draw.tile
  obtain ⟨htiles, hsum, hscore⟩ := h
  rw [hbefore] at htiles hsum hscore
  rw [Multiset.forall_mem_cons] at htiles
  rw [Multiset.sum_cons, zero_add] at hsum
  rw [Multiset.map_cons, Multiset.sum_cons, show potential 0 = 0 from rfl, zero_add] at hscore
  refine ⟨?_, ?_, ?_⟩
  · rw [hafter, Multiset.forall_mem_cons]
    exact ⟨draw.isTile, htiles.2⟩
  · rw [hafter, Multiset.sum_cons, hsum, List.count_append, List.count_append]
    obtain htile | htile := draw.tile_eq <;> simp [htile] <;> omega
  · rw [hafter, Multiset.map_cons, Multiset.sum_cons, ← hscore, List.count_append]
    obtain htile | htile := draw.tile_eq
    · simp [htile, show potential 2 = 0 by decide]
    · simp only [htile, show potential 4 = 4 by decide, List.count_singleton_self]
      omega

theorem addRandomTile (h : Accounts g spawned) (draw : Draw) :
    Accounts (addRandomTile g draw) (spawned ++ randomTile g draw) := by
  obtain ⟨-, htile, hboard⟩ | ⟨r, c, hcell, htile, hboard⟩ := addRandomTile_cases g draw
  · rw [htile, hboard, List.append_nil]
    exact h
  · rw [htile, hboard]
    exact h.place hcell draw

end Accounts

theorem accounts_empty : Accounts ⟨fun _ _ => 0, 0⟩ [] where
  tiles t ht := by
    obtain ⟨r, c, rfl⟩ := mem_cells.mp ht
    exact Or.inl rfl
  sum := by
    rw [← Multiset.map_id' (cells _), sum_map_cells]
    simp
  score := by simp [sum_map_cells, potential]

theorem keptByTurns_accounts : KeptByTurns Accounts := ⟨Accounts.mergesTo, Accounts.addRandomTile⟩

theorem Accounts.play {g : Board} {spawned : List ℕ} (h : Accounts g spawned) (turns : List Turn) :
    Accounts (play g turns) (spawned ++ spawns g turns) := keptByTurns_accounts.play h turns

theorem accounts_newBoard (first second : Draw) :
    Accounts (newBoard first second) [first.tile, second.tile] :=
  keptByTurns_accounts.newBoard accounts_empty first second

/-- In every game from `Board()`, whatever the directions and the random outcomes: each
entry is blank or a power of two from 2 on; with `n2` and `n4` the numbers of 2-tiles
and 4-tiles spawned, the entries sum to `2 * n2 + 4 * n4`, and `score + 4 * n4` is the
sum of `t * (log2 t - 1)` over the tiles `t`. -/
theorem game_accounts (first second : Draw) (turns : List Turn) :
    let g := play (newBoard first second) turns
    let spawned := first.tile :: second.tile :: spawns (newBoard first second) turns
    (∀ r c, g.board r c = 0 ∨ ∃ k, 1 ≤ k ∧ g.board r c = 2 ^ k) ∧
      ∑ r, ∑ c, g.board r c = 2 * spawned.count 2 + 4 * spawned.count 4 ∧
      g.score + 4 * spawned.count 4 =
        ∑ r, ∑ c, g.board r c * (Nat.log2 (g.board r c) - 1) := by
  intro g spawned
  have h : Accounts g spawned := (accounts_newBoard first second).play turns
  refine ⟨fun r c => h.tiles _ (mem_cells.mpr ⟨r, c, rfl⟩), ?_, ?_⟩
  · rw [← h.sum, ← sum_map_cells (fun t => t), Multiset.map_id']
  · rw [h.score, sum_map_cells]
    rfl

end OlinCourses.Game2048
