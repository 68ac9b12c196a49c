import OlinCourses.Game2048.Bound

/-!
# The largest score

A level of the board is full if as many tiles reach it as ever can. Only a spawned 4 fills
a level, and a merge that fills the next level empties the one below. So a game that comes
close to the largest tiles has seen as many 4-tiles, which pay nothing.
-/
namespace OlinCourses.Game2048
open Doubling
open scoped BigOperators

section Fours

variable {g : Board} {spawned : List ℕ}

/-- The books on full levels, beside the bound. -/
structure FullByFours (g : Board) (spawned : List ℕ) : Prop where
  bounded : Bounded 16 2 (cells g.board)
  full : (fullLevels 16 2 (cells g.board)).card ≤ spawned.count 4

theorem FullByFours.mergesTo {g' : Board} (h : FullByFours g spawned) (hg : MergesTo g g') :
    FullByFours g' spawned := by
  refine ⟨bounded_mergesTo h.bounded hg, ?_⟩
  obtain ⟨points, hmerges, -⟩ := hg
  exact (h.bounded.card_fullLevels_merges (card_cells _) (by decide) hmerges).trans h.full

theorem FullByFours.addRandomTile (h : FullByFours g spawned) (draw : Draw) :
    FullByFours (addRandomTile g draw) (spawned ++ randomTile g draw) := by
  refine ⟨bounded_addRandomTile h.bounded le_rfl draw, ?_⟩
  have hfull := h.full
  obtain ⟨-, htile, hboard⟩ | ⟨r, c, hcell, htile, hboard⟩ := addRandomTile_cases g draw
  · rwa [htile, hboard, List.append_nil]
  · obtain ⟨s, hbefore, hafter⟩ := cells_place hcell draw.tile
    rw [hbefore] at hfull
    rw [htile, hboard, hafter, List.count_append]
    obtain htwo | hfour := draw.tile_eq
    · rw [fullLevels_replace_zero s (by rw [htwo]; norm_num)]
      omega
    · have hnew : (fullLevels 16 2 (draw.tile ::ₘ s)).card ≤
          (fullLevels 16 2 (0 ::ₘ s)).card + 1 :=
        card_fullLevels_replace_zero s (draw.tile_lt le_rfl)
      rw [hfour] at hnew ⊢
      rw [List.count_singleton_self]
      omega

theorem keptByTurns_fullByFours : KeptByTurns FullByFours :=
  ⟨FullByFours.mergesTo, FullByFours.addRandomTile⟩

end Fours

theorem fullByFours_empty : FullByFours ⟨fun _ _ => 0, 0⟩ [] where
  bounded := bounded_empty
  full := by
    have hnone : fullLevels 16 2 (cells fun _ _ => 0) = ∅ := by
      ext k
      rw [mem_fullLevels]
      have hzero : atLeast k (cells fun _ _ => 0) = 0 := by
        rw [atLeast, Multiset.countP_eq_zero]
        intro t ht
        obtain ⟨r, c, rfl⟩ := mem_cells.mp ht
        exact (Nat.two_pow_pos k).not_ge
      rw [hzero]
      simp
      omega
    rw [hnone, Finset.card_empty]
    exact Nat.zero_le _

theorem fullByFours_play (first second : Draw) (turns : List Turn) :
    FullByFours (play (newBoard first second) turns)
      ([first.tile, second.tile] ++ spawns (newBoard first second) turns) :=
  keptByTurns_fullByFours.play
    (keptByTurns_fullByFours.newBoard fullByFours_empty first second) turns

/-- The places, from the largest tile on, that hold the largest tile they can. -/
def fullPlaces (b : Grid) : Finset ℕ :=
  (Finset.range 16).filter fun i => (tilesDescending b).getD i 0 = 2 ^ (17 - i)

theorem card_fullPlaces_le {g : Board} (hbound : Bounded 16 2 (cells g.board)) :
    (fullPlaces g.board).card ≤ (fullLevels 16 2 (cells g.board)).card := by
  rw [← coe_tilesDescending] at hbound ⊢
  apply Finset.card_le_card_of_injOn fun i => 17 - i
  · intro i hi
    obtain ⟨hrange, htile⟩ := Finset.mem_filter.mp hi
    rw [Finset.mem_range] at hrange
    have hlen : i < (tilesDescending g.board).length := by rwa [length_tilesDescending]
    rw [List.getD_eq_getElem?_getD, List.getElem?_eq_getElem hlen, Option.getD_some] at htile
    have hcount := lt_atLeast_of_le_getElem (pairwise_tilesDescending _) hlen htile.ge
    have hle := hbound (17 - i) (by omega)
    have hlevel : 2 ≤ 17 - i ∧ 17 - i < 16 + 2 := by omega
    have hfull : atLeast (17 - i) (tilesDescending g.board) = 16 + 2 - (17 - i) := by omega
    exact mem_fullLevels.mpr ⟨hlevel, hfull⟩
  · intro i hi j hj heq
    have hrange := Finset.mem_range.mp (Finset.mem_filter.mp hi).1
    have hrange' := Finset.mem_range.mp (Finset.mem_filter.mp hj).1
    dsimp only at heq
    omega

theorem potential_two_pow (k : ℕ) : potential (2 ^ k) = 2 ^ k * (k - 1) := by
  rw [potential, Nat.log2_two_pow]

/-- A tile that is not the largest pays at least 4 points less. -/
theorem IsTile.potential_add_le {t k : ℕ} (h : IsTile t) (hk : 2 ≤ k) (hlt : t < 2 ^ k) :
    potential t + 4 ≤ potential (2 ^ k) := by
  obtain ⟨m, rfl⟩ : ∃ m, k = m + 2 := ⟨k - 2, by omega⟩
  have hpow : 1 ≤ 2 ^ m := Nat.one_le_two_pow
  have hfull : potential (2 ^ (m + 2)) = 2 ^ (m + 1) * m + 2 ^ (m + 1) * (m + 2) := by
    rw [potential_two_pow]
    simp only [show m + 2 - 1 = m + 1 by omega]
    ring
  have hfour : 4 ≤ 2 ^ (m + 1) * (m + 2) := by
    rw [Nat.pow_succ]
    nlinarith
  obtain rfl | ⟨j, hj, rfl⟩ := h
  · rw [hfull, potential]
    omega
  · have hjk : j < m + 2 := (Nat.pow_lt_pow_iff_right (by norm_num)).mp hlt
    have hhalf : 2 ^ j * (j - 1) ≤ 2 ^ (m + 1) * m :=
      Nat.mul_le_mul (Nat.pow_le_pow_right (by norm_num) (by omega)) (by omega)
    rw [hfull, potential_two_pow]
    omega

/-- What the place pays at most. -/
def placePotential (b : Grid) (i : ℕ) : ℕ :=
  potential (2 ^ (17 - i)) - 4 + if i ∈ fullPlaces b then 4 else 0

theorem potential_getElem_le {g : Board} (htiles : ∀ t ∈ cells g.board, IsTile t)
    (hbound : Bounded 16 2 (cells g.board)) (i : ℕ) (hi : i < (tilesDescending g.board).length) :
    potential (tilesDescending g.board)[i] ≤ placePotential g.board i := by
  have hle := getElem_tilesDescending_le htiles hbound i hi
  have hmem : IsTile (tilesDescending g.board)[i] := by
    apply htiles
    rw [← coe_tilesDescending]
    exact Multiset.mem_coe.mpr (List.getElem_mem hi)
  have hi' := hi
  rw [length_tilesDescending] at hi'
  have hfull : i ∈ fullPlaces g.board ↔ (tilesDescending g.board)[i] = 2 ^ (17 - i) := by
    rw [fullPlaces, Finset.mem_filter, Finset.mem_range, List.getD_eq_getElem?_getD,
      List.getElem?_eq_getElem hi, Option.getD_some]
    exact and_iff_right hi'
  rw [placePotential]
  by_cases htile : (tilesDescending g.board)[i] = 2 ^ (17 - i)
  · rw [if_pos (hfull.mpr htile), htile]
    omega
  · rw [if_neg (mt hfull.mp htile)]
    have hless := hmem.potential_add_le (k := 17 - i) (by omega) (lt_of_le_of_ne hle htile)
    omega

theorem sum_potential_le {g : Board} (htiles : ∀ t ∈ cells g.board, IsTile t)
    (hbound : Bounded 16 2 (cells g.board)) :
    ((cells g.board).map potential).sum ≤ 3932100 + 4 * (fullPlaces g.board).card := by
  have hlevels : ∑ i ∈ Finset.range 16, (potential (2 ^ (17 - i)) - 4) = 3932100 := by decide
  have hfull : ∑ i ∈ Finset.range 16, (if i ∈ fullPlaces g.board then 4 else 0) =
      4 * (fullPlaces g.board).card := by
    rw [← Finset.sum_filter, Finset.sum_const, smul_eq_mul, Nat.mul_comm]
    congr 2
    ext i
    rw [Finset.mem_filter]
    exact and_iff_right_of_imp fun hi => (Finset.mem_filter.mp hi).1
  calc ((cells g.board).map potential).sum
      = ((tilesDescending g.board).map potential).sum := by
        rw [← coe_tilesDescending, Multiset.map_coe, Multiset.sum_coe]
    _ ≤ ∑ i ∈ Finset.range ((tilesDescending g.board).map potential).length,
          placePotential g.board i := by
        apply sum_le_of_getElem_le
        intro i hi
        rw [List.getElem_map]
        exact potential_getElem_le htiles hbound i (by simpa using hi)
    _ = 3932100 + 4 * (fullPlaces g.board).card := by
        rw [List.length_map, length_tilesDescending]
        simp only [placePotential]
        rw [Finset.sum_add_distrib, hlevels, hfull]

theorem card_fullPlaces_play_le (first second : Draw) (turns : List Turn) :
    (fullPlaces (play (newBoard first second) turns).board).card ≤
      (first.tile :: second.tile :: spawns (newBoard first second) turns).count 4 := by
  have hfours := fullByFours_play first second turns
  exact (card_fullPlaces_le hfours.bounded).trans hfours.full

theorem score_play_le (first second : Draw) (turns : List Turn) :
    (play (newBoard first second) turns).score ≤ 3932100 := by
  have haccounts := (accounts_newBoard first second).play turns
  have hplaces := card_fullPlaces_play_le first second turns
  have hsum := sum_potential_le haccounts.tiles (fullByFours_play first second turns).bounded
  have hscore : _ + 4 * (first.tile :: second.tile :: spawns (newBoard first second) turns).count 4
    = _ := haccounts.score
  omega

/-- In every game from `Board()`, whatever the directions and the random outcomes, the
score is at most 3,932,100; and as many 4-tiles have been spawned as there are places in
the descending order, from 131072 down to 4, that hold the largest tile they can. -/
theorem game_score_le (first second : Draw) (turns : List Turn) :
    (play (newBoard first second) turns).score ≤ 3932100 ∧
      (fullPlaces (play (newBoard first second) turns).board).card ≤
        (first.tile :: second.tile :: spawns (newBoard first second) turns).count 4 :=
  ⟨score_play_le first second turns, card_fullPlaces_play_le first second turns⟩

end OlinCourses.Game2048
