import OlinCourses.Game2048.Moves
import OlinCourses.Game2048.Symmetry
import OlinCourses.Game2048.Tiles

/-!
# One turn

A move that changes the board leaves room for the random tile, unless all it changes is what
the float64 rows do to a full board. One that does not change the board leaves the score as
well.
-/
namespace OlinCourses.Game2048

section Unchanged

variable {α : Type} [DecidableEq α] [OfNat α 0] [OfNat α 2] [Add α] [Mul α] [ViaFloat α]
  [LawfulCells α]

theorem leftPressed_eq_self {g : BoardOf α} (h : (leftPressed g).board = g.board) :
    leftPressed g = g := by
  have hpoints : ∀ r, (shiftRow (List.ofFn (g.board r))).2 = 0 :=
    fun r => ((leftPressed_board_eq g).mp h r).points_eq_zero List.length_ofFn
  have hscore : (leftPressed g).score = g.score := by
    rw [leftPressed_eq_shiftRow]
    simp only [hpoints, LawfulCells.add_zero, List.foldl_fixed]
  calc leftPressed g = ⟨(leftPressed g).board, (leftPressed g).score⟩ := rfl
    _ = g := by rw [h, hscore]

omit [DecidableEq α] [OfNat α 0] [OfNat α 2] [Add α] [Mul α] [ViaFloat α] [LawfulCells α] in
theorem mirror_board_eq {g g' : BoardOf α} :
    (mirror g').board = g.board ↔ g'.board = (mirror g).board := by
  constructor
  · intro h
    funext r c
    rw [mirror_board, ← h, mirror_board, Fin.rev_rev]
  · intro h
    funext r c
    rw [mirror_board, h, mirror_board, Fin.rev_rev]

theorem rightPressed_eq_self {g : BoardOf α} (h : (rightPressed g).board = g.board) :
    rightPressed g = g := by
  rw [rightPressed_eq, mirror_board_eq] at h
  rw [rightPressed_eq, leftPressed_eq_self h, mirror_mirror]

theorem upPressed_eq_self {g : BoardOf α} (h : (upPressed g).board = g.board) :
    upPressed g = g := by
  rw [upPressed, transpose_board_eq] at h
  rw [upPressed, leftPressed_eq_self h, transpose_transpose]

theorem downPressed_eq_self {g : BoardOf α} (h : (downPressed g).board = g.board) :
    downPressed g = g := by
  rw [downPressed, transpose_board_eq] at h
  rw [downPressed, rightPressed_eq_self h, transpose_transpose]

theorem move_eq_self {g : BoardOf α} {direction : String} (h : ¬ Moves g direction) :
    (move g direction).2 = g := by
  rw [Moves, not_not] at h
  exact move_cases (P := fun g' => g'.board = g.board → g' = g) g direction upPressed_eq_self
    leftPressed_eq_self downPressed_eq_self rightPressed_eq_self (fun _ => rfl) h

end Unchanged

section Spawns

variable {α : Type} [DecidableEq α] [OfNat α 0] [OfNat α 2] [OfNat α 4]

/-- One blank cell of `g` holds a 2 or a 4 in `g'`, and the rest is the same. -/
def SpawnsOne (g g' : BoardOf α) : Prop :=
  ∃ r c, g.board r c = 0 ∧ (g'.board r c = 2 ∨ g'.board r c = 4) ∧
    (∀ r' c', ¬ (r' = r ∧ c' = c) → g'.board r' c' = g.board r' c') ∧ g'.score = g.score

omit [DecidableEq α] [OfNat α 0] [OfNat α 2] [OfNat α 4] in
theorem place_self (b : GridOf α) (r c : Fin 4) (tile : α) : place b r c tile r c = tile := by
  rw [place, Function.update_self, Function.update_self]

omit [DecidableEq α] [OfNat α 0] [OfNat α 2] [OfNat α 4] in
theorem place_of_not (b : GridOf α) {r r' c c' : Fin 4} (h : ¬ (r' = r ∧ c' = c)) (tile : α) :
    place b r c tile r' c' = b r' c' := by
  by_cases hr : r' = r
  · subst hr
    rw [place, Function.update_self, Function.update_of_ne fun hc => h ⟨rfl, hc⟩]
  · rw [place, Function.update_of_ne hr]

theorem addRandomTile_spawnsOne {g : BoardOf α} (hblank : ∃ r c, g.board r c = 0) (draw : Draw) :
    SpawnsOne g (addRandomTile g draw) := by
  obtain ⟨hnil, -⟩ | ⟨r, c, hcell, hplace⟩ := addRandomTile_eq g draw
  · obtain ⟨r, c, hcell⟩ := hblank
    exact absurd hcell (emptyTiles_eq_nil.mp hnil r c)
  · have hboard : (addRandomTile g draw).board = place g.board r c (draw.tileOf α) := by
      rw [hplace]
    refine ⟨r, c, hcell, ?_, ?_, ?_⟩
    · rw [hboard, place_self, Draw.tileOf]
      split_ifs
      · exact Or.inl rfl
      · exact Or.inr rfl
    · intro r' c' hother
      rw [hboard, place_of_not _ hother]
    · rw [hplace]

theorem addRandomTile_of_full {g : BoardOf α} (hfull : ∀ r c, g.board r c ≠ 0) (draw : Draw) :
    addRandomTile g draw = g := by
  obtain ⟨-, hboard⟩ | ⟨r, c, hcell, -⟩ := addRandomTile_eq g draw
  · exact hboard
  · exact absurd hcell (hfull r c)

variable [Add α] [Mul α] [ViaFloat α]

theorem playTurn_of_unknown {direction : String} (hunknown : direction ∉ directions)
    (g : BoardOf α) (draw : Draw) : playTurn g direction draw = (false, g) := by
  simp only [directions, List.mem_cons, List.not_mem_nil, or_false, not_or] at hunknown
  obtain ⟨hw, ha, hs, hd⟩ := hunknown
  simp [playTurn, move, hw, ha, hs, hd]

theorem next_eq_self [LawfulCells α] {g : BoardOf α} {direction : String}
    (h : ¬ Moves g direction) (draw : Draw) : g.next ⟨direction, draw⟩ = g := by
  have hsame := move_eq_self h
  rw [next_eq, BoardOf.changed, hsame, if_neg (by simp)]

end Spawns

end OlinCourses.Game2048
