import OlinCourses.Game2048.Rows

/-!
# Moves that change nothing

When a row, and with it a board, is left as it is by a move; any other move is followed by a
random tile. A board with a tile has a valid move exactly when one of the four directions
changes it, as long as no tile is changed by a float64 row.
-/
namespace OlinCourses.Game2048

/-- `['w', 'a', 's', 'd']`. -/
def directions : List String := ["w", "a", "s", "d"]

section Moves

variable {α : Type} [DecidableEq α] [OfNat α 0] [OfNat α 2] [Add α] [Mul α] [ViaFloat α]

/-- Whether a direction changes the board. -/
def Moves (g : BoardOf α) (direction : String) : Prop := (move g direction).2.board ≠ g.board

instance (g : BoardOf α) (direction : String) : Decidable (Moves g direction) :=
  inferInstanceAs (Decidable (_ ≠ _))

/-- A board that none of the four directions changes. -/
theorem forall_not_moves (g : BoardOf α) :
    (∀ d ∈ directions, ¬ Moves g d) ↔
      (upPressed g).board = g.board ∧ (leftPressed g).board = g.board ∧
        (downPressed g).board = g.board ∧ (rightPressed g).board = g.board := by
  simp [directions, Moves, move]

omit [DecidableEq α] [OfNat α 0] [OfNat α 2] [Add α] [Mul α] [ViaFloat α] in
theorem transpose_board_eq {g g' : BoardOf α} :
    (transpose g').board = g.board ↔ g'.board = (transpose g).board := by
  constructor
  · exact fun h => funext fun r => funext fun c => congrFun (congrFun h c) r
  · exact fun h => funext fun r => funext fun c => congrFun (congrFun h c) r

variable [LawfulCells α]

theorem leftPressed_board_eq (g : BoardOf α) :
    (leftPressed g).board = g.board ↔ ∀ r, Stable (List.ofFn (g.board r)) := by
  rw [leftPressed_eq_shiftRow, funext_iff]
  exact forall_congr' fun r => toRow_eq_iff (length_shiftRow _ List.length_ofFn)

theorem rightPressed_board_eq (g : BoardOf α) :
    (rightPressed g).board = g.board ↔ ∀ r, Stable (List.ofFn (g.board r)).reverse := by
  rw [rightPressed_eq_shiftRow, funext_iff]
  refine forall_congr' fun r => ?_
  have hlen := length_shiftRow (List.ofFn (g.board r)).reverse (by simp)
  rw [toRow_eq_iff (by rw [List.length_reverse, hlen]), Stable, List.reverse_eq_iff]

theorem upPressed_board_eq (g : BoardOf α) :
    (upPressed g).board = g.board ↔ ∀ c, Stable (List.ofFn fun r => g.board r c) :=
  transpose_board_eq.trans (leftPressed_board_eq (transpose g))

theorem downPressed_board_eq (g : BoardOf α) :
    (downPressed g).board = g.board ↔ ∀ c, Stable (List.ofFn fun r => g.board r c).reverse :=
  transpose_board_eq.trans (rightPressed_board_eq (transpose g))

end Moves

section Turns

variable {α : Type} [DecidableEq α] [OfNat α 0] [OfNat α 2] [OfNat α 4] [Add α] [Mul α]
  [ViaFloat α]

/-- A turn is a move, followed by a random tile if the move changed the board. -/
theorem next_eq (g : BoardOf α) (turn : Turn) :
    g.next turn = if g.changed turn then addRandomTile (move g turn.direction).2 turn.draw
      else (move g turn.direction).2 := by
  unfold BoardOf.next playTurn BoardOf.changed
  by_cases hmoved : (move g turn.direction).1 = true
  · simp [hmoved]
  · have hsame : (move g turn.direction).2 = g := by
      unfold move at hmoved ⊢
      split_ifs at hmoved ⊢ <;> simp_all
    simp [hmoved, hsame]

theorem next_of_moves {g : BoardOf α} {direction : String} (h : Moves g direction) (draw : Draw) :
    g.next ⟨direction, draw⟩ = addRandomTile (move g direction).2 draw := by
  have hne : g.board ≠ (move g direction).2.board := Ne.symm h
  rw [next_eq, BoardOf.changed, if_pos (decide_eq_true hne)]

end Turns

section ValidMoves

variable {α : Type} [DecidableEq α] [OfNat α 0]

omit [DecidableEq α] [OfNat α 0] in
theorem isChain_ofFn_ne {f : Fin 4 → α} :
    (List.ofFn f).IsChain (· ≠ ·) ↔ ∀ c, 0 < c → f c ≠ f (c - 1) := by
  rw [List.isChain_ofFn]
  constructor
  · intro h c hc
    have hc' : (c - 1).val + 1 = c.val := by omega
    have hne := h (c - 1).val (by omega)
    simp only [hc'] at hne
    exact hne.symm
  · intro h c hc
    have hne := h ⟨c + 1, hc⟩ (by simp [Fin.lt_def])
    have hpred : (⟨c + 1, hc⟩ : Fin 4) - 1 = ⟨c, by omega⟩ := by
      apply Fin.ext
      rw [Fin.sub_def]
      simp
      omega
    rw [hpred] at hne
    exact hne.symm

omit [DecidableEq α] [OfNat α 0] in
theorem isChain_ne_reverse {row : List α} :
    row.reverse.IsChain (· ≠ ·) ↔ row.IsChain (· ≠ ·) := by
  rw [List.isChain_reverse]
  simp only [ne_comm]

/-- No blank cell, and no two equal neighbours in a column or a row. -/
theorem hasValidMoves_eq_false (g : BoardOf α) :
    hasValidMoves g = false ↔ (∀ r c, g.board r c ≠ 0) ∧
      (∀ c, (List.ofFn fun r => g.board r c).IsChain (· ≠ ·)) ∧
      ∀ r, (List.ofFn (g.board r)).IsChain (· ≠ ·) := by
  simp only [isChain_ofFn_ne]
  rw [hasValidMoves, Bool.or_eq_false_iff, decide_eq_false_iff_not, decide_eq_false_iff_not]
  push Not
  constructor
  · exact fun ⟨hfull, hadj⟩ =>
      ⟨hfull, fun c r => (hadj r c).1, fun r c => (hadj r c).2⟩
  · exact fun ⟨hfull, hcol, hrow⟩ =>
      ⟨hfull, fun r c => ⟨hcol c r, hrow r c⟩⟩

omit [DecidableEq α] in
theorem zero_notMem_ofFn {f : Fin 4 → α} (h : ∀ i, f i ≠ 0) : 0 ∉ List.ofFn f := by
  intro hzero
  obtain ⟨i, hi⟩ := List.mem_ofFn.mp hzero
  exact h i hi

omit [DecidableEq α] in
theorem zero_notMem_of_toRow {row : List α} (hrow : row.length = 4) (h : ∀ c, toRow row c ≠ 0) :
    0 ∉ row := by
  rw [← ofFn_toRow row hrow]
  exact zero_notMem_ofFn h

variable [Add α] [ViaFloat α]

omit [DecidableEq α] [OfNat α 0] [Add α] in
theorem map_viaFloat_ofFn {f : Fin 4 → α} :
    (List.ofFn f).map viaFloat = List.ofFn f ↔ ∀ i, viaFloat (f i) = f i := by
  rw [List.map_ofFn, List.ofFn_inj, funext_iff]
  rfl

/-- A full line that neither direction changes. -/
theorem stable_ofFn_iff {f : Fin 4 → α} (hfull : ∀ i, f i ≠ 0) :
    Stable (List.ofFn f) ∧ Stable (List.ofFn f).reverse ↔
      (List.ofFn f).IsChain (· ≠ ·) ∧ ∀ i, viaFloat (f i) = f i := by
  have hzero := zero_notMem_ofFn hfull
  rw [stable_iff_of_zero_notMem List.length_ofFn hzero,
    stable_iff_of_zero_notMem (by simp) (by rwa [List.mem_reverse]), isChain_ne_reverse,
    List.map_reverse, List.reverse_inj, map_viaFloat_ofFn, and_self_iff]

variable [OfNat α 2] [Mul α] [LawfulCells α]

/-- The board that no direction changes: there is no valid move, and no tile that a float64
row changes. -/
theorem forall_not_moves_iff {g : BoardOf α} (htile : ∃ r c, g.board r c ≠ 0) :
    (∀ d ∈ directions, ¬ Moves g d) ↔
      hasValidMoves g = false ∧ ∀ r c, viaFloat (g.board r c) = g.board r c := by
  rw [hasValidMoves_eq_false, forall_not_moves, upPressed_board_eq, leftPressed_board_eq,
    downPressed_board_eq, rightPressed_board_eq]
  constructor
  · intro ⟨hup, hleft, hdown, hright⟩
    have hfull : ∀ r c, g.board r c ≠ 0 := by
      intro r c hblank
      obtain ⟨r', c', htile⟩ := htile
      -- the row of the blank is blank, and so is every column through it
      have hrow := (hleft r).eq_zero List.length_ofFn (hright r) (List.mem_ofFn.mpr ⟨c, hblank⟩)
      have hcross : g.board r c' = 0 := hrow _ (List.mem_ofFn.mpr ⟨c', rfl⟩)
      have hcol := (hup c').eq_zero List.length_ofFn (hdown c') (List.mem_ofFn.mpr ⟨r, hcross⟩)
      exact htile (hcol _ (List.mem_ofFn.mpr ⟨r', rfl⟩))
    have hrows := fun r => (stable_ofFn_iff (hfull r)).mp ⟨hleft r, hright r⟩
    have hcols := fun c => (stable_ofFn_iff fun r => hfull r c).mp ⟨hup c, hdown c⟩
    exact ⟨⟨hfull, fun c => (hcols c).1, fun r => (hrows r).1⟩, fun r => (hrows r).2⟩
  · intro ⟨⟨hfull, hcol, hrow⟩, hfloat⟩
    have hrows := fun r => (stable_ofFn_iff (hfull r)).mpr ⟨hrow r, hfloat r⟩
    have hcols := fun c => (stable_ofFn_iff fun r => hfull r c).mpr ⟨hcol c, fun r => hfloat r c⟩
    exact ⟨fun c => (hcols c).1, fun r => (hrows r).1, fun c => (hcols c).2, fun r => (hrows r).2⟩

/-- On a full board without equal neighbours in a row nothing is merged. -/
theorem leftPressed_of_isChain {g : BoardOf α} (hfull : ∀ r c, g.board r c ≠ 0)
    (hchain : ∀ r, (List.ofFn (g.board r)).IsChain (· ≠ ·)) :
    (leftPressed g).board = fun r c => viaFloat (g.board r c) := by
  rw [leftPressed_eq_shiftRow]
  funext r
  rw [toRow_eq_iff (length_shiftRow _ List.length_ofFn),
    shiftRow_of_isChain List.length_ofFn (zero_notMem_ofFn (hfull r)) (hchain r), List.map_ofFn]
  rfl

theorem leftPressed_full {g : BoardOf α} (h : ∀ r c, (leftPressed g).board r c ≠ 0) :
    (∀ r c, g.board r c ≠ 0) ∧ (leftPressed g).board = fun r c => viaFloat (g.board r c) := by
  rw [leftPressed_eq_shiftRow] at h ⊢
  have hrow := fun r => shiftRow_of_zero_notMem List.length_ofFn
    (zero_notMem_of_toRow (length_shiftRow _ List.length_ofFn) (h r))
  refine ⟨fun r c hzero => (hrow r).1 (List.mem_ofFn.mpr ⟨c, hzero⟩), funext fun r => ?_⟩
  rw [toRow_eq_iff (length_shiftRow _ List.length_ofFn), (hrow r).2, List.map_ofFn]
  rfl

theorem rightPressed_full {g : BoardOf α} (h : ∀ r c, (rightPressed g).board r c ≠ 0) :
    (∀ r c, g.board r c ≠ 0) ∧ (rightPressed g).board = fun r c => viaFloat (g.board r c) := by
  rw [rightPressed_eq_shiftRow] at h ⊢
  have hlen : ∀ r, (List.ofFn (g.board r)).reverse.length = 4 := by simp
  have hlen' : ∀ r, (shiftRow (List.ofFn (g.board r)).reverse).1.reverse.length = 4 := by
    intro r
    rw [List.length_reverse, length_shiftRow _ (hlen r)]
  have hrow := fun r => shiftRow_of_zero_notMem (hlen r)
    (List.mem_reverse.not.mp (zero_notMem_of_toRow (hlen' r) (h r)))
  refine ⟨fun r c hzero => (hrow r).1 (List.mem_reverse.mpr (List.mem_ofFn.mpr ⟨c, hzero⟩)),
    funext fun r => ?_⟩
  rw [toRow_eq_iff (hlen' r), (hrow r).2, List.map_reverse, List.reverse_reverse, List.map_ofFn]
  rfl

/-- A move that changes the board and leaves no blank cell has found a full board, of which it
changes nothing but what the float64 rows do. -/
theorem Moves.full {g : BoardOf α} {direction : String} (h : Moves g direction)
    (hfull : ∀ r c, (move g direction).2.board r c ≠ 0) :
    (∀ r c, g.board r c ≠ 0) ∧
      (move g direction).2.board = fun r c => viaFloat (g.board r c) := by
  unfold Moves at h
  unfold move at h hfull ⊢
  split_ifs at h hfull ⊢
  · obtain ⟨hg, hboard⟩ := leftPressed_full fun r c => hfull c r
    exact ⟨fun r c => hg c r, funext fun r => funext fun c => congrFun (congrFun hboard c) r⟩
  · exact leftPressed_full hfull
  · obtain ⟨hg, hboard⟩ := rightPressed_full fun r c => hfull c r
    exact ⟨fun r c => hg c r, funext fun r => funext fun c => congrFun (congrFun hboard c) r⟩
  · exact rightPressed_full hfull
  · exact absurd rfl h

end ValidMoves

/-- On a board with a tile, `has_valid_moves` tells whether some direction changes it. -/
theorem hasValidMoves_eq_false_iff {g : Board} (htile : ∃ r c, g.board r c ≠ 0) :
    hasValidMoves g = false ↔ ∀ d ∈ directions, ¬ Moves g d := by
  have hfloat : ∀ r c, viaFloat (g.board r c) = g.board r c := fun r c => rfl
  rw [forall_not_moves_iff htile, and_iff_left hfloat]

/-- A move that leaves no blank cell has changed nothing. -/
theorem move_board_eq {g : Board} {direction : String}
    (hfull : ∀ r c, (move g direction).2.board r c ≠ 0) :
    (move g direction).2.board = g.board := by
  by_contra hmoves
  exact hmoves (Moves.full hmoves hfull).2

end OlinCourses.Game2048
