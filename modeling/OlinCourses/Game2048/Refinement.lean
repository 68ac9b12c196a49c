import Mathlib.Data.List.GetD
import OlinCourses.Game2048.Numpy
import OlinCourses.Game2048.Score

/-!
# Games on 64 bits

A game that starts with `Board()` never comes near the numbers at which a sum wraps around or
a float64 row loses a digit. So every game on 64 bits is the game on unbounded numbers.
-/
namespace OlinCourses.Game2048
open scoped BigOperators

/-- The board with its numbers on 64 bits. -/
def words (g : Board) : BoardOf Int64 :=
  ⟨fun r c => Int64.ofNat (g.board r c), Int64.ofNat g.score⟩

theorem ofNat_eq_iff {a b : ℕ} (ha : a < 2 ^ 63) (hb : b < 2 ^ 63) :
    Int64.ofNat a = Int64.ofNat b ↔ a = b := by
  rw [← Int64.toInt_inj, Int64.toInt_ofNat_of_lt ha, Int64.toInt_ofNat_of_lt hb, Nat.cast_inj]

theorem ofNat_eq_zero_iff {a : ℕ} (ha : a < 2 ^ 63) : Int64.ofNat a = 0 ↔ a = 0 :=
  ofNat_eq_iff ha (by norm_num)

theorem compact_map_ofNat {row : List ℕ} (h : ∀ t ∈ row, t < 2 ^ 63) :
    compact (row.map Int64.ofNat) = (compact row).map Int64.ofNat := by
  rw [compact, compact, List.filter_map]
  refine congrArg _ (List.filter_congr fun t ht => ?_)
  rw [Function.comp_apply, decide_eq_decide]
  exact not_congr (ofNat_eq_zero_iff (h t ht))

theorem mergeFrom_map_ofNat {tile : ℕ} {rest : List ℕ} (htile : tile < 2 ^ 63)
    (hrest : ∀ t ∈ rest, t < 2 ^ 63) :
    mergeFrom (Int64.ofNat tile) (rest.map Int64.ofNat) =
      ((mergeFrom tile rest).1.map Int64.ofNat, Int64.ofNat (mergeFrom tile rest).2) := by
  induction rest generalizing tile with
  | nil => rfl
  | cons next rest ih =>
    simp only [List.mem_cons, forall_eq_or_imp] at hrest
    rw [List.map_cons, mergeFrom, mergeFrom]
    simp only [ofNat_eq_iff htile hrest.1]
    split_ifs
    · have hzero := ih (by norm_num : 0 < 2 ^ 63) hrest.2
      rw [show Int64.ofNat 0 = 0 from rfl] at hzero
      simp only [hzero, List.map_cons, Int64.ofNat_add]
    · simp only [ih hrest.1 hrest.2, List.map_cons]

theorem mergeRow_map_ofNat {row : List ℕ} (h : ∀ t ∈ row, t < 2 ^ 63) :
    mergeRow (row.map Int64.ofNat) =
      ((mergeRow row).1.map Int64.ofNat, Int64.ofNat (mergeRow row).2) := by
  cases row with
  | nil => rfl
  | cons tile rest =>
    simp only [List.mem_cons, forall_eq_or_imp] at h
    exact mergeFrom_map_ofNat h.1 h.2

theorem mergeFrom_le {tile b : ℕ} {rest : List ℕ} (htile : tile ≤ b) (hrest : ∀ t ∈ rest, t ≤ b) :
    ∀ t ∈ (mergeFrom tile rest).1, t ≤ 2 * b := by
  induction rest generalizing tile with
  | nil =>
    intro t ht
    rw [List.mem_singleton.mp ht]
    omega
  | cons next rest ih =>
    simp only [List.mem_cons, forall_eq_or_imp] at hrest
    intro t ht
    rw [mergeFrom] at ht
    split_ifs at ht
    · obtain rfl | ht := List.mem_cons.mp ht
      · omega
      · exact ih (Nat.zero_le b) hrest.2 t ht
    · obtain rfl | ht := List.mem_cons.mp ht
      · omega
      · exact ih hrest.1 hrest.2 t ht

theorem mergeRow_le {b : ℕ} {row : List ℕ} (h : ∀ t ∈ row, t ≤ b) :
    ∀ t ∈ (mergeRow row).1, t ≤ 2 * b := by
  cases row with
  | nil => exact fun t ht => absurd ht List.not_mem_nil
  | cons tile rest =>
    simp only [List.mem_cons, forall_eq_or_imp] at h
    exact mergeFrom_le h.1 h.2

theorem toRow_map_ofNat (row : List ℕ) :
    toRow (row.map Int64.ofNat) = fun c => Int64.ofNat (toRow row c) := by
  funext c
  exact List.getD_map _ _ Int64.ofNat

theorem foldl_ofNat (p : Fin 4 → ℕ) (score : ℕ) :
    (List.finRange 4).foldl (fun s r => s + Int64.ofNat (p r)) (Int64.ofNat score) =
      Int64.ofNat ((List.finRange 4).foldl (fun s r => s + p r) score) :=
  List.foldl_hom Int64.ofNat fun s r => (Int64.ofNat_add s (p r)).symm

section Moves

variable [Conversion]

theorem append_map_ofNat {row : List ℕ} (h : ∀ t ∈ row, t ≤ 2 ^ 53) :
    append (row.map Int64.ofNat) = (append row).map Int64.ofNat := by
  rw [append, append, List.length_map]
  split_ifs
  · rw [List.map_map, List.map_map]
    apply List.map_congr_left
    intro t ht
    have hle := h t ht
    have hint : (Int64.ofNat t).toInt = t := Int64.toInt_ofNat_of_lt (by omega)
    exact viaFloat_eq_self (by rw [hint]; omega)
  · rw [List.map_append, List.map_replicate]
    rfl

theorem shiftRow_map_ofNat {row : List ℕ} (h : ∀ t ∈ row, t ≤ 2 ^ 52) :
    shiftRow (row.map Int64.ofNat) =
      ((shiftRow row).1.map Int64.ofNat, Int64.ofNat (shiftRow row).2) := by
  have hlt : ∀ t ∈ row, t < 2 ^ 63 := fun t ht => (h t ht).trans_lt (by norm_num)
  have hcompact : ∀ t ∈ compact row, t ≤ 2 ^ 52 := fun t ht => h t (List.mem_filter.mp ht).1
  have hmerged := mergeRow_le hcompact
  have hkept : ∀ t ∈ compact (mergeRow (compact row)).1, t ≤ 2 ^ 53 :=
    fun t ht => hmerged t (List.mem_filter.mp ht).1
  have hscan := mergeRow_map_ofNat fun t ht => (hcompact t ht).trans_lt (by norm_num)
  rw [shiftRow, compact_map_ofNat hlt, hscan, shiftRow]
  dsimp only
  rw [compact_map_ofNat fun t ht => (hmerged t ht).trans_lt (by norm_num),
    append_map_ofNat hkept]

variable {g : Board}

theorem leftPressed_words (h : ∀ r c, g.board r c ≤ 2 ^ 52) :
    leftPressed (words g) = words (leftPressed g) := by
  have hrow : ∀ r, shiftRow (List.ofFn ((words g).board r)) =
      ((shiftRow (List.ofFn (g.board r))).1.map Int64.ofNat,
        Int64.ofNat (shiftRow (List.ofFn (g.board r))).2) := by
    intro r
    rw [← shiftRow_map_ofNat fun t ht => ?_, List.map_ofFn]
    · rfl
    · obtain ⟨c, rfl⟩ := List.mem_ofFn.mp ht
      exact h r c
  rw [leftPressed_eq_shiftRow, leftPressed_eq_shiftRow]
  simp only [hrow, toRow_map_ofNat]
  exact congrArg (BoardOf.mk _) (foldl_ofNat _ _)

theorem rightPressed_words (h : ∀ r c, g.board r c ≤ 2 ^ 52) :
    rightPressed (words g) = words (rightPressed g) := by
  have hmirror : ∀ g : Board, mirror (words g) = words (mirror g) := fun _ => rfl
  rw [rightPressed_eq, rightPressed_eq, hmirror, leftPressed_words fun r c => h r c.rev, hmirror]

theorem move_words (h : ∀ r c, g.board r c ≤ 2 ^ 52) (direction : String) :
    move (words g) direction = ((move g direction).1, words (move g direction).2) := by
  have htranspose : ∀ g : Board, transpose (words g) = words (transpose g) := fun _ => rfl
  have hup : upPressed (words g) = words (upPressed g) := by
    rw [upPressed, upPressed, htranspose, leftPressed_words fun r c => h c r, htranspose]
  have hdown : downPressed (words g) = words (downPressed g) := by
    rw [downPressed, downPressed, htranspose, rightPressed_words fun r c => h c r, htranspose]
  unfold move
  split_ifs
  · rw [hup]
  · rw [leftPressed_words h]
  · rw [hdown]
  · rw [rightPressed_words h]
  · rfl

end Moves

section Cells

variable {g : Board}

theorem entry_le_total (g : Board) (r c : Fin 4) : g.board r c ≤ total g :=
  Multiset.le_sum_of_mem (mem_cells.mpr ⟨r, c, rfl⟩)

theorem words_board_eq_iff {g' : Board} (h : ∀ r c, g.board r c < 2 ^ 63)
    (h' : ∀ r c, g'.board r c < 2 ^ 63) :
    (words g).board = (words g').board ↔ g.board = g'.board := by
  rw [funext_iff, funext_iff]
  apply forall_congr'
  intro r
  rw [funext_iff, funext_iff]
  exact forall_congr' fun c => ofNat_eq_iff (h r c) (h' r c)

theorem emptyTiles_words (h : ∀ r c, g.board r c < 2 ^ 63) :
    emptyTiles (words g).board = emptyTiles g.board := by
  rw [emptyTiles, emptyTiles]
  apply List.filter_congr
  intro cell _
  rw [decide_eq_decide]
  exact ofNat_eq_zero_iff (h cell.1 cell.2)

theorem tileOf_words (draw : Draw) : draw.tileOf Int64 = Int64.ofNat draw.tile := by
  unfold Draw.tile Draw.tileOf
  split_ifs
  · rfl
  · rfl

theorem place_words (b : Grid) (r c : Fin 4) (tile : ℕ) :
    place (fun r c => Int64.ofNat (b r c)) r c (Int64.ofNat tile) =
      fun r' c' => Int64.ofNat (place b r c tile r' c') := by
  funext r' c'
  by_cases hcell : r' = r ∧ c' = c
  · obtain ⟨rfl, rfl⟩ := hcell
    rw [place_self, place_self]
  · rw [place_of_not _ hcell, place_of_not _ hcell]

theorem addRandomTile_words (h : ∀ r c, g.board r c < 2 ^ 63) (draw : Draw) :
    addRandomTile (words g) draw = words (addRandomTile g draw) := by
  rw [addRandomTile, addRandomTile, emptyTiles_words h]
  cases (emptyTiles g.board)[draw.choice % (emptyTiles g.board).length]? with
  | none => rfl
  | some cell =>
    dsimp only
    rw [tileOf_words, words, words, place_words]

theorem addRandomTile_lt (h : ∀ r c, g.board r c < 2 ^ 63) (draw : Draw) (r c : Fin 4) :
    (addRandomTile g draw).board r c < 2 ^ 63 := by
  obtain ⟨-, hboard⟩ | ⟨r', c', -, hboard⟩ := addRandomTile_eq g draw
  · rw [hboard]
    exact h r c
  · rw [hboard]
    dsimp only
    by_cases hcell : r = r' ∧ c = c'
    · obtain ⟨rfl, rfl⟩ := hcell
      rw [place_self]
      obtain htile | htile := draw.tile_eq
      · exact htile.trans_lt (by norm_num)
      · exact htile.trans_lt (by norm_num)
    · rw [place_of_not _ hcell]
      exact h r c

theorem hasValidMoves_words (h : ∀ r c, g.board r c < 2 ^ 63) :
    hasValidMoves (words g) = hasValidMoves g := by
  have hzero : ∀ r c, (words g).board r c = 0 ↔ g.board r c = 0 :=
    fun r c => ofNat_eq_zero_iff (h r c)
  have heq : ∀ r c r' c', (words g).board r c = (words g).board r' c' ↔
      g.board r c = g.board r' c' := fun r c r' c' => ofNat_eq_iff (h r c) (h r' c')
  rw [hasValidMoves, hasValidMoves]
  simp only [hzero, heq]

theorem newBoard_words (first second : Draw) :
    newBoard first second = words (newBoard first second) := by
  have hempty : (⟨fun _ _ => 0, 0⟩ : BoardOf Int64) = words ⟨fun _ _ => 0, 0⟩ := rfl
  have hblank : ∀ r c, (⟨fun _ _ => 0, 0⟩ : Board).board r c < 2 ^ 63 := fun _ _ => by norm_num
  rw [newBoard, newBoard, hempty, addRandomTile_words hblank,
    addRandomTile_words (addRandomTile_lt hblank first)]

end Cells

section Games

variable [Conversion] {g : Board}

theorem changed_words (h : total g ≤ 2 ^ 52) (direction : String) :
    (move (words g) direction).2.board = (words g).board ↔
      (move g direction).2.board = g.board := by
  have hcell := fun r c => (entry_le_total g r c).trans h
  have hmoved : ∀ r c, (move g direction).2.board r c ≤ 2 ^ 52 :=
    fun r c => (entry_le_total _ r c).trans ((total_move g direction).trans_le h)
  rw [move_words hcell]
  exact words_board_eq_iff (fun r c => (hmoved r c).trans_lt (by norm_num))
    fun r c => (hcell r c).trans_lt (by norm_num)

theorem next_words (h : total g ≤ 2 ^ 52) (turn : Turn) :
    (words g).next turn = words (g.next turn) := by
  have hcell := fun r c => (entry_le_total g r c).trans h
  have hmoved : ∀ r c, (move g turn.direction).2.board r c < 2 ^ 63 := by
    intro r c
    calc (move g turn.direction).2.board r c ≤ total (move g turn.direction).2 :=
          entry_le_total _ r c
      _ ≤ 2 ^ 52 := (total_move g turn.direction).trans_le h
      _ < 2 ^ 63 := by norm_num
  have hchanged : (words g).changed turn = g.changed turn := by
    rw [BoardOf.changed, BoardOf.changed, decide_eq_decide, ne_comm, ne_comm (a := g.board)]
    exact not_congr (changed_words h turn.direction)
  rw [next_eq, next_eq, hchanged, move_words hcell]
  split_ifs
  · exact addRandomTile_words hmoved turn.draw
  · rfl

theorem play_words (first second : Draw) (turns : List Turn) :
    play (newBoard first second) turns = words (play (newBoard first second) turns) := by
  induction turns using List.reverseRecOn with
  | nil => exact newBoard_words first second
  | append_singleton turns turn ih =>
    have htotal := (total_play_le first second turns).trans (by norm_num : 262140 ≤ 2 ^ 52)
    simp only [play, List.foldl_append, List.foldl_cons, List.foldl_nil] at ih htotal ⊢
    rw [ih, next_words htotal]

/-- In every game from `Board()` the numbers on 64 bits are those of the unbounded game, no
tile is changed by a float64 row, and `has_valid_moves` and the moves that change the board
are the same. -/
theorem play_toInt (first second : Draw) (turns : List Turn) :
    let g : BoardOf Int64 := play (newBoard first second) turns
    let unbounded : Board := play (newBoard first second) turns
    (∀ r c, (g.board r c).toInt = unbounded.board r c ∧ viaFloat (g.board r c) = g.board r c) ∧
      g.score.toInt = unbounded.score ∧
      hasValidMoves g = hasValidMoves unbounded ∧
      ∀ direction, (move g direction).1 = (move unbounded direction).1 ∧
        (Moves g direction ↔ Moves unbounded direction) := by
  intro g unbounded
  have hg : g = words unbounded := play_words first second turns
  have htotal : total unbounded ≤ 262140 := total_play_le first second turns
  have hscore : unbounded.score ≤ 3932100 := score_play_le first second turns
  have hcell : ∀ r c, unbounded.board r c ≤ 262140 :=
    fun r c => (entry_le_total unbounded r c).trans htotal
  have hint : ∀ r c, (g.board r c).toInt = unbounded.board r c := by
    intro r c
    rw [hg]
    exact Int64.toInt_ofNat_of_lt ((hcell r c).trans_lt (by norm_num))
  refine ⟨fun r c => ⟨hint r c, viaFloat_eq_self ?_⟩, ?_, ?_, fun direction => ⟨?_, ?_⟩⟩
  · rw [hint, Int.natAbs_natCast]
    exact (hcell r c).trans (by norm_num)
  · rw [hg]
    exact Int64.toInt_ofNat_of_lt (hscore.trans_lt (by norm_num))
  · rw [hg]
    exact hasValidMoves_words fun r c => (hcell r c).trans_lt (by norm_num)
  · rw [hg, move_words fun r c => (hcell r c).trans (by norm_num)]
  · rw [hg]
    exact not_congr (changed_words (htotal.trans (by norm_num)) direction)

end Games

end OlinCourses.Game2048
