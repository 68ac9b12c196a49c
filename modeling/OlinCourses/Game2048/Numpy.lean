import OlinCourses.Game2048.Turns
import OlinCourses.Lib.Binary64

/-!
# The board as a NumPy array

The cells and the score are numbers of 64 bits, on which sums wrap around, and a row that
keeps four tiles comes back from float64 numbers. The laws of the moves hold up to that, and
exactly for tiles that neither of it touches.
-/
namespace OlinCourses.Game2048
open scoped BigOperators

/-- What the platform makes of a float64 number out of the range of int64, which C leaves
open. -/
class Conversion where
  outOfRange : Int64

instance [Conversion] : ViaFloat Int64 where
  viaFloat t :=
    if Binary64.nearest t.toInt < 2 ^ 63 then Int64.ofInt (Binary64.nearest t.toInt)
    else Conversion.outOfRange

theorem viaFloat_of_lt [Conversion] {t : Int64} (h : Binary64.nearest t.toInt < 2 ^ 63) :
    viaFloat t = Int64.ofInt (Binary64.nearest t.toInt) := if_pos h

theorem toInt_two_mul (t : Int64) : (t + t).toInt = (2 * t.toInt).bmod (2 ^ 64) := by
  rw [Int64.toInt_add, two_mul]

instance : LawfulCells Int64 where
  mul_two t := by
    rw [← Int64.toInt_inj, toInt_two_mul, Int64.toInt_mul, mul_comm]
    rfl
  add_assoc := Int64.add_assoc
  add_zero := Int64.add_zero

/-- Up to `2^53` a tile is the same as a float64 number. -/
theorem viaFloat_eq_self [Conversion] {t : Int64} (h : t.toInt.natAbs ≤ 2 ^ 53) :
    viaFloat t = t := by
  have hnearest := Binary64.nearest_eq_self h
  rw [viaFloat_of_lt (by rw [hnearest]; omega), hnearest, Int64.ofInt_toInt]

section RowLaw

/-- The integers in a row. -/
def integers (row : Fin 4 → Int64) : List ℤ := List.ofFn fun c => (row c).toInt

theorem compact_map_toInt (row : List Int64) :
    compact (row.map Int64.toInt) = (compact row).map Int64.toInt := by
  have hzero : (fun t : Int64 => decide (t.toInt ≠ 0)) = fun t => decide (t ≠ 0) := by
    funext t
    rw [decide_eq_decide, not_iff_not, ← Int64.toInt_inj]
    rfl
  rw [compact, compact, List.filter_map]
  exact congrArg _ (congrArg (row.filter ·) hzero)

theorem integers_eq (row : Fin 4 → Int64) : integers row = (List.ofFn row).map Int64.toInt := by
  rw [List.map_ofFn]
  rfl

theorem compact_integers (row : Fin 4 → Int64) :
    compact (integers row) = (compact (List.ofFn row)).map Int64.toInt := by
  rw [← compact_map_toInt, integers_eq]

variable {row out made : List Int64}

theorem add_self_ne_zero {t : Int64} (hnonneg : 0 ≤ t.toInt) (h : t ≠ 0) : t + t ≠ 0 := by
  intro hsum
  have hlt := t.toInt_lt
  have hne : t.toInt ≠ 0 := fun hzero => h (Int64.toInt_inj.mp hzero)
  have hbmod : (2 * t.toInt).bmod (2 ^ 64) = 0 := by
    rw [← toInt_two_mul, hsum]
    rfl
  have hdvd := Int.dvd_of_bmod_eq_zero hbmod
  omega

/-- Below `2^62` tiles are merged as integers. -/
theorem MergesLeft.toInt (h : MergesLeft row out made)
    (hrow : ∀ t ∈ row, 0 ≤ t.toInt ∧ t.toInt < 2 ^ 62) :
    MergesLeft (row.map Int64.toInt) (out.map Int64.toInt) (made.map Int64.toInt) := by
  induction h with
  | nil => exact MergesLeft.nil
  | @pair t rest out made _ ih =>
    simp only [List.mem_cons, forall_eq_or_imp] at hrow
    have hsum : (t + t).toInt = t.toInt + t.toInt := by
      rw [Int64.toInt_add]
      exact Int.bmod_eq_of_le (by omega) (by omega)
    simp only [List.map_cons, hsum]
    exact MergesLeft.pair (ih hrow.2.2)
  | @single t rest out made hne _ ih =>
    simp only [List.mem_cons, forall_eq_or_imp] at hrow
    refine MergesLeft.single ?_ (ih hrow.2)
    rw [List.head?_map, ne_eq, Option.map_eq_some_iff]
    rintro ⟨s, hs, heq⟩
    exact hne (hs.trans (congrArg some (Int64.toInt_inj.mp heq)))

/-- What is made weighs no more than the row. -/
theorem MergesLeft.sum_made {row out made : List ℤ} (h : MergesLeft row out made)
    (hrow : ∀ t ∈ row, 0 ≤ t) : 0 ≤ made.sum ∧ made.sum ≤ row.sum := by
  induction h with
  | nil => exact ⟨le_rfl, le_rfl⟩
  | pair _ ih =>
    simp only [List.mem_cons, forall_eq_or_imp] at hrow
    have hrest := ih hrow.2.2
    simp only [List.sum_cons]
    omega
  | single _ _ ih =>
    simp only [List.mem_cons, forall_eq_or_imp] at hrow
    have hrest := ih hrow.2
    simp only [List.sum_cons]
    omega

theorem sum_compact (row : List ℤ) : (compact row).sum = row.sum := by
  induction row with
  | nil => rfl
  | cons t row ih =>
    by_cases ht : t = 0
    · subst ht
      rw [compact_cons_zero, ih, List.sum_cons, zero_add]
    · rw [compact_cons ht, List.sum_cons, List.sum_cons, ih]

theorem MergesLeft.sum_made_le {row : Fin 4 → Int64} {out made : List ℤ}
    (h : MergesLeft (compact (integers row)) out made) (hnonneg : ∀ c, 0 ≤ (row c).toInt) :
    0 ≤ made.sum ∧ made.sum ≤ ∑ c, (row c).toInt := by
  have hsum := h.sum_made fun t ht => ?_
  · rwa [sum_compact, integers, List.sum_ofFn] at hsum
  · obtain ⟨c, rfl⟩ := List.mem_ofFn.mp (List.mem_filter.mp ht).1
    exact hnonneg c

/-- Adding up points on 64 bits. -/
theorem toInt_foldl_add (made : List Int64) (score : Int64) :
    (made.foldl (· + ·) score).toInt =
      (score.toInt + (made.map Int64.toInt).sum).bmod (2 ^ 64) := by
  induction made generalizing score with
  | nil => simp
  | cons t made ih =>
    rw [List.foldl_cons, ih, Int64.toInt_add, List.map_cons, List.sum_cons, Int.bmod_add_bmod,
      add_assoc]

/-- Points added one after another. -/
theorem add_foldr (made : List Int64) (score : Int64) :
    score + made.foldr (· + ·) 0 = made.foldl (· + ·) score := by
  induction made generalizing score with
  | nil => exact Int64.add_zero score
  | cons t made ih => rw [List.foldr_cons, List.foldl_cons, ← ih, Int64.add_assoc]

variable [Conversion]

/-- The greedy merge of a row, and what the move makes of it. -/
theorem shiftRow_mergesLeft (hrow : row.length = 4) (hnonneg : ∀ t ∈ row, 0 ≤ t.toInt) :
    ∃ out made, MergesLeft (compact row) out made ∧
      (shiftRow row).1 = (if out.length = 4 then out.map viaFloat
        else out ++ List.replicate (4 - out.length) 0) ∧
      ∀ score, score + (shiftRow row).2 = made.foldl (· + ·) score := by
  have hsum : ∀ t ∈ compact row, t + t ≠ 0 := by
    intro t ht
    obtain ⟨hmem, hne⟩ := List.mem_filter.mp ht
    exact add_self_ne_zero (hnonneg t hmem) (by simpa using hne)
  obtain ⟨made, hmade, hpoints⟩ := mergeRow_mergesLeft (compact row) (zero_notMem_compact row) hsum
  have hlen := length_compact_le row
  have hlen' := length_compact_le (mergeRow (compact row)).1
  rw [length_mergeRow] at hlen'
  refine ⟨_, made, hmade, ?_, fun score => ?_⟩
  · rw [shiftRow, append]
    exact if_congr (by omega) rfl rfl
  · rw [← add_foldr, ← hpoints, shiftRow]

/-- A row whose tiles are float64 numbers holds what is merged, and zeros. -/
theorem map_toInt_shifted (h : MergesLeft (compact row) out made) (hrow : row.length = 4)
    (hfloat : ∀ t ∈ row, viaFloat t = t) :
    (if out.length = 4 then out.map viaFloat
      else out ++ List.replicate (4 - out.length) 0).map Int64.toInt =
      out.map Int64.toInt ++ List.replicate (4 - out.length) 0 := by
  split_ifs with hlen
  · -- nothing is merged in a row that stays full
    have hcompact := length_compact_le row
    have hlength := h.length_add
    have hout : out = compact row := h.eq_of_length (by omega)
    have hsame : out.map viaFloat = out.map id := by
      apply List.map_congr_left
      intro t ht
      rw [hout] at ht
      exact hfloat t (List.mem_filter.mp ht).1
    rw [hsame, List.map_id, hlen, Nat.sub_self, List.replicate_zero, List.append_nil]
  · rw [List.map_append, List.map_replicate]
    rfl

/-- `left_pressed` merges the integers of every row greedily from the left, pads them with
zeros, and adds the merged tiles to the score. -/
def FollowsRowLaw (g : BoardOf Int64) : Prop :=
  ∃ out made : Fin 4 → List ℤ,
    (∀ r, MergesLeft (compact (integers (g.board r))) (out r) (made r)) ∧
    (∀ r, integers ((leftPressed g).board r) =
      out r ++ List.replicate (4 - (out r).length) 0) ∧
    (leftPressed g).score.toInt = g.score.toInt + ∑ r, (made r).sum

/-- The row law on 64 bits, and where it is the law of the integers. -/
theorem leftPressed_row_law (g : BoardOf Int64) (hnonneg : ∀ r c, 0 ≤ (g.board r c).toInt) :
    (∃ out made : Fin 4 → List Int64,
      (∀ r out' made', MergesLeft (compact (List.ofFn (g.board r))) out' made' ↔
        out' = out r ∧ made' = made r) ∧
      (∀ r, List.ofFn ((leftPressed g).board r) =
        if (out r).length = 4 then (out r).map viaFloat
        else out r ++ List.replicate (4 - (out r).length) 0) ∧
      (leftPressed g).score = ((List.finRange 4).flatMap made).foldl (· + ·) g.score) ∧
    ((∀ r c, (g.board r c).toInt < 2 ^ 62 ∧ viaFloat (g.board r c) = g.board r c) →
      g.score.toInt + ∑ r, ∑ c, (g.board r c).toInt < 2 ^ 63 → FollowsRowLaw g) := by
  have hrow : ∀ r, ∀ t ∈ List.ofFn (g.board r), 0 ≤ t.toInt := by
    intro r t ht
    obtain ⟨c, rfl⟩ := List.mem_ofFn.mp ht
    exact hnonneg r c
  choose out made hmade hshift hpoints using fun r =>
    shiftRow_mergesLeft List.length_ofFn (hrow r)
  have hboard : ∀ r, List.ofFn ((leftPressed g).board r) =
      if (out r).length = 4 then (out r).map viaFloat
      else out r ++ List.replicate (4 - (out r).length) 0 := by
    intro r
    rw [leftPressed_eq_shiftRow, ofFn_toRow _ (length_shiftRow _ List.length_ofFn), hshift]
  have hscore : (leftPressed g).score =
      ((List.finRange 4).flatMap made).foldl (· + ·) g.score := by
    rw [leftPressed_eq_shiftRow, List.foldl_flatMap]
    simp only [hpoints]
  refine ⟨⟨out, made, fun r out' made' => ⟨fun h => h.unique (hmade r), ?_⟩, hboard, hscore⟩, ?_⟩
  · rintro ⟨rfl, rfl⟩
    exact hmade r
  · intro hcells htotal
    have hints : ∀ r, MergesLeft (compact (integers (g.board r))) ((out r).map Int64.toInt)
        ((made r).map Int64.toInt) := by
      intro r
      rw [compact_integers]
      refine (hmade r).toInt fun t ht => ?_
      have hmem := (List.mem_filter.mp ht).1
      obtain ⟨c, rfl⟩ := List.mem_ofFn.mp hmem
      exact ⟨hnonneg r c, (hcells r c).1⟩
    refine ⟨fun r => (out r).map Int64.toInt, fun r => (made r).map Int64.toInt, hints, ?_, ?_⟩
    · intro r
      dsimp only
      rw [integers_eq, hboard, List.length_map]
      refine map_toInt_shifted (hmade r) List.length_ofFn fun t ht => ?_
      obtain ⟨c, rfl⟩ := List.mem_ofFn.mp ht
      exact (hcells r c).2
    · have hsums := fun r => (hints r).sum_made_le (hnonneg r)
      have hle : ∑ r, ((made r).map Int64.toInt).sum ≤ ∑ r, ∑ c, (g.board r c).toInt :=
        Finset.sum_le_sum fun r _ => (hsums r).2
      have hpos : 0 ≤ ∑ r, ((made r).map Int64.toInt).sum :=
        Finset.sum_nonneg fun r _ => (hsums r).1
      have hlow := g.score.le_toInt
      have hflat : (((List.finRange 4).flatMap made).map Int64.toInt).sum =
          ∑ r, ((made r).map Int64.toInt).sum := by
        rw [Fin.sum_univ_four]
        simp [List.finRange_succ, add_assoc]
      rw [hscore, toInt_foldl_add, hflat]
      exact Int.bmod_eq_of_le (by omega) (by omega)

end RowLaw

/-- What the conversion gives on x86-64. -/
abbrev x86 : Conversion := ⟨Int64.minValue⟩

/-- Pairs to merge, and tiles that are not merged twice. -/
def pairs : BoardOf Int64 := ⟨![![2, 2, 4, 8], ![0, 4, 4, 4], ![2, 4, 8, 16], ![0, 0, 0, 2]], 12⟩

theorem leftPressed_row_law_pairs :
    letI := x86
    FollowsRowLaw pairs := by
  have hsmall : ∀ r c, (pairs.board r c).toInt.natAbs ≤ 2 ^ 53 := by decide
  exact (@leftPressed_row_law x86 pairs (by decide)).2
    (fun r c => ⟨by have := hsmall r c; omega, @viaFloat_eq_self x86 _ (hsmall r c)⟩) (by decide)

/-- A full board without equal neighbours, with a tile that is not a float64 number. -/
def wideBoard : BoardOf Int64 :=
  ⟨![![9007199254740993, 1, 2, 3], ![4, 5, 6, 7], ![8, 9, 10, 11], ![12, 13, 14, 15]], 0⟩

theorem hasValidMoves_wideBoard : hasValidMoves wideBoard = false := by decide +kernel

theorem leftPressed_wideBoard [Conversion] : (leftPressed wideBoard).board =
    ![![9007199254740992, 1, 2, 3], ![4, 5, 6, 7], ![8, 9, 10, 11], ![12, 13, 14, 15]] := by
  obtain ⟨hfull, -, hchain⟩ := (hasValidMoves_eq_false wideBoard).mp hasValidMoves_wideBoard
  have hlt : ∀ r c, Binary64.nearest (wideBoard.board r c).toInt < 2 ^ 63 := by decide +kernel
  rw [leftPressed_of_isChain hfull hchain]
  funext r c
  rw [viaFloat_of_lt (hlt r c)]
  revert r c
  decide +kernel

/-- The row with the wide tile is not left as it is. -/
theorem not_leftPressed_row_law : (∀ r c, 0 ≤ (wideBoard.board r c).toInt) ∧
    ∀ conversion, ¬ @FollowsRowLaw conversion wideBoard := by
  refine ⟨by decide +kernel, fun conversion h => ?_⟩
  obtain ⟨out, made, hmerges, hboard, -⟩ := h
  have hrow := hboard 0
  rw [leftPressed_wideBoard] at hrow
  have hkept : MergesLeft (compact (integers (wideBoard.board 0))) [9007199254740993, 1, 2, 3] [] :=
    .single (by decide) (.single (by decide) (.single (by decide) (.single (by decide) .nil)))
  rw [((hmerges 0).unique hkept).1] at hrow
  revert hrow
  decide +kernel

section Turns

variable [Conversion]

/-- `has_valid_moves` finds every move that merges or shifts a tile, and no move that only
changes the tiles of full rows. -/
theorem hasValidMoves_exact (g : BoardOf Int64) (htile : ∃ r c, g.board r c ≠ 0) :
    ((∃ d ∈ directions, Moves g d) ↔
      hasValidMoves g = true ∨ ∃ r c, viaFloat (g.board r c) ≠ g.board r c) ∧
    ((∀ r c, (g.board r c).toInt.natAbs ≤ 2 ^ 53) →
      (hasValidMoves g = true ↔ ∃ d ∈ directions, Moves g d)) := by
  have hexact : (∃ d ∈ directions, Moves g d) ↔
      hasValidMoves g = true ∨ ∃ r c, viaFloat (g.board r c) ≠ g.board r c := by
    have h := not_congr (forall_not_moves_iff htile)
    push Not at h
    rw [h, ← Bool.not_eq_false, or_iff_not_imp_left, not_not]
  refine ⟨hexact, fun hsmall => ?_⟩
  have hfloat : ¬ ∃ r c, viaFloat (g.board r c) ≠ g.board r c := by
    push Not
    exact fun r c => viaFloat_eq_self (hsmall r c)
  rw [hexact, or_iff_left hfloat]

theorem move_left (g : BoardOf Int64) : move g "a" = (true, leftPressed g) := by
  simp [move]

theorem moves_wideBoard : Moves wideBoard "a" := by
  intro h
  rw [move_left, leftPressed_wideBoard] at h
  exact absurd (congrFun (congrFun h 0) 0) (by decide)

/-- A turn spawns exactly one tile when its move changes the board, except on a full board of
which the move only changes tiles that are no float64 numbers. -/
theorem playTurn_spec (g : BoardOf Int64) (direction : String) (draw : Draw) :
    (Moves g direction → (∃ r c, (move g direction).2.board r c = 0) →
      SpawnsOne (move g direction).2 (playTurn g direction draw).2) ∧
    (Moves g direction → (¬ ∃ r c, (move g direction).2.board r c = 0) →
      (playTurn g direction draw).2 = (move g direction).2 ∧ (∀ r c, g.board r c ≠ 0) ∧
        (move g direction).2.board = fun r c => viaFloat (g.board r c)) ∧
    (Moves g direction → (∀ r c, viaFloat (g.board r c) = g.board r c) →
      ∃ r c, (move g direction).2.board r c = 0) ∧
    (¬ Moves g direction → (playTurn g direction draw).2 = g) ∧
    (direction ∉ directions → playTurn g direction draw = (false, g)) := by
  refine ⟨fun h hblank => ?_, fun h hfull => ?_, fun h hfloat => ?_, fun h => next_eq_self h draw,
    fun h => playTurn_of_unknown h g draw⟩
  · rw [show (playTurn g direction draw).2 = _ from next_of_moves h draw]
    exact addRandomTile_spawnsOne hblank draw
  · push Not at hfull
    rw [show (playTurn g direction draw).2 = _ from next_of_moves h draw]
    exact ⟨addRandomTile_of_full hfull draw, h.full hfull⟩
  · by_contra hfull
    push Not at hfull
    have hsame : (fun r c => viaFloat (g.board r c)) = g.board := by
      funext r c
      exact hfloat r c
    exact h ((h.full hfull).2.trans hsame)

end Turns

/-- A single tile in the lower right corner. -/
def corner : BoardOf Int64 := ⟨![![0, 0, 0, 0], ![0, 0, 0, 0], ![0, 0, 0, 0], ![0, 0, 0, 2]], 0⟩

theorem hasValidMoves_exact_corner :
    letI := x86
    hasValidMoves corner = true ↔ ∃ d ∈ directions, Moves corner d :=
  (@hasValidMoves_exact x86 corner ⟨3, 3, by decide⟩).2 (by decide)

/-- No neighbours are equal, but the move to the left changes a tile. -/
theorem not_hasValidMoves_exact : (∃ r c, wideBoard.board r c ≠ 0) ∧
    (∀ r c, 0 ≤ (wideBoard.board r c).toInt) ∧
    ∀ [Conversion], ¬ (hasValidMoves wideBoard = true ↔ ∃ d ∈ directions, Moves wideBoard d) := by
  refine ⟨⟨0, 0, by decide⟩, by decide +kernel, fun h => ?_⟩
  have hvalid := h.mpr ⟨"a", by decide, moves_wideBoard⟩
  rw [hasValidMoves_wideBoard] at hvalid
  cases hvalid

theorem playTurn_spec_corner :
    letI := x86
    SpawnsOne (move corner "a").2 (playTurn corner "a" ⟨5, 19 / 20⟩).2 := by
  let conversion := x86
  have hmoves : Moves corner "a" := by decide +kernel
  have hfloat : ∀ r c, viaFloat (corner.board r c) = corner.board r c :=
    fun r c => viaFloat_eq_self (by revert r c; decide)
  obtain ⟨hspawns, -, hblank, -⟩ := playTurn_spec corner "a" ⟨5, 19 / 20⟩
  exact hspawns hmoves (hblank hmoves hfloat)

/-- The move to the left changes a tile and leaves no blank cell for the random tile. -/
theorem not_playTurn_spec : (∀ r c, 0 ≤ (wideBoard.board r c).toInt) ∧
    ∀ [Conversion] (draw : Draw), Moves wideBoard "a" ∧
      (∀ r c, (move wideBoard "a").2.board r c ≠ 0) ∧
      ¬ SpawnsOne (move wideBoard "a").2 (playTurn wideBoard "a" draw).2 := by
  refine ⟨by decide +kernel, fun {conversion} draw => ?_⟩
  have hfull : ∀ r c, (move wideBoard "a").2.board r c ≠ 0 := by
    intro r c
    rw [move_left, leftPressed_wideBoard]
    revert r c
    decide
  exact ⟨moves_wideBoard, hfull, fun ⟨r, c, hblank, _⟩ => hfull r c hblank⟩

end OlinCourses.Game2048
