import Mathlib.Data.List.ChainOfFn
import OlinCourses.Game2048.Board

/-!
# The row law

The merging loops, which read and write one row column by column, are a scan of the row from
the left. It merges equal neighbours greedily, and what a merge leaves is never merged again.
-/
namespace OlinCourses.Game2048

/-- What the scan takes for granted of the numbers. -/
class LawfulCells (α : Type) [OfNat α 0] [OfNat α 2] [Add α] [Mul α] : Prop where
  mul_two (t : α) : t * 2 = t + t
  add_assoc (a b c : α) : a + b + c = a + (b + c)
  add_zero (a : α) : a + 0 = a

instance : LawfulCells ℕ := ⟨Nat.mul_two, Nat.add_assoc, Nat.add_zero⟩

section Rows

variable {α : Type} [DecidableEq α] [OfNat α 0]

theorem zero_notMem_compact (row : List α) : 0 ∉ compact row := by
  simp [compact]

theorem length_compact_le (row : List α) : (compact row).length ≤ row.length :=
  List.length_filter_le _ _

theorem compact_eq_self {row : List α} (h : 0 ∉ row) : compact row = row := by
  rw [compact, List.filter_eq_self]
  intro t ht
  exact decide_eq_true fun hzero => h (hzero ▸ ht)

theorem compact_eq_self_of_length {row : List α} (h : row.length ≤ (compact row).length) :
    compact row = row := List.filter_sublist.eq_of_length_le h

theorem compact_cons {t : α} (h : t ≠ 0) (row : List α) :
    compact (t :: row) = t :: compact row := List.filter_cons_of_pos (decide_eq_true h)

@[simp] theorem compact_cons_zero (row : List α) : compact (0 :: row) = compact row :=
  List.filter_cons_of_neg (by simp)

theorem compact_zeros {row : List α} (h : 0 ∉ row) (n : ℕ) :
    compact (row ++ List.replicate n 0) = row := by
  have hzeros : compact (List.replicate n (0 : α)) = [] := by
    simp [compact]
  calc compact (row ++ List.replicate n 0)
      = compact row ++ compact (List.replicate n 0) := List.filter_append _ _
    _ = row := by rw [compact_eq_self h, hzeros, List.append_nil]

omit [DecidableEq α] in
theorem ofFn_toRow (row : List α) (hrow : row.length = 4) : List.ofFn (toRow row) = row := by
  apply List.ext_getElem
  · rw [List.length_ofFn, hrow]
  · intro c hc hc'
    rw [List.getElem_ofFn, toRow, List.getD_eq_getElem?_getD, List.getElem?_eq_getElem hc',
      Option.getD_some]

omit [DecidableEq α] in
theorem toRow_eq_iff {row : List α} {f : Fin 4 → α} (hrow : row.length = 4) :
    toRow row = f ↔ row = List.ofFn f := by
  refine ⟨fun h => by rw [← h, ofFn_toRow row hrow], fun h => ?_⟩
  apply List.ofFn_injective
  rw [ofFn_toRow row hrow, h]

variable [Add α]

/-- The scan of a row from `tile` on: the row it leaves and the points. -/
def mergeFrom (tile : α) : List α → List α × α
  | [] => ([tile], 0)
  | next :: rest =>
    if tile = next then
      let merged := mergeFrom 0 rest
      ((tile + tile) :: merged.1, tile + tile + merged.2)
    else
      let merged := mergeFrom next rest
      (tile :: merged.1, merged.2)

def mergeRow : List α → List α × α
  | [] => ([], 0)
  | tile :: rest => mergeFrom tile rest

theorem length_mergeFrom (tile : α) (rest : List α) :
    (mergeFrom tile rest).1.length = rest.length + 1 := by
  induction rest generalizing tile with
  | nil => rfl
  | cons next rest ih =>
    rw [mergeFrom]
    split_ifs
    · rw [List.length_cons, ih, List.length_cons]
    · rw [List.length_cons, ih, List.length_cons]

@[simp] theorem length_mergeRow (row : List α) : (mergeRow row).1.length = row.length := by
  cases row with
  | nil => rfl
  | cons tile rest => exact length_mergeFrom tile rest

theorem zero_mem_mergeFrom_zero (rest : List α) : 0 ∈ (mergeFrom 0 rest).1 := by
  induction rest with
  | nil => exact List.mem_singleton_self 0
  | cons next rest ih =>
    rw [mergeFrom]
    split_ifs
    · exact List.mem_cons_of_mem _ ih
    · exact List.mem_cons_self

/-- A merge leaves a zero. -/
theorem mergeFrom_of_zero_notMem {tile : α} {rest : List α} (h : 0 ∉ (mergeFrom tile rest).1) :
    (tile :: rest).IsChain (· ≠ ·) := by
  induction rest generalizing tile with
  | nil => exact List.isChain_singleton tile
  | cons next rest ih =>
    rw [mergeFrom] at h
    split_ifs at h with heq
    · exact absurd (List.mem_cons_of_mem _ (zero_mem_mergeFrom_zero rest)) h
    · have hchain := ih fun hmem => h (List.mem_cons_of_mem _ hmem)
      exact List.isChain_cons_cons.mpr ⟨heq, hchain⟩

theorem mergeFrom_of_isChain {tile : α} {rest : List α} (h : (tile :: rest).IsChain (· ≠ ·)) :
    mergeFrom tile rest = (tile :: rest, 0) := by
  induction rest generalizing tile with
  | nil => rfl
  | cons next rest ih =>
    obtain ⟨hne, hchain⟩ := List.isChain_cons_cons.mp h
    rw [mergeFrom, if_neg hne, ih hchain]

theorem mergeRow_of_isChain {row : List α} (h : row.IsChain (· ≠ ·)) : mergeRow row = (row, 0) := by
  cases row with
  | nil => rfl
  | cons tile rest => exact mergeFrom_of_isChain h

/-- A row that the scan leaves as many tiles is left as it is. -/
theorem isChain_of_length_compact {row : List α}
    (h : row.length ≤ (compact (mergeRow row).1).length) : row.IsChain (· ≠ ·) := by
  cases row with
  | nil => exact List.isChain_nil
  | cons tile rest =>
    have hkept := compact_eq_self_of_length ((length_mergeRow (tile :: rest)).trans_le h)
    apply mergeFrom_of_zero_notMem (hkept ▸ zero_notMem_compact (mergeRow (tile :: rest)).1)

variable [ViaFloat α]

/-- What `left_pressed` makes of a row, and `right_pressed` of a reversed one, and the points. -/
def shiftRow (row : List α) : List α × α :=
  (append (compact (mergeRow (compact row)).1), (mergeRow (compact row)).2)

/-- The row is left as it is. -/
def Stable (row : List α) : Prop := (shiftRow row).1 = row

theorem shiftRow_of_isChain {row : List α} (hrow : row.length = 4) (hzero : 0 ∉ row)
    (hchain : row.IsChain (· ≠ ·)) : shiftRow row = (row.map viaFloat, 0) := by
  rw [shiftRow, compact_eq_self hzero, mergeRow_of_isChain hchain]
  simp only [compact_eq_self hzero, append, hrow, le_refl, if_true]

/-- A row is full without equal neighbours, or it ends with a zero after the move. -/
theorem shiftRow_cases {row : List α} (hrow : row.length = 4) :
    (0 ∉ row ∧ row.IsChain (· ≠ ·) ∧ shiftRow row = (row.map viaFloat, 0)) ∨
      ∃ n, (compact (mergeRow (compact row)).1).length + (n + 1) = 4 ∧
        (shiftRow row).1 = compact (mergeRow (compact row)).1 ++ List.replicate (n + 1) 0 := by
  have hlen := length_compact_le row
  have hlen' := length_compact_le (mergeRow (compact row)).1
  rw [length_mergeRow] at hlen'
  by_cases hfull : 4 ≤ (compact (mergeRow (compact row)).1).length
  · have hcompact : compact row = row := compact_eq_self_of_length (by omega)
    have hzero : 0 ∉ row := hcompact ▸ zero_notMem_compact row
    rw [hcompact] at hfull
    have hchain := isChain_of_length_compact (hrow.trans_le hfull)
    exact Or.inl ⟨hzero, hchain, shiftRow_of_isChain hrow hzero hchain⟩
  · obtain ⟨n, hn⟩ : ∃ n, 4 - (compact (mergeRow (compact row)).1).length = n + 1 :=
      ⟨3 - (compact (mergeRow (compact row)).1).length, by omega⟩
    refine Or.inr ⟨n, by omega, ?_⟩
    rw [shiftRow, append, if_neg hfull, hn]

theorem length_shiftRow (row : List α) (hrow : row.length = 4) :
    (shiftRow row).1.length = 4 := by
  obtain ⟨-, -, hshift⟩ | ⟨n, hlen, hshift⟩ := shiftRow_cases hrow
  · rw [hshift, List.length_map, hrow]
  · rw [hshift, List.length_append, List.length_replicate, hlen]

/-- A move that leaves no zero has found a full row. -/
theorem shiftRow_of_zero_notMem {row : List α} (hrow : row.length = 4)
    (h : 0 ∉ (shiftRow row).1) : 0 ∉ row ∧ (shiftRow row).1 = row.map viaFloat := by
  obtain ⟨hzero, -, hshift⟩ | ⟨n, -, hshift⟩ := shiftRow_cases hrow
  · exact ⟨hzero, by rw [hshift]⟩
  · rw [hshift] at h
    exact absurd (List.mem_append_right _ List.mem_cons_self) h

theorem stable_iff_of_zero_notMem {row : List α} (hrow : row.length = 4) (hzero : 0 ∉ row) :
    Stable row ↔ row.IsChain (· ≠ ·) ∧ row.map viaFloat = row := by
  rw [Stable]
  obtain ⟨-, hchain, hshift⟩ | ⟨n, -, hshift⟩ := shiftRow_cases hrow
  · rw [hshift, and_iff_right hchain]
  · constructor
    · intro h
      rw [h] at hshift
      refine absurd ?_ hzero
      rw [hshift]
      simp [List.replicate_succ]
    · rintro ⟨hchain, hfloat⟩
      rw [shiftRow_of_isChain hrow hzero hchain, hfloat]

/-- A row that neither direction changes is blank or full. -/
theorem Stable.eq_zero {row : List α} (hrow : row.length = 4) (h : Stable row)
    (hreverse : Stable row.reverse) (hzero : 0 ∈ row) : ∀ t ∈ row, t = 0 := by
  -- pushed to the right, the blank shows up as the first entry
  obtain ⟨rest, hhead⟩ : ∃ rest, row = 0 :: rest := by
    have hlen : row.reverse.length = 4 := List.length_reverse.trans hrow
    obtain ⟨hfull, -, -⟩ | ⟨n, -, hshift⟩ := shiftRow_cases hlen
    · exact absurd (List.mem_reverse.mpr hzero) hfull
    · rw [hreverse, List.replicate_succ', ← List.append_assoc] at hshift
      have hback := congrArg List.reverse hshift
      rw [List.reverse_reverse, List.reverse_append, List.reverse_singleton,
        List.singleton_append] at hback
      exact ⟨_, hback⟩
  -- pushed to the left, it can only be first if there is no tile
  obtain ⟨hfull, -, -⟩ | ⟨n, -, hshift⟩ := shiftRow_cases hrow
  · exact absurd hzero hfull
  · rw [h] at hshift
    have hnil : compact (mergeRow (compact row)).1 = [] := by
      by_contra hne
      obtain ⟨tile, rest', heq⟩ := List.exists_cons_of_ne_nil hne
      have htile : tile = 0 := by
        rw [heq, hhead, List.cons_append] at hshift
        exact (List.cons.inj hshift).1.symm
      refine zero_notMem_compact (mergeRow (compact row)).1 ?_
      rw [heq, htile]
      exact List.mem_cons_self
    intro t ht
    rw [hshift, hnil, List.nil_append] at ht
    exact List.eq_of_mem_replicate ht

/-- A row left as it is has as many tiles as before, so none was made. -/
theorem Stable.points_eq_zero {row : List α} (hrow : row.length = 4) (h : Stable row) :
    (shiftRow row).2 = 0 := by
  obtain ⟨-, -, hshift⟩ | ⟨n, -, hshift⟩ := shiftRow_cases hrow
  · rw [hshift]
  · rw [h] at hshift
    have hcompact : compact row = compact (mergeRow (compact row)).1 := by
      conv_lhs => rw [hshift]
      exact compact_zeros (zero_notMem_compact _) _
    have hchain := isChain_of_length_compact (congrArg List.length hcompact).le
    rw [shiftRow, mergeRow_of_isChain hchain]

variable [OfNat α 2] [Mul α]

omit [ViaFloat α]

/-- The loop of `right_pressed` over the columns is the same as that of `left_pressed`. -/
theorem rightColumn_eq : (rightColumn : List α × α → ℕ → List α × α) = leftColumn := rfl

variable [LawfulCells α]

theorem leftColumn_append (before : List α) (tile next : α) (rest : List α) (score : α) :
    leftColumn (before ++ tile :: next :: rest, score) before.length =
      if tile = next then (before ++ (tile + tile) :: 0 :: rest, score + (tile + tile))
      else (before ++ tile :: next :: rest, score) := by
  have hnext : (before ++ tile :: next :: rest).getD (before.length + 1) 0 = next := by
    simp [List.getD_eq_getElem?_getD]
  have htile : (before ++ tile :: next :: rest).getD before.length 0 = tile := by
    simp [List.getD_eq_getElem?_getD]
  have hset : (before ++ tile :: next :: rest).set before.length (tile + tile) =
      before ++ (tile + tile) :: next :: rest := by
    simp [List.set_append_right]
  have hset' : (before ++ (tile + tile) :: next :: rest).set (before.length + 1) 0 =
      before ++ (tile + tile) :: 0 :: rest := by
    simp [List.set_append_right]
  have hmade : (before ++ (tile + tile) :: next :: rest).getD before.length 0 = tile + tile := by
    simp [List.getD_eq_getElem?_getD]
  simp only [leftColumn, htile, hnext, LawfulCells.mul_two, hset, hset', hmade]

/-- The rounds from one column on. -/
theorem foldl_leftColumn (before : List α) (tile : α) (rest : List α) (score : α) :
    (List.range' before.length rest.length).foldl leftColumn (before ++ tile :: rest, score) =
      (before ++ (mergeFrom tile rest).1, score + (mergeFrom tile rest).2) := by
  induction rest generalizing before tile score with
  | nil => rw [mergeFrom, LawfulCells.add_zero]; rfl
  | cons next rest ih =>
    have hshift : ∀ t next' score', (List.range' (before.length + 1) rest.length).foldl leftColumn
        (before ++ t :: next' :: rest, score') =
        (before ++ t :: (mergeFrom next' rest).1, score' + (mergeFrom next' rest).2) := by
      intro t next' score'
      simpa using ih (before ++ [t]) next' score'
    rw [List.length_cons, List.range'_succ, List.foldl_cons, leftColumn_append, mergeFrom]
    split_ifs with heq
    · rw [hshift, LawfulCells.add_assoc]
    · rw [hshift]

/-- The loop of `left_pressed` over the columns is the scan of the row. -/
theorem foldl_leftColumn_eq (row : List α) (score : α) :
    (List.range (row.length - 1)).foldl leftColumn (row, score) =
      ((mergeRow row).1, score + (mergeRow row).2) := by
  cases row with
  | nil => rw [mergeRow, LawfulCells.add_zero]; rfl
  | cons tile rest =>
    rw [List.length_cons, Nat.add_sub_cancel, List.range_eq_range']
    exact foldl_leftColumn [] tile rest score

end Rows

section Press

/-- Rewriting the rows of a board one after another. -/
theorem foldl_rows {α : Type} [Add α] (f : (Fin 4 → α) → Fin 4 → α) (p : (Fin 4 → α) → α)
    {rows : List (Fin 4)} (hnodup : rows.Nodup) (g : BoardOf α) :
    rows.foldl (fun (g : BoardOf α) r =>
        { board := Function.update g.board r (f (g.board r))
          score := g.score + p (g.board r) }) g =
      { board := fun r => if r ∈ rows then f (g.board r) else g.board r
        score := rows.foldl (fun s r => s + p (g.board r)) g.score } := by
  induction rows generalizing g with
  | nil => simp
  | cons row rows ih =>
    obtain ⟨hrow, hrows⟩ := List.nodup_cons.mp hnodup
    have hother : ∀ r ∈ rows, Function.update g.board row (f (g.board row)) r = g.board r :=
      fun r hr => Function.update_of_ne (fun heq : r = row => hrow (heq ▸ hr)) _ _
    rw [List.foldl_cons, ih hrows, BoardOf.mk.injEq, List.foldl_cons]
    constructor
    · funext r
      by_cases heq : r = row
      · subst heq
        simp [hrow]
      · simp [heq]
    · exact List.foldl_ext _ _ _ fun s r hr => congrArg (s + p ·) (hother r hr)

variable {α : Type} [DecidableEq α] [OfNat α 0] [OfNat α 2] [Add α] [Mul α] [ViaFloat α]
  [LawfulCells α]

/-- `left_pressed` shifts every row. -/
theorem leftPressed_eq_shiftRow (g : BoardOf α) : leftPressed g =
    { board := fun r => toRow (shiftRow (List.ofFn (g.board r))).1
      score := (List.finRange 4).foldl
        (fun s r => s + (shiftRow (List.ofFn (g.board r))).2) g.score } := by
  have hrow : (leftRow : BoardOf α → Fin 4 → BoardOf α) = fun g r =>
      { board := Function.update g.board r (toRow (shiftRow (List.ofFn (g.board r))).1)
        score := g.score + (shiftRow (List.ofFn (g.board r))).2 } := by
    funext g r
    rw [leftRow, foldl_leftColumn_eq]
    rfl
  rw [leftPressed, hrow, foldl_rows (fun row => toRow (shiftRow (List.ofFn row)).1)
    (fun row => (shiftRow (List.ofFn row)).2) (List.nodup_finRange 4)]
  simp only [List.mem_finRange, if_true]

theorem rightPressed_eq_shiftRow (g : BoardOf α) : rightPressed g =
    { board := fun r => toRow (shiftRow (List.ofFn (g.board r)).reverse).1.reverse
      score := (List.finRange 4).foldl
        (fun s r => s + (shiftRow (List.ofFn (g.board r)).reverse).2) g.score } := by
  have hrow : (rightRow : BoardOf α → Fin 4 → BoardOf α) = fun g r =>
      { board := Function.update g.board r
          (toRow (shiftRow (List.ofFn (g.board r)).reverse).1.reverse)
        score := g.score + (shiftRow (List.ofFn (g.board r)).reverse).2 } := by
    funext g r
    rw [rightRow, rightColumn_eq, foldl_leftColumn_eq]
    rfl
  rw [rightPressed, hrow, foldl_rows (fun row => toRow (shiftRow (List.ofFn row).reverse).1.reverse)
    (fun row => (shiftRow (List.ofFn row).reverse).2) (List.nodup_finRange 4)]
  simp only [List.mem_finRange, if_true]

end Press

/-- Merging a row of tiles greedily from the left: the tiles left, and among them the
tiles made by a merge, in order. -/
inductive MergesLeft {α : Type} [Add α] : List α → List α → List α → Prop
  | nil : MergesLeft [] [] []
  | pair {t : α} {rest out made : List α} (h : MergesLeft rest out made) :
      MergesLeft (t :: t :: rest) ((t + t) :: out) ((t + t) :: made)
  | single {t : α} {rest out made : List α} (hne : rest.head? ≠ some t)
      (h : MergesLeft rest out made) : MergesLeft (t :: rest) (t :: out) made

theorem MergesLeft.unique {α : Type} [Add α] {row out made out' made' : List α}
    (h : MergesLeft row out made) (h' : MergesLeft row out' made') : out = out' ∧ made = made' := by
  induction h generalizing out' made' with
  | nil =>
    cases h'
    exact ⟨rfl, rfl⟩
  | pair _ ih =>
    cases h' with
    | pair h' =>
      obtain ⟨rfl, rfl⟩ := ih h'
      exact ⟨rfl, rfl⟩
    | single hne _ => exact absurd rfl hne
  | single hne _ ih =>
    cases h' with
    | pair _ => exact absurd rfl hne
    | single _ h' =>
      obtain ⟨rfl, rfl⟩ := ih h'
      exact ⟨rfl, rfl⟩

/-- Each merge takes two tiles and leaves one. -/
theorem MergesLeft.length_add {α : Type} [Add α] {row out made : List α}
    (h : MergesLeft row out made) : out.length + made.length = row.length := by
  induction h with
  | nil => rfl
  | pair _ ih =>
    simp only [List.length_cons]
    omega
  | single _ _ ih =>
    simp only [List.length_cons]
    omega

/-- Without a merge the row stays as it is. -/
theorem MergesLeft.eq_of_length {α : Type} [Add α] {row out made : List α}
    (h : MergesLeft row out made) (hlen : out.length = row.length) : out = row := by
  induction h with
  | nil => rfl
  | pair h _ =>
    have hlen' := h.length_add
    simp only [List.length_cons] at hlen
    omega
  | single _ _ ih => rw [ih (by simpa using hlen)]

section Greedy

variable {α : Type} [DecidableEq α] [OfNat α 0] [Add α]

/-- A consumed tile is passed over: the tile after it is not zero. -/
theorem mergeFrom_zero {rest : List α} (h : 0 ∉ rest) :
    mergeFrom 0 rest = (0 :: (mergeRow rest).1, (mergeRow rest).2) := by
  cases rest with
  | nil => rfl
  | cons next rest =>
    have hne : 0 ≠ next := fun heq => h (heq ▸ List.mem_cons_self)
    rw [mergeFrom, if_neg hne, mergeRow]

/-- The scan of a row without zeros merges it greedily, if no sum of two equal tiles is zero. -/
theorem mergeRow_mergesLeft (row : List α) (hzero : 0 ∉ row) (hsum : ∀ t ∈ row, t + t ≠ 0) :
    ∃ made, MergesLeft row (compact (mergeRow row).1) made ∧
      (mergeRow row).2 = made.foldr (· + ·) 0 := by
  match row, hzero, hsum with
  | [], _, _ => exact ⟨[], MergesLeft.nil, rfl⟩
  | [tile], hzero, _ =>
    refine ⟨[], ?_, rfl⟩
    rw [mergeRow, mergeFrom, compact_eq_self hzero]
    exact MergesLeft.single (by simp) MergesLeft.nil
  | tile :: next :: rest, hzero, hsum =>
    simp only [List.mem_cons, not_or, forall_eq_or_imp] at hzero hsum
    obtain ⟨htile, hnext, hrest⟩ := hzero
    rw [mergeRow, mergeFrom]
    split_ifs with heq
    · subst heq
      obtain ⟨made, hmade, hpoints⟩ := mergeRow_mergesLeft rest hrest hsum.2.2
      refine ⟨(tile + tile) :: made, ?_, ?_⟩
      · rw [mergeFrom_zero hrest, compact_cons hsum.1, compact_cons_zero]
        exact MergesLeft.pair hmade
      · rw [mergeFrom_zero hrest, hpoints, List.foldr_cons]
    · obtain ⟨made, hmade, hpoints⟩ := mergeRow_mergesLeft (next :: rest)
        (by simp [hnext, hrest]) (by simpa using hsum.2)
      refine ⟨made, ?_, hpoints⟩
      rw [compact_cons (Ne.symm htile)]
      exact MergesLeft.single (by simpa using Ne.symm heq) hmade
termination_by row.length

end Greedy

/-- A tile made by a merge does not merge with its equal neighbour. -/
example : leftRow ⟨fun _ => ![2, 2, 4, 8], 0⟩ 0 =
    (⟨![![4, 4, 8, 0], ![2, 2, 4, 8], ![2, 2, 4, 8], ![2, 2, 4, 8]], 4⟩ : Board) := by decide

end OlinCourses.Game2048
