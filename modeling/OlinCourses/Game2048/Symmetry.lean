import OlinCourses.Game2048.Rows

/-!
# The four moves up to symmetry

`right_pressed` is a second copy of the loop of `left_pressed` between two reversals.
Mirroring the board turns one into the other, and transposing it turns them into the
vertical moves.
-/
namespace OlinCourses.Game2048

section Symmetry

variable {α : Type}

/-- Every row reversed. -/
def mirror (g : BoardOf α) : BoardOf α := { g with board := fun r c => g.board r c.rev }

/-- The rows in reverse order. -/
def upsideDown (g : BoardOf α) : BoardOf α := { g with board := fun r c => g.board r.rev c }

@[simp] theorem mirror_board (g : BoardOf α) (r c : Fin 4) :
    (mirror g).board r c = g.board r c.rev := rfl

@[simp] theorem mirror_mirror (g : BoardOf α) : mirror (mirror g) = g := by
  simp [mirror]

@[simp] theorem transpose_transpose (g : BoardOf α) : transpose (transpose g) = g := rfl

@[simp] theorem transpose_mirror (g : BoardOf α) :
    transpose (mirror g) = upsideDown (transpose g) := rfl

@[simp] theorem transpose_upsideDown (g : BoardOf α) :
    transpose (upsideDown g) = mirror (transpose g) := rfl

@[simp] theorem upsideDown_upsideDown (g : BoardOf α) : upsideDown (upsideDown g) = g := by
  simp [upsideDown]

theorem ofFn_rev (f : Fin 4 → α) : (List.ofFn fun c => f c.rev) = (List.ofFn f).reverse := by
  apply List.ext_getElem
  · simp
  · intro c hc hc'
    rw [List.getElem_ofFn, List.getElem_reverse, List.getElem_ofFn]
    congr 1
    apply Fin.ext
    simp only [Fin.val_rev, List.length_ofFn]
    omega

theorem toRow_reverse [OfNat α 0] {row : List α} (hrow : row.length = 4) (c : Fin 4) :
    toRow row.reverse c = toRow row c.rev := by
  apply congrFun
  apply List.ofFn_injective
  rw [ofFn_toRow _ (by rw [List.length_reverse, hrow]), ofFn_rev, ofFn_toRow row hrow]

variable [DecidableEq α] [OfNat α 0] [OfNat α 2] [Add α] [Mul α] [ViaFloat α] [LawfulCells α]

/-- The two copies of the loop agree. -/
theorem rightPressed_eq (g : BoardOf α) : rightPressed g = mirror (leftPressed (mirror g)) := by
  have hrow : ∀ r, List.ofFn ((mirror g).board r) = (List.ofFn (g.board r)).reverse :=
    fun r => ofFn_rev (g.board r)
  rw [rightPressed_eq_shiftRow, leftPressed_eq_shiftRow, mirror, BoardOf.mk.injEq]
  refine ⟨?_, ?_⟩
  · funext r c
    have hlen : (List.ofFn (g.board r)).reverse.length = 4 := by simp
    simp only [hrow]
    exact toRow_reverse (length_shiftRow _ hlen) c
  · simp only [hrow]
    rfl

theorem downPressed_eq (g : BoardOf α) : downPressed g = upsideDown (upPressed (upsideDown g)) := by
  rw [downPressed, rightPressed_eq, upPressed, transpose_mirror, transpose_upsideDown]

end Symmetry

/-- One algorithm, reached from the other three directions by mirroring and transposing. -/
theorem moves_symmetric (g : Board) :
    rightPressed g = mirror (leftPressed (mirror g)) ∧
    upPressed g = transpose (leftPressed (transpose g)) ∧
    downPressed g = transpose (rightPressed (transpose g)) ∧
    downPressed g = upsideDown (upPressed (upsideDown g)) ∧
    upPressed g = upsideDown (downPressed (upsideDown g)) := by
  refine ⟨rightPressed_eq g, rfl, rfl, downPressed_eq g, ?_⟩
  rw [downPressed_eq, upsideDown_upsideDown, upsideDown_upsideDown]

end OlinCourses.Game2048
