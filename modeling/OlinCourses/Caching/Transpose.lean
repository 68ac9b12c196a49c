import OlinCourses.Caching.Run
import OlinCourses.Lib.Copying
import OlinCourses.Lib.Loop
import Mathlib.LinearAlgebra.Matrix.Defs

/-!
# Transposing a matrix through the cache

`transpose.c`: matrices are blocks of memory in row-major order. The reference
transposition loads every byte of its source and stores it in its destination
through one cache, and `is_transpose` compares two matrices without the cache.
-/
namespace OlinCourses.Caching
open Copying

/-- `matrix + row * width + col`. -/
def getAddr (matrix : Addr) (width row col : Size) : Addr := matrix + row * width + col

/-- The two loops return 0 at the first byte that differs. -/
def isTranspose (mem : Memory) (lhs rhs : Addr) (height width : Size) : ℤ :=
  if (List.range height.toNat).all fun row => (List.range width.toNat).all fun col =>
      mem (getAddr lhs width (BitVec.ofNat 64 row) (BitVec.ofNat 64 col)) ==
        mem (getAddr rhs height (BitVec.ofNat 64 col) (BitVec.ofNat 64 row))
  then 1 else 0

/-- The body of the two loops. -/
def transposeByte (src dst : Addr) (height width : Size) (s : Machine) (position : ℕ × ℕ) :
    Option Machine := do
  let (row, col) := position
  let srcAddr := getAddr src width (BitVec.ofNat 64 row) (BitVec.ofNat 64 col)
  let dstAddr := getAddr dst height (BitVec.ofNat 64 col) (BitVec.ofNat 64 row)
  let (srcByte, cache) ← load s.cache s.mem srcAddr
  let (cache, mem) ← store cache s.mem dstAddr srcByte
  return { cache, mem }

def transposeRef (src dst : Addr) (height width : Size) (s : Machine) : Option Machine :=
  (List.range height.toNat).foldlM (fun s row =>
    (List.range width.toNat).foldlM (fun s col =>
      transposeByte src dst height width s (row, col)) s) s

/-- The matrix that a block of memory holds. -/
def matrixAt (mem : Memory) (matrix : Addr) (height width : Size) :
    Matrix (Fin height.toNat) (Fin width.toNat) Byte :=
  Matrix.of fun row col =>
    mem (getAddr matrix width (BitVec.ofNat 64 row) (BitVec.ofNat 64 col))

/-- The addresses of a matrix with so many bytes. -/
def region (matrix : Addr) (size : ℕ) : Set Addr :=
  {a | matrix.toNat ≤ a.toNat ∧ a.toNat < matrix.toNat + size}

theorem isTranspose_eq_one_iff (mem : Memory) (lhs rhs : Addr) (height width : Size) :
    isTranspose mem lhs rhs height width = 1 ↔
      matrixAt mem rhs width height = (matrixAt mem lhs height width).transpose := by
  have hall : isTranspose mem lhs rhs height width = 1 ↔
      ∀ row < height.toNat, ∀ col < width.toNat,
        mem (getAddr lhs width (BitVec.ofNat 64 row) (BitVec.ofNat 64 col)) =
          mem (getAddr rhs height (BitVec.ofNat 64 col) (BitVec.ofNat 64 row)) := by
    simp [isTranspose, List.all_eq_true]
  rw [hall]
  constructor
  · intro h
    funext col row
    exact (h row row.isLt col col.isLt).symm
  · intro h row hrow col hcol
    exact (congrFun (congrFun h ⟨col, hcol⟩) ⟨row, hrow⟩).symm

section Addressing

variable {matrix : Addr} {height width : Size} {row col : ℕ}

theorem row_mul_add_lt (hrow : row < height.toNat) (hcol : col < width.toNat) :
    row * width.toNat + col < height.toNat * width.toNat := by
  calc row * width.toNat + col < (row + 1) * width.toNat := by rw [Nat.succ_mul]; omega
    _ ≤ height.toNat * width.toNat := Nat.mul_le_mul_right _ hrow

/-- In a block that ends within the address space, addresses are plain numbers. -/
theorem toNat_getAddr (hfit : matrix.toNat + height.toNat * width.toNat ≤ 2 ^ 64)
    (hrow : row < height.toNat) (hcol : col < width.toNat) :
    (getAddr matrix width (BitVec.ofNat 64 row) (BitVec.ofNat 64 col)).toNat =
      matrix.toNat + (row * width.toNat + col) := by
  have hlt := row_mul_add_lt hrow hcol
  have hmul : (BitVec.ofNat 64 row * width).toNat = row * width.toNat := by
    rw [BitVec.toNat_mul, BitVec.toNat_ofNat, Nat.mod_eq_of_lt (hrow.trans height.isLt),
      Nat.mod_eq_of_lt (by omega)]
  have hcol' : (BitVec.ofNat 64 col).toNat = col :=
    (BitVec.toNat_ofNat _ _).trans (Nat.mod_eq_of_lt (hcol.trans width.isLt))
  rw [getAddr, BitVec.toNat_add, BitVec.toNat_add, hmul, hcol']
  omega

theorem getAddr_mem_region (hfit : matrix.toNat + height.toNat * width.toNat ≤ 2 ^ 64)
    (hrow : row < height.toNat) (hcol : col < width.toNat) :
    getAddr matrix width (BitVec.ofNat 64 row) (BitVec.ofNat 64 col) ∈
      region matrix (height.toNat * width.toNat) := by
  have hlt := row_mul_add_lt hrow hcol
  refine ⟨?_, ?_⟩
  · rw [toNat_getAddr hfit hrow hcol]
    omega
  · rw [toNat_getAddr hfit hrow hcol]
    omega

/-- Different positions of a matrix have different addresses. -/
theorem getAddr_inj {row' col' : ℕ}
    (hfit : matrix.toNat + height.toNat * width.toNat ≤ 2 ^ 64)
    (hrow : row < height.toNat) (hcol : col < width.toNat)
    (hrow' : row' < height.toNat) (hcol' : col' < width.toNat)
    (h : getAddr matrix width (BitVec.ofNat 64 row) (BitVec.ofNat 64 col) =
      getAddr matrix width (BitVec.ofNat 64 row') (BitVec.ofNat 64 col')) :
    row = row' ∧ col = col' := by
  have hnum := congrArg BitVec.toNat h
  rw [toNat_getAddr hfit hrow hcol, toNat_getAddr hfit hrow' hcol', Nat.add_left_cancel_iff] at hnum
  have hdiv := congrArg (· / width.toNat) hnum
  have hmod := congrArg (· % width.toNat) hnum
  have hpos : 0 < width.toNat := by omega
  simp only [Nat.mul_add_mod_of_lt hcol, Nat.mul_add_mod_of_lt hcol'] at hmod
  simp only [Nat.mul_comm _ width.toNat, Nat.mul_add_div hpos, Nat.div_eq_of_lt hcol,
    Nat.div_eq_of_lt hcol', Nat.add_zero] at hdiv
  exact ⟨hdiv, hmod⟩

end Addressing

section Loops

variable (src dst : Addr) (height width : Size)

/-- Where a position is read. -/
def srcAt (position : ℕ × ℕ) : Addr :=
  getAddr src width (BitVec.ofNat 64 position.1) (BitVec.ofNat 64 position.2)

/-- Where it is written. -/
def dstAt (position : ℕ × ℕ) : Addr :=
  getAddr dst height (BitVec.ofNat 64 position.2) (BitVec.ofNat 64 position.1)

/-- The positions in the order of the loops. -/
def positions : List (ℕ × ℕ) := List.range height.toNat ×ˢ List.range width.toNat

variable {src dst height width}

theorem mem_positions {position : ℕ × ℕ} : position ∈ positions height width ↔
    position.1 < height.toNat ∧ position.2 < width.toNat := by
  rw [positions, List.mem_product, List.mem_range, List.mem_range]

theorem matrixAt_srcAt (mem : Memory) (row : Fin height.toNat) (col : Fin width.toNat) :
    matrixAt mem src height width row col = mem (srcAt src width (row, col)) := rfl

theorem matrixAt_dstAt (mem : Memory) (row : Fin height.toNat) (col : Fin width.toNat) :
    matrixAt mem dst width height col row = mem (dstAt dst height (row, col)) := rfl

theorem transposeByte_spec {s : Machine} (hc : s.cache.Sized) (hcoh : Coherent s.cache s.mem)
    (position : ℕ × ℕ) : ∃ s', transposeByte src dst height width s position = some s' ∧
      (s'.cache.Sized ∧ Coherent s'.cache s'.mem) ∧
      s'.mem = copy (srcAt src width) (dstAt dst height) s.mem position := by
  obtain ⟨c, hload, hacc, hcoh'⟩ := load_spec hc hcoh (srcAt src width position)
  obtain ⟨c', hstore, hacc', hcoh''⟩ :=
    store_spec hacc.sized hcoh' (dstAt dst height position) (s.mem (srcAt src width position))
  rw [srcAt] at hload hstore
  rw [dstAt] at hstore
  refine ⟨⟨c', copy (srcAt src width) (dstAt dst height) s.mem position⟩, ?_,
    ⟨hacc'.sized, hcoh''⟩, rfl⟩
  simp only [transposeByte, hload, Option.bind_eq_bind, Option.bind_some, hstore, Option.pure_def]
  rfl

/-- Through any coherent cache the loops do what they would do on memory alone. -/
theorem transposeRef_eq_copyAll {s : Machine} (hc : s.cache.Sized)
    (hcoh : Coherent s.cache s.mem) : ∃ s', transposeRef src dst height width s = some s' ∧
      (s'.cache.Sized ∧ Coherent s'.cache s'.mem) ∧
      s'.mem = copyAll (srcAt src width) (dstAt dst height) s.mem (positions height width) := by
  have hbody : ∀ s : Machine, s.cache.Sized ∧ Coherent s.cache s.mem →
      ∀ position ∈ positions height width,
        ∃ s', transposeByte src dst height width s position = some s' ∧
          (s'.cache.Sized ∧ Coherent s'.cache s'.mem) ∧
          s'.mem = copy (srcAt src width) (dstAt dst height) s.mem position :=
    fun s hs position _ => transposeByte_spec hs.1 hs.2 position
  obtain ⟨s', hrun, hinv, hmem⟩ := Loop.foldlM_simulates _ Machine.mem _ hbody ⟨hc, hcoh⟩
  exact ⟨s', (Loop.foldlM_product _ _ _ _).trans hrun, hinv, hmem⟩

/-- The two matrices lie within the address space, apart from each other. -/
structure Separate (src dst : Addr) (height width : Size) : Prop where
  src_fits : src.toNat + height.toNat * width.toNat ≤ 2 ^ 64
  dst_fits : dst.toNat + height.toNat * width.toNat ≤ 2 ^ 64
  disjoint : ∀ a ∈ region src (height.toNat * width.toNat),
    a ∉ region dst (height.toNat * width.toNat)

namespace Separate

variable (h : Separate src dst height width)

include h

theorem dst_fits_transposed : dst.toNat + width.toNat * height.toNat ≤ 2 ^ 64 := by
  rw [Nat.mul_comm]
  exact h.dst_fits

theorem srcAt_mem {position : ℕ × ℕ} (hp : position ∈ positions height width) :
    srcAt src width position ∈ region src (height.toNat * width.toNat) :=
  getAddr_mem_region h.src_fits (mem_positions.mp hp).1 (mem_positions.mp hp).2

theorem dstAt_mem {position : ℕ × ℕ} (hp : position ∈ positions height width) :
    dstAt dst height position ∈ region dst (height.toNat * width.toNat) := by
  rw [Nat.mul_comm]
  exact getAddr_mem_region h.dst_fits_transposed (mem_positions.mp hp).2 (mem_positions.mp hp).1

theorem dstAt_ne_srcAt : ∀ p ∈ positions height width, ∀ q ∈ positions height width,
    dstAt dst height p ≠ srcAt src width q := by
  intro p hp q hq heq
  exact h.disjoint _ (heq ▸ h.srcAt_mem hq) (h.dstAt_mem hp)

theorem dstAt_injOn : Set.InjOn (dstAt dst height) {p | p ∈ positions height width} := by
  intro p hp q hq heq
  obtain ⟨hprow, hpcol⟩ := mem_positions.mp hp
  obtain ⟨hqrow, hqcol⟩ := mem_positions.mp hq
  obtain ⟨hcol, hrow⟩ := getAddr_inj h.dst_fits_transposed hpcol hprow hqcol hqrow heq
  exact Prod.ext hrow hcol

end Separate

end Loops

/-- The reference transposition transposes, writes nothing but its destination, and
`is_transpose` tells whether one matrix is the transpose of the other. -/
theorem transposeRef_spec (src dst : Addr) (height width : Size) (s : Machine)
    (hc : s.cache.Sized) (hcoh : Coherent s.cache s.mem) (hsep : Separate src dst height width) :
    (∃ s', transposeRef src dst height width s = some s' ∧
      matrixAt s'.mem dst width height = (matrixAt s.mem src height width).transpose ∧
      matrixAt s'.mem src height width = matrixAt s.mem src height width ∧
      (∀ a ∉ region dst (height.toNat * width.toNat), s'.mem a = s.mem a) ∧
      isTranspose s'.mem src dst height width = 1) ∧
    ∀ (mem : Memory) (lhs rhs : Addr) (height width : Size),
      isTranspose mem lhs rhs height width = 1 ↔
        matrixAt mem rhs width height = (matrixAt mem lhs height width).transpose := by
  obtain ⟨s', hrun, -, hmem⟩ := transposeRef_eq_copyAll hc hcoh
  have hdst : matrixAt s'.mem dst width height = (matrixAt s.mem src height width).transpose := by
    funext col row
    have hp : ((row : ℕ), (col : ℕ)) ∈ positions height width :=
      mem_positions.mpr ⟨row.isLt, col.isLt⟩
    rw [Matrix.transpose_apply, matrixAt_dstAt, matrixAt_srcAt, hmem]
    exact copyAll_dst hsep.dstAt_injOn hsep.dstAt_ne_srcAt s.mem hp
  have hsrc : matrixAt s'.mem src height width = matrixAt s.mem src height width := by
    funext row col
    have hp : ((row : ℕ), (col : ℕ)) ∈ positions height width :=
      mem_positions.mpr ⟨row.isLt, col.isLt⟩
    rw [matrixAt_srcAt, matrixAt_srcAt, hmem]
    exact copyAll_src hsep.dstAt_ne_srcAt s.mem hp
  refine ⟨⟨s', hrun, hdst, hsrc, ?_, ?_⟩, isTranspose_eq_one_iff⟩
  · intro a ha
    rw [hmem]
    apply copyAll_frame
    intro p hp heq
    exact ha (heq ▸ hsep.dstAt_mem hp)
  · rw [isTranspose_eq_one_iff, hsrc]
    exact hdst

theorem transposeRef_spec_two_by_three : ∃ c,
    makeCache ⟨1#64, 2#64⟩ (fun _ _ => 0#8) = some c ∧
    ∃ s', transposeRef 16#64 22#64 2#64 3#64 ⟨c, BitVec.setWidth 8⟩ = some s' ∧
      matrixAt s'.mem 22#64 3#64 2#64 =
        (matrixAt (BitVec.setWidth 8) 16#64 2#64 3#64).transpose ∧
      isTranspose s'.mem 16#64 22#64 2#64 3#64 = 1 := by
  have hfits : LineParams.Fits ⟨1#64, 2#64⟩ := by simp [LineParams.Fits]
  obtain ⟨c, hc⟩ :=
    Option.isSome_iff_exists.mp ((makeCache_isSome_iff hfits fun _ _ => 0#8).mpr (by decide))
  have hfresh := after_nil hfits hc (BitVec.setWidth 8)
  have hsep : Separate 16#64 22#64 2#64 3#64 := by
    refine ⟨by decide, by decide, ?_⟩
    rintro a ⟨-, hsrc⟩ ⟨hdst, -⟩
    simp only [BitVec.toNat_ofNat] at hsrc hdst
    omega
  obtain ⟨s', hrun, hdst, -, -, hresult⟩ := (transposeRef_spec 16#64 22#64 2#64 3#64
    ⟨c, BitVec.setWidth 8⟩ hfresh.sized hfresh.coherent hsep).1
  exact ⟨c, hc, s', hrun, hdst, hresult⟩

end OlinCourses.Caching
