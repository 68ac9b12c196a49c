import OlinCourses.Caching.Slicing

/-!
# The shifts of the address slices

`get_line_offset` and `block_size` test for 64 offset bits before they shift, while
`get_tag` tests only for no line bits at all, so it shifts by 64 when the line bits
leave no bit for the tag.
-/
namespace OlinCourses.Caching

theorem shl_isSome_iff (x n : Size) : (shl x n).isSome ↔ n.toNat < 64 := by
  unfold shl
  split_ifs with hn
  · simpa using hn
  · simpa using hn

theorem shr_isSome_iff (x n : Size) : (shr x n).isSome ↔ n.toNat < 64 := by
  unfold shr
  split_ifs with hn
  · simpa using hn
  · simpa using hn

/-- A mask from one shift, applied to the value of another. -/
theorem shl_bind_shr_isSome_iff (x n y m : Size) (f : Size → Size → Size) :
    ((shl x n).bind fun mask => (shr y m).bind fun z => some (f mask z)).isSome ↔
      n.toNat < 64 ∧ m.toNat < 64 := by
  rw [← shl_isSome_iff x n, ← shr_isSome_iff y m]
  cases shl x n with
  | none => simp
  | some mask =>
    cases shr y m with
    | none => simp
    | some z => simp

/-- Every shift that the four functions make is by less than 64. -/
structure ShiftsDefined (c : Cache) (addr : Addr) : Prop where
  tag : (getTag addr c.params).isSome
  lineIndex : (getLineIndex addr c.params).isSome
  lineOffset : (getLineOffset addr c.params).isSome
  blockSize : (blockSize c).isSome

section Source

variable (params : LineParams) (addr : Addr)

theorem getTag_isSome_iff : (getTag addr params).isSome ↔
    params.numIndexBits + params.numOffsetBits = 0#64 ∨
      (ADDR_BITS - (params.numIndexBits + params.numOffsetBits)).toNat < 64 ∧
        (params.numIndexBits + params.numOffsetBits).toNat < 64 := by
  unfold getTag
  by_cases hzero : params.numIndexBits + params.numOffsetBits = 0#64
  · simp [hzero]
  · simp only [hzero, if_false, false_or]
    exact shl_bind_shr_isSome_iff _ _ _ _ fun mask tag => tag &&& (mask - 1#64)

theorem getLineIndex_isSome_iff : (getLineIndex addr params).isSome ↔
    params.numIndexBits.toNat < 64 ∧ params.numOffsetBits.toNat < 64 :=
  shl_bind_shr_isSome_iff _ _ _ _ fun mask index => index &&& (mask - 1#64)

theorem getLineOffset_isSome_iff : (getLineOffset addr params).isSome ↔
    params.numOffsetBits.toNat ≤ 64 := by
  unfold getLineOffset
  split_ifs with hall
  · simp [hall, ADDR_BITS]
  · have hne : params.numOffsetBits.toNat ≠ 64 := fun h => hall (BitVec.eq_of_toNat_eq h)
    have hshift : ((shl 1#64 params.numOffsetBits).bind fun mask =>
        some (addr &&& (mask - 1#64))).isSome ↔ params.numOffsetBits.toNat < 64 := by
      rw [← shl_isSome_iff 1#64]
      cases shl 1#64 params.numOffsetBits with
      | none => simp
      | some mask => simp
    exact hshift.trans (by omega)

theorem blockSize_isSome_iff (c : Cache) : (blockSize c).isSome ↔
    c.params.numOffsetBits.toNat ≤ 64 := by
  unfold blockSize
  split_ifs with hall
  · simp [hall, ADDR_BITS]
  · have hne : c.params.numOffsetBits.toNat ≠ 64 := fun h => hall (BitVec.eq_of_toNat_eq h)
    rw [shl_isSome_iff]
    omega

end Source

/-- Up to 64 line bits, the shifts are defined when at least one bit is left for the tag. -/
theorem shiftsDefined_iff (c : Cache) (addr : Addr)
    (h : c.params.numIndexBits.toNat + c.params.numOffsetBits.toNat ≤ 64) :
    ShiftsDefined c addr ↔ c.params.numIndexBits.toNat + c.params.numOffsetBits.toNat < 64 := by
  have hsum : (c.params.numIndexBits + c.params.numOffsetBits).toNat =
      c.params.numIndexBits.toNat + c.params.numOffsetBits.toNat := by
    rw [BitVec.toNat_add]
    omega
  constructor
  · intro hdef
    obtain hzero | ⟨-, hbits⟩ := (getTag_isSome_iff c.params addr).mp hdef.tag
    · rw [hzero] at hsum
      simp only [BitVec.toNat_ofNat] at hsum
      omega
    · rwa [hsum] at hbits
  · intro hfits
    refine ⟨?_, ?_, ?_, ?_⟩
    · rw [getTag_eq hfits]
      rfl
    · exact (getLineIndex_isSome_iff c.params addr).mpr ⟨by omega, by omega⟩
    · exact (getLineOffset_isSome_iff c.params addr).mpr (by omega)
    · exact (blockSize_isSome_iff c).mpr (by omega)

theorem shiftsDefined_four_offset_bits :
    ShiftsDefined ⟨[], ⟨16#64, 4#64⟩, 0#64, 0#64, 0#64⟩ 0xfedcba9876543210#64 ↔
      (16#64 : Size).toNat + (4#64 : Size).toNat < 64 :=
  shiftsDefined_iff ⟨[], ⟨16#64, 4#64⟩, 0#64, 0#64, 0#64⟩ 0xfedcba9876543210#64 (by decide)

/-- With 64 offset bits or 64 index bits some shift is by 64. -/
theorem shifts_undefined_extremes :
    ¬ (∀ (c : Cache) (addr : Addr),
      c.params.numIndexBits.toNat + c.params.numOffsetBits.toNat ≤ 64 → ShiftsDefined c addr) ∧
    getTag 0xfedcba9876543210#64 ⟨0#64, 64#64⟩ = none ∧
    getLineIndex 0xfedcba9876543210#64 ⟨0#64, 64#64⟩ = none ∧
    getLineOffset 0xfedcba9876543210#64 ⟨0#64, 64#64⟩ = some 0xfedcba9876543210#64 ∧
    getTag 0xfedcba9876543210#64 ⟨64#64, 0#64⟩ = none ∧
    getLineIndex 0xfedcba9876543210#64 ⟨64#64, 0#64⟩ = none := by
  have htag : getTag 0xfedcba9876543210#64 ⟨0#64, 64#64⟩ = none := by decide
  refine ⟨?_, htag, by decide, by decide, by decide, by decide⟩
  intro hall
  have hdef := (hall ⟨[], ⟨0#64, 64#64⟩, 0#64, 0#64, 0#64⟩ 0xfedcba9876543210#64 (by decide)).tag
  rw [htag] at hdef
  cases hdef

end OlinCourses.Caching
