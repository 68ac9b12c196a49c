import OlinCourses.Caching.Cache
import OlinCourses.Lib.DirectMapped

/-!
# Address slicing

For parameters that leave at least one tag bit, the three slices of an address are
the quotients and remainders of its value by powers of two, and slices in range
correspond to addresses one to one.
-/
namespace OlinCourses.Caching
open DirectMapped

/-- The line bits leave at least one bit for the tag. -/
def LineParams.Fits (params : LineParams) : Prop :=
  params.numIndexBits.toNat + params.numOffsetBits.toNat < 64

/-- The slices of an address, as numbers. -/
def geometry (params : LineParams) : Geometry Addr ℕ ℕ ℕ where
  tag a := a.toNat / 2 ^ params.numOffsetBits.toNat / 2 ^ params.numIndexBits.toNat
  index a := a.toNat / 2 ^ params.numOffsetBits.toNat % 2 ^ params.numIndexBits.toNat
  offset a := a.toNat % 2 ^ params.numOffsetBits.toNat
  ext _ _ ht hi ho := BitVec.eq_of_toNat_eq (Nat.ext_div_mod (Nat.ext_div_mod ht hi) ho)

section Slices

variable (params : LineParams) (a : Addr)

theorem index_lt : (geometry params).index a < 2 ^ params.numIndexBits.toNat :=
  Nat.mod_lt _ (by positivity)

theorem offset_lt : (geometry params).offset a < 2 ^ params.numOffsetBits.toNat :=
  Nat.mod_lt _ (by positivity)

/-- The slices put together again. -/
theorem toNat_eq_slices : a.toNat =
    (geometry params).tag a * 2 ^ (params.numIndexBits.toNat + params.numOffsetBits.toNat) +
      (geometry params).index a * 2 ^ params.numOffsetBits.toNat + (geometry params).offset a := by
  calc a.toNat
      = a.toNat / 2 ^ params.numOffsetBits.toNat * 2 ^ params.numOffsetBits.toNat +
          (geometry params).offset a := (Nat.div_add_mod' _ _).symm
    _ = ((geometry params).tag a * 2 ^ params.numIndexBits.toNat + (geometry params).index a) *
          2 ^ params.numOffsetBits.toNat + (geometry params).offset a := by
        congr 2
        exact (Nat.div_add_mod' _ _).symm
    _ = _ := by rw [Nat.add_mul, Nat.pow_add, Nat.mul_assoc]

/-- Tag and index are those of the block. -/
theorem same_block_iff (b : Addr) :
    ((geometry params).tag a = (geometry params).tag b ∧
      (geometry params).index a = (geometry params).index b) ↔
    a.toNat / 2 ^ params.numOffsetBits.toNat = b.toNat / 2 ^ params.numOffsetBits.toNat :=
  (Nat.ext_div_mod_iff _ _ _).symm

variable {a} in
theorem toNat_ofNat_of_le {n : ℕ} (h : n ≤ a.toNat) : (BitVec.ofNat 64 n).toNat = n :=
  (BitVec.toNat_ofNat _ _).trans (Nat.mod_eq_of_lt (h.trans_lt a.isLt))

theorem toNat_ofNat_tag :
    (BitVec.ofNat 64 ((geometry params).tag a)).toNat = (geometry params).tag a :=
  toNat_ofNat_of_le ((Nat.div_le_self _ _).trans (Nat.div_le_self _ _))

theorem toNat_ofNat_index :
    (BitVec.ofNat 64 ((geometry params).index a)).toNat = (geometry params).index a :=
  toNat_ofNat_of_le ((Nat.mod_le _ _).trans (Nat.div_le_self _ _))

theorem toNat_ofNat_offset :
    (BitVec.ofNat 64 ((geometry params).offset a)).toNat = (geometry params).offset a :=
  toNat_ofNat_of_le (Nat.mod_le _ _)

end Slices

theorem shl_one {n : Size} (hn : n.toNat < 64) :
    ∃ x, shl 1#64 n = some x ∧ x.toNat = 2 ^ n.toNat := by
  refine ⟨1#64 <<< n.toNat, by simp [shl, hn], ?_⟩
  have h : 2 ^ n.toNat < 2 ^ 64 := Nat.pow_lt_pow_right (by norm_num) hn
  rw [BitVec.toNat_shiftLeft, Nat.shiftLeft_eq]
  simpa using Nat.mod_eq_of_lt h

/-- Masking with `(1 << n) - 1` is the remainder by `2 ^ n`. -/
theorem toNat_and_mask (x y : Size) (n : ℕ) (hy : y.toNat = 2 ^ n) :
    (x &&& (y - 1#64)).toNat = x.toNat % 2 ^ n := by
  have hpos : 0 < 2 ^ n := by positivity
  have hlt := y.isLt
  have hsub : (y - 1#64).toNat = 2 ^ n - 1 := by
    rw [BitVec.toNat_sub]
    simp only [BitVec.toNat_ofNat]
    omega
  rw [BitVec.toNat_and, hsub, Nat.and_two_pow_sub_one_eq_mod]

section Source

variable {params : LineParams} (h : params.Fits) (a : Addr)

include h

theorem toNat_numLineBits : (params.numIndexBits + params.numOffsetBits).toNat =
    params.numIndexBits.toNat + params.numOffsetBits.toNat := by
  unfold LineParams.Fits at h
  rw [BitVec.toNat_add]
  omega

theorem getTag_eq : getTag a params = some (BitVec.ofNat 64 ((geometry params).tag a)) := by
  have hsum := toNat_numLineBits h
  have htag : (geometry params).tag a =
      a.toNat / 2 ^ (params.numIndexBits + params.numOffsetBits).toNat := by
    rw [hsum, Nat.add_comm, Nat.pow_add, ← Nat.div_div_eq_div_mul]
    rfl
  have hbits := h
  rw [LineParams.Fits, ← hsum] at hbits
  unfold getTag
  by_cases hzero : params.numIndexBits + params.numOffsetBits = 0#64
  · have haddr : BitVec.ofNat 64 ((geometry params).tag a) = a := by
      apply BitVec.eq_of_toNat_eq
      rw [toNat_ofNat_tag, htag, hzero]
      simp
    simp [hzero, haddr]
  · have hpos : 0 < (params.numIndexBits + params.numOffsetBits).toNat := by
      rw [Nat.pos_iff_ne_zero]
      exact fun hn => hzero (BitVec.eq_of_toNat_eq hn)
    have htagBits : (ADDR_BITS - (params.numIndexBits + params.numOffsetBits)).toNat =
        64 - (params.numIndexBits + params.numOffsetBits).toNat := by
      rw [ADDR_BITS, BitVec.toNat_sub]
      simp only [BitVec.toNat_ofNat]
      omega
    obtain ⟨y, hy, hval⟩ := shl_one
      (n := ADDR_BITS - (params.numIndexBits + params.numOffsetBits)) (by omega)
    simp only [hzero, if_false, hy, shr, hbits, if_true, Option.bind_eq_bind, Option.bind_some,
      Option.pure_def, Option.some.injEq]
    apply BitVec.eq_of_toNat_eq
    rw [toNat_and_mask _ y _ hval, toNat_ofNat_tag, htag, BitVec.toNat_ushiftRight,
      Nat.shiftRight_eq_div_pow, htagBits]
    apply Nat.mod_eq_of_lt
    rw [Nat.div_lt_iff_lt_mul (by positivity), ← Nat.pow_add]
    have hsplit : 64 - (params.numIndexBits + params.numOffsetBits).toNat +
        (params.numIndexBits + params.numOffsetBits).toNat = 64 := by omega
    rw [hsplit]
    exact a.isLt

theorem getLineIndex_eq :
    getLineIndex a params = some (BitVec.ofNat 64 ((geometry params).index a)) := by
  unfold LineParams.Fits at h
  obtain ⟨y, hy, hval⟩ := shl_one (n := params.numIndexBits) (by omega)
  have ho : params.numOffsetBits.toNat < 64 := by omega
  simp only [getLineIndex, hy, shr, ho, if_true, Option.bind_eq_bind, Option.bind_some,
    Option.pure_def, Option.some.injEq]
  apply BitVec.eq_of_toNat_eq
  rw [toNat_and_mask _ y _ hval, toNat_ofNat_index, BitVec.toNat_ushiftRight,
    Nat.shiftRight_eq_div_pow]
  rfl

theorem numOffsetBits_ne : params.numOffsetBits ≠ ADDR_BITS := by
  intro heq
  rw [LineParams.Fits, heq] at h
  simp [ADDR_BITS] at h

theorem getLineOffset_eq :
    getLineOffset a params = some (BitVec.ofNat 64 ((geometry params).offset a)) := by
  have hne := numOffsetBits_ne h
  unfold LineParams.Fits at h
  obtain ⟨y, hy, hval⟩ := shl_one (n := params.numOffsetBits) (by omega)
  simp only [getLineOffset, hne, if_false, hy, Option.bind_eq_bind, Option.bind_some,
    Option.pure_def, Option.some.injEq]
  apply BitVec.eq_of_toNat_eq
  rw [toNat_and_mask _ y _ hval, toNat_ofNat_offset]
  rfl

end Source

/-- Two addresses of one block have the same block address. -/
theorem blockAddr_add_offset (params : LineParams) {a b : Addr}
    (ht : (geometry params).tag b = (geometry params).tag a)
    (hi : (geometry params).index b = (geometry params).index a) :
    a - BitVec.ofNat 64 ((geometry params).offset a) +
      BitVec.ofNat 64 ((geometry params).offset b) = b := by
  apply BitVec.eq_of_toNat_eq
  have hdiv := (same_block_iff params b a).mp ⟨ht, hi⟩
  have hsplit_a := Nat.div_add_mod a.toNat (2 ^ params.numOffsetBits.toNat)
  have hsplit_b := Nat.div_add_mod b.toNat (2 ^ params.numOffsetBits.toNat)
  have ha : (geometry params).offset a = a.toNat % 2 ^ params.numOffsetBits.toNat := rfl
  have hb : (geometry params).offset b = b.toNat % 2 ^ params.numOffsetBits.toNat := rfl
  rw [hdiv] at hsplit_b
  have hltb := b.isLt
  have hlta := a.isLt
  rw [BitVec.toNat_add, BitVec.toNat_sub, toNat_ofNat_offset, toNat_ofNat_offset, ha, hb]
  omega

section Bounds

variable {params : LineParams} (h : params.Fits)

include h

theorem two_pow_slices : 2 ^ 64 =
    2 ^ (64 - params.numIndexBits.toNat - params.numOffsetBits.toNat) *
      2 ^ (params.numIndexBits.toNat + params.numOffsetBits.toNat) := by
  unfold LineParams.Fits at h
  rw [← Nat.pow_add]
  congr 1
  omega

theorem tag_lt (a : Addr) : (geometry params).tag a <
    2 ^ (64 - params.numIndexBits.toNat - params.numOffsetBits.toNat) := by
  have hparts := toNat_eq_slices params a
  have hlt := a.isLt
  rw [two_pow_slices h] at hlt
  exact Nat.lt_of_mul_lt_mul_right (a := 2 ^ (params.numIndexBits.toNat +
    params.numOffsetBits.toNat)) (by omega)

/-- Every tag, index and offset in range are those of an address. -/
theorem exists_of_slices {t j k : ℕ}
    (ht : t < 2 ^ (64 - params.numIndexBits.toNat - params.numOffsetBits.toNat))
    (hj : j < 2 ^ params.numIndexBits.toNat) (hk : k < 2 ^ params.numOffsetBits.toNat) :
    ∃ a, (geometry params).tag a = t ∧ (geometry params).index a = j ∧
      (geometry params).offset a = k := by
  set block := t * 2 ^ params.numIndexBits.toNat + j with hblock
  have hlt : block * 2 ^ params.numOffsetBits.toNat + k < 2 ^ 64 := by
    have hnext : block + 1 ≤ 2 ^ (64 - params.numIndexBits.toNat - params.numOffsetBits.toNat) *
        2 ^ params.numIndexBits.toNat := by
      have hmul := Nat.mul_le_mul_right (2 ^ params.numIndexBits.toNat) (Nat.succ_le_of_lt ht)
      rw [Nat.succ_mul] at hmul
      omega
    calc block * 2 ^ params.numOffsetBits.toNat + k
        < (block + 1) * 2 ^ params.numOffsetBits.toNat := by rw [Nat.succ_mul]; omega
      _ ≤ _ := Nat.mul_le_mul_right _ hnext
      _ = 2 ^ 64 := by rw [two_pow_slices h, Nat.pow_add, Nat.mul_assoc]
  have hval : (BitVec.ofNat 64 (block * 2 ^ params.numOffsetBits.toNat + k)).toNat =
      block * 2 ^ params.numOffsetBits.toNat + k :=
    (BitVec.toNat_ofNat _ _).trans (Nat.mod_eq_of_lt hlt)
  have hdiv : (block * 2 ^ params.numOffsetBits.toNat + k) / 2 ^ params.numOffsetBits.toNat =
      block :=
    Nat.div_eq_of_lt_le (Nat.le_add_right _ _) (by rw [Nat.succ_mul]; omega)
  refine ⟨BitVec.ofNat 64 (block * 2 ^ params.numOffsetBits.toNat + k), ?_, ?_, ?_⟩
  · simp only [geometry, hval, hdiv]
    exact Nat.div_eq_of_lt_le (by omega) (by rw [Nat.succ_mul]; omega)
  · simp only [geometry, hval, hdiv]
    exact Nat.mul_add_mod_of_lt hj
  · simp only [geometry, hval]
    exact Nat.mul_add_mod_of_lt hk

/-- Every position of the block of `a` is the offset of an address of that block. -/
theorem exists_of_offset (a : Addr) {k : ℕ} (hk : k < 2 ^ params.numOffsetBits.toNat) :
    ∃ b, (geometry params).tag b = (geometry params).tag a ∧
      (geometry params).index b = (geometry params).index a ∧ (geometry params).offset b = k :=
  exists_of_slices h (tag_lt h a) (index_lt params a) hk

end Bounds

section Bijection

variable {params : LineParams} (h : params.Fits)

include h

theorem getTag_eq_some_iff (a : Addr) (t : Size) :
    getTag a params = some t ↔ (geometry params).tag a = t.toNat := by
  rw [getTag_eq h, Option.some_inj, ← BitVec.toNat_inj, toNat_ofNat_tag]

theorem getLineIndex_eq_some_iff (a : Addr) (j : Size) :
    getLineIndex a params = some j ↔ (geometry params).index a = j.toNat := by
  rw [getLineIndex_eq h, Option.some_inj, ← BitVec.toNat_inj, toNat_ofNat_index]

theorem getLineOffset_eq_some_iff (a : Addr) (k : Size) :
    getLineOffset a params = some k ↔ (geometry params).offset a = k.toNat := by
  rw [getLineOffset_eq h, Option.some_inj, ← BitVec.toNat_inj, toNat_ofNat_offset]

theorem getTag_eq_iff (a b : Addr) :
    getTag a params = getTag b params ↔ (geometry params).tag a = (geometry params).tag b := by
  rw [getTag_eq h b, getTag_eq_some_iff h, toNat_ofNat_tag]

theorem getLineIndex_eq_iff (a b : Addr) :
    getLineIndex a params = getLineIndex b params ↔
      (geometry params).index a = (geometry params).index b := by
  rw [getLineIndex_eq h b, getLineIndex_eq_some_iff h, toNat_ofNat_index]

/-- An address is put together from its slices, any three slices in range are those of exactly
one address, and two addresses share tag and index exactly when they share a block. -/
theorem slices_bijection :
    (∀ a, ∃ t j k, getTag a params = some t ∧ getLineIndex a params = some j ∧
      getLineOffset a params = some k ∧
      a.toNat = t.toNat * 2 ^ (params.numIndexBits.toNat + params.numOffsetBits.toNat) +
        j.toNat * 2 ^ params.numOffsetBits.toNat + k.toNat ∧
      t.toNat < 2 ^ (64 - params.numIndexBits.toNat - params.numOffsetBits.toNat) ∧
      j.toNat < 2 ^ params.numIndexBits.toNat ∧ k.toNat < 2 ^ params.numOffsetBits.toNat) ∧
    (∀ t j k : Size,
      t.toNat < 2 ^ (64 - params.numIndexBits.toNat - params.numOffsetBits.toNat) →
      j.toNat < 2 ^ params.numIndexBits.toNat → k.toNat < 2 ^ params.numOffsetBits.toNat →
      ∃! a, getTag a params = some t ∧ getLineIndex a params = some j ∧
        getLineOffset a params = some k) ∧
    (∀ a b, (getTag a params = getTag b params ∧
      getLineIndex a params = getLineIndex b params) ↔
        a.toNat / 2 ^ params.numOffsetBits.toNat = b.toNat / 2 ^ params.numOffsetBits.toNat) := by
  refine ⟨?_, ?_, ?_⟩
  · intro a
    refine ⟨_, _, _, getTag_eq h a, getLineIndex_eq h a, getLineOffset_eq h a, ?_⟩
    rw [toNat_ofNat_tag, toNat_ofNat_index, toNat_ofNat_offset]
    exact ⟨toNat_eq_slices params a, tag_lt h a, index_lt params a, offset_lt params a⟩
  · intro t j k ht hj hk
    simp only [getTag_eq_some_iff h, getLineIndex_eq_some_iff h, getLineOffset_eq_some_iff h]
    obtain ⟨a, ha⟩ := exists_of_slices h ht hj hk
    refine ⟨a, ha, ?_⟩
    rintro b ⟨hbt, hbj, hbk⟩
    exact (geometry params).ext b a (hbt.trans ha.1.symm) (hbj.trans ha.2.1.symm)
      (hbk.trans ha.2.2.symm)
  · intro a b
    rw [getTag_eq_iff h, getLineIndex_eq_iff h]
    exact same_block_iff params a b

end Bijection

theorem slices_bijection_upper_quarter :
    ∃ t j k, getTag 0xfedcba9876543210#64 ⟨32#64, 16#64⟩ = some t ∧
      getLineIndex 0xfedcba9876543210#64 ⟨32#64, 16#64⟩ = some j ∧
      getLineOffset 0xfedcba9876543210#64 ⟨32#64, 16#64⟩ = some k ∧
      (0xfedcba9876543210#64).toNat = t.toNat * 2 ^ (32 + 16) + j.toNat * 2 ^ 16 + k.toNat ∧
      t.toNat < 2 ^ (64 - 32 - 16) ∧ j.toNat < 2 ^ 32 ∧ k.toNat < 2 ^ 16 :=
  (@slices_bijection ⟨32#64, 16#64⟩ (by simp [LineParams.Fits])).1
    0xfedcba9876543210#64

end OlinCourses.Caching
