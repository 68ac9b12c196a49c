import Mathlib.Data.BitVec
import Mathlib.Tactic

/-!
# Bit fields, sign extension and byte lanes

Part selects, part-select assignment and little-endian byte lanes of bit
vectors, at arbitrary widths. `x.extractLsb' lo n` is the part select
`x[lo+n-1:lo]`; `setSlice x lo v` is the result of assigning `v` to it.
-/
namespace OlinCourses.Bits

/-- Filling with the sign bit is sign extension. -/
theorem fill_msb_append {w : ℕ} (k : ℕ) (x : BitVec w) :
    BitVec.fill k x.msb ++ x = x.signExtend (k + w) := by
  apply BitVec.eq_of_getLsbD_eq
  intro i hi
  simp only [BitVec.getLsbD_append, BitVec.getLsbD_fill, BitVec.getLsbD_signExtend]
  grind

/-- The value of a part select. -/
theorem extractLsb'_eq_iff {w n : ℕ} (x : BitVec w) (lo : ℕ) (v : BitVec n) :
    x.extractLsb' lo n = v ↔ x.toNat / 2 ^ lo % 2 ^ n = v.toNat := by
  rw [← BitVec.toNat_inj, BitVec.extractLsb'_toNat, Nat.shiftRight_eq_div_pow]

theorem and_not_one_eq_iff {w : ℕ} (x : BitVec w) :
    x &&& ~~~1#w = x ↔ x.getLsbD 0 = false := by
  constructor
  · intro h
    rw [← h]
    simp
  · intro h
    apply BitVec.eq_of_getLsbD_eq
    intro i hi
    cases i with
    | zero => simp [h]
    | succ i => simp [hi]

/-- Part-select assignment `x[lo+n-1:lo] <= v`. -/
def setSlice {w n : ℕ} (x : BitVec w) (lo : ℕ) (v : BitVec n) : BitVec w :=
  (x &&& ~~~((BitVec.allOnes n).setWidth w <<< lo)) ||| (v.setWidth w <<< lo)

theorem getLsbD_setSlice {w n : ℕ} (x : BitVec w) (lo : ℕ) (v : BitVec n) {i : ℕ} (hi : i < w) :
    (setSlice x lo v).getLsbD i =
      if lo ≤ i ∧ i < lo + n then v.getLsbD (i - lo) else x.getLsbD i := by
  simp only [setSlice, BitVec.getLsbD_or, BitVec.getLsbD_and, BitVec.getLsbD_not,
    BitVec.getLsbD_shiftLeft, BitVec.getLsbD_setWidth, BitVec.getLsbD_allOnes, hi, decide_true,
    Bool.true_and]
  by_cases hlo : i < lo
  · simp [hlo, show ¬ (lo ≤ i) by omega]
  · by_cases hn : i - lo < n
    · simp [hlo, hn, show lo ≤ i ∧ i < lo + n by omega, show i - lo < w by omega]
    · simp [hlo, hn, show ¬ (lo ≤ i ∧ i < lo + n) by omega,
        BitVec.getLsbD_of_ge v (i - lo) (by omega)]

/-- A field inside the assigned slice reads the assigned value. -/
theorem extract_setSlice_inside {w n : ℕ} (x : BitVec w) (lo : ℕ) (v : BitVec n) (start len : ℕ)
    (hlo : lo ≤ start) (hn : start + len ≤ lo + n) (hw : start + len ≤ w) :
    (setSlice x lo v).extractLsb' start len = v.extractLsb' (start - lo) len := by
  apply BitVec.eq_of_getLsbD_eq
  intro i hi
  simp only [BitVec.getLsbD_extractLsb', hi, decide_true, Bool.true_and]
  rw [getLsbD_setSlice _ _ _ (by omega), if_pos (by omega)]
  congr 1
  omega

/-- A field disjoint from the assigned slice keeps its value. -/
theorem extract_setSlice_outside {w n : ℕ} (x : BitVec w) (lo : ℕ) (v : BitVec n) (start len : ℕ)
    (hd : start + len ≤ lo ∨ lo + n ≤ start) (hw : start + len ≤ w) :
    (setSlice x lo v).extractLsb' start len = x.extractLsb' start len := by
  apply BitVec.eq_of_getLsbD_eq
  intro i hi
  simp only [BitVec.getLsbD_extractLsb', hi, decide_true, Bool.true_and]
  rw [getLsbD_setSlice _ _ _ (by omega), if_neg (by omega)]

theorem setSlice_all {w : ℕ} (x y : BitVec w) : setSlice x 0 (y.extractLsb' 0 w) = y := by
  apply BitVec.eq_of_getLsbD_eq
  intro i hi
  rw [getLsbD_setSlice _ _ _ hi, if_pos (by omega)]
  simp [hi]

/-- The `k`-th byte of a word, byte 0 being the least significant. -/
def byteLane {w : ℕ} (x : BitVec w) (k : ℕ) : BitVec 8 := x.extractLsb' (8 * k) 8

/-- Assigning the low bytes of `y` to the slice of `n` bytes at byte `j`, seen
byte by byte. -/
theorem byteLane_setSlice {w : ℕ} (x y : BitVec w) (j n k : ℕ) (hk : 8 * k + 8 ≤ w) :
    byteLane (setSlice x (8 * j) (y.extractLsb' 0 (8 * n))) k =
      if j ≤ k ∧ k < j + n then byteLane y (k - j) else byteLane x k := by
  unfold byteLane
  split_ifs with h
  · rw [extract_setSlice_inside _ _ _ _ _ (by omega) (by omega) hk,
      BitVec.extractLsb'_extractLsb'_of_le (by omega)]
    congr 1
    omega
  · exact extract_setSlice_outside _ _ _ _ _ (by omega) hk

/-- Four bytes as a word, most significant byte first. -/
def ofBytes (b₃ b₂ b₁ b₀ : BitVec 8) : BitVec 32 := b₃ ++ b₂ ++ b₁ ++ b₀

theorem ofBytes_byteLane (x : BitVec 32) :
    ofBytes (byteLane x 3) (byteLane x 2) (byteLane x 1) (byteLane x 0) = x := by
  apply BitVec.eq_of_getLsbD_eq
  intro i hi
  simp only [ofBytes, byteLane, BitVec.getLsbD_append, BitVec.getLsbD_extractLsb']
  grind

theorem byteLane_ofBytes (b₃ b₂ b₁ b₀ : BitVec 8) :
    byteLane (ofBytes b₃ b₂ b₁ b₀) 0 = b₀ ∧ byteLane (ofBytes b₃ b₂ b₁ b₀) 1 = b₁ ∧
      byteLane (ofBytes b₃ b₂ b₁ b₀) 2 = b₂ ∧ byteLane (ofBytes b₃ b₂ b₁ b₀) 3 = b₃ := by
  refine ⟨?_, ?_, ?_, ?_⟩
  all_goals
    apply BitVec.eq_of_getLsbD_eq
    intro i hi
    simp only [ofBytes, byteLane, BitVec.getLsbD_append, BitVec.getLsbD_extractLsb']
    grind

theorem toNat_ofBytes (b₃ b₂ b₁ b₀ : BitVec 8) : (ofBytes b₃ b₂ b₁ b₀).toNat =
    b₃.toNat <<< 24 ||| b₂.toNat <<< 16 ||| b₁.toNat <<< 8 ||| b₀.toNat := by
  simp only [ofBytes, BitVec.toNat_append, Nat.shiftLeft_or_distrib, ← Nat.shiftLeft_add]

section Field

variable {w n : ℕ} (x : BitVec w)

/-- A word is the zero extension of its low bits exactly when it is below their range. -/
theorem setWidth_low_eq_iff : (x.extractLsb' 0 n).setWidth w = x ↔ x.toNat < 2 ^ n := by
  rw [← BitVec.toNat_inj, BitVec.toNat_setWidth, BitVec.extractLsb'_toNat, Nat.shiftRight_zero,
    Nat.mod_eq_of_lt ((Nat.mod_le _ _).trans_lt x.isLt)]
  constructor
  · intro h
    rw [← h]
    exact Nat.mod_lt _ (by positivity)
  · exact Nat.mod_eq_of_lt

/-- A word is the sign extension of its low bits exactly when it is in their signed range. -/
theorem signExtend_low_eq_iff (hn : 0 < n) (hw : n ≤ w) : (x.extractLsb' 0 n).signExtend w = x ↔
    -2 ^ (n - 1) ≤ x.toInt ∧ x.toInt < 2 ^ (n - 1) := by
  have hmod : (x.extractLsb' 0 n).toInt = x.toInt.bmod (2 ^ n) := by
    rw [BitVec.toInt_extractLsb', Nat.shiftRight_zero, BitVec.toInt_eq_toNat_bmod,
      Int.bmod_bmod_of_dvd]
    exact_mod_cast Nat.pow_dvd_pow 2 hw
  have hpow : 2 ^ n = 2 * 2 ^ (n - 1) := by
    rw [← Nat.pow_succ', Nat.succ_eq_add_one, Nat.sub_add_cancel hn]
  rw [← BitVec.toInt_inj, BitVec.toInt_signExtend_of_le hw, hmod, hpow]
  have hpos : 0 < 2 ^ (n - 1) := by positivity
  have hcast : ((2 ^ (n - 1) : ℕ) : ℤ) = 2 ^ (n - 1) := by push_cast; rfl
  rw [← hcast]
  generalize 2 ^ (n - 1) = half at hpos
  rw [Int.bmod_eq_iff (by omega), sub_self]
  simp only [dvd_zero, and_true]
  omega

/-- A word is the zero extension of a field above its low bits only if it is zero. -/
theorem setWidth_high_eq_iff {lo : ℕ} (hlo : n ≤ lo) :
    (x.extractLsb' lo n).setWidth w = x ↔ x = 0#w := by
  constructor
  · intro h
    have hbit (i : ℕ) (hi : n ≤ i) : x.getLsbD i = false := by
      rw [← h]
      simp [Nat.not_lt.mpr hi]
    apply BitVec.eq_of_getLsbD_eq
    intro i hi
    rw [← h]
    simp [hbit (lo + i) (by omega)]
  · rintro rfl
    simp

theorem getLsbD_signExtend_extractLsb' {lo i : ℕ} (hn : 0 < n) (hi : i < w) :
    ((x.extractLsb' lo n).signExtend w).getLsbD i =
      if i < n then x.getLsbD (lo + i) else x.getLsbD (lo + (n - 1)) := by
  rw [BitVec.getLsbD_signExtend, BitVec.msb_eq_getLsbD_last]
  simp only [hi, BitVec.getLsbD_extractLsb', decide_true, Bool.true_and]
  split_ifs with h
  · simp [h]
  · simp [hn]

/-- A word is the sign extension of a field above its low bits only if all bits are equal. -/
theorem signExtend_high_eq_iff {lo : ℕ} (hn : 0 < n) (hlo : n ≤ lo) (hw : lo + n ≤ w) :
    (x.extractLsb' lo n).signExtend w = x ↔ x = 0#w ∨ x = BitVec.allOnes w := by
  constructor
  · intro h
    -- every bit equals the sign bit of the field, directly or through the field
    have hhigh (i : ℕ) (hi : i < w) (hni : n ≤ i) : x.getLsbD i = x.getLsbD (lo + (n - 1)) := by
      conv_lhs => rw [← h]
      rw [getLsbD_signExtend_extractLsb' x hn hi, if_neg (Nat.not_lt.mpr hni)]
    have hall (i : ℕ) (hi : i < w) : x.getLsbD i = x.getLsbD (lo + (n - 1)) := by
      by_cases hni : n ≤ i
      · exact hhigh i hi hni
      · conv_lhs => rw [← h]
        rw [getLsbD_signExtend_extractLsb' x hn hi, if_pos (Nat.not_le.mp hni)]
        exact hhigh (lo + i) (by omega) (by omega)
    cases hsign : x.getLsbD (lo + (n - 1)) with
    | false =>
      refine Or.inl (BitVec.eq_of_getLsbD_eq fun i hi => ?_)
      rw [hall i hi, hsign, BitVec.getLsbD_zero]
    | true =>
      refine Or.inr (BitVec.eq_of_getLsbD_eq fun i hi => ?_)
      rw [hall i hi, hsign, BitVec.getLsbD_allOnes, decide_eq_true hi]
  · intro h
    apply BitVec.eq_of_getLsbD_eq
    intro i hi
    rw [getLsbD_signExtend_extractLsb' x hn hi]
    obtain rfl | rfl := h
    · simp
    · simp only [BitVec.getLsbD_allOnes, hi, decide_true]
      split_ifs
      · exact decide_eq_true (by omega)
      · exact decide_eq_true (by omega)

/-- A word is the zero extension of one of its fields. -/
theorem setWidth_field_eq_iff {lo : ℕ} (hlo : lo = 0 ∨ n ≤ lo) :
    (x.extractLsb' lo n).setWidth w = x ↔ x = 0#w ∨ (lo = 0 ∧ x.toNat < 2 ^ n) := by
  obtain rfl | hlo := hlo
  · rw [setWidth_low_eq_iff]
    constructor
    · exact fun h => Or.inr ⟨rfl, h⟩
    · rintro (rfl | h)
      · simp
      · exact h.2
  · rw [setWidth_high_eq_iff x hlo]
    constructor
    · exact Or.inl
    · rintro (h | ⟨rfl, h⟩)
      · exact h
      · obtain rfl := Nat.le_zero.mp hlo
        exact BitVec.eq_of_toNat_eq (by simpa using h)

/-- A word is the sign extension of one of its fields. -/
theorem signExtend_field_eq_iff {lo : ℕ} (hn : 0 < n) (hlo : lo = 0 ∨ n ≤ lo) (hw : lo + n ≤ w) :
    (x.extractLsb' lo n).signExtend w = x ↔ x = 0#w ∨ x = BitVec.allOnes w ∨
      (lo = 0 ∧ -2 ^ (n - 1) ≤ x.toInt ∧ x.toInt < 2 ^ (n - 1)) := by
  have hpos : (0 : ℤ) < 2 ^ (n - 1) := by positivity
  obtain rfl | hlo := hlo
  · rw [signExtend_low_eq_iff x hn (by omega)]
    constructor
    · exact fun h => Or.inr (Or.inr ⟨rfl, h⟩)
    · rintro (rfl | rfl | h)
      · rw [BitVec.toInt_zero]
        omega
      · rw [BitVec.toInt_allOnes, if_pos (by omega)]
        omega
      · exact h.2
  · rw [signExtend_high_eq_iff x hn hlo hw]
    have hlo0 : lo ≠ 0 := by omega
    simp only [hlo0, false_and, or_false]

end Field

/-- Two byte lanes, one after the other. -/
theorem byteLane_append (x : BitVec 32) (k : ℕ) :
    byteLane x (k + 1) ++ byteLane x k = x.extractLsb' (8 * k) 16 := by
  apply BitVec.eq_of_getLsbD_eq
  intro i hi
  simp only [byteLane, BitVec.getLsbD_append, BitVec.getLsbD_extractLsb']
  grind

end OlinCourses.Bits
