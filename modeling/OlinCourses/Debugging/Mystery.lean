import Mathlib.Data.BitVec
import OlinCourses.Lib.Reciprocal

/-!
# Division by a 32-bit reciprocal

`mystery.c`: a quotient as the product with the reciprocal of the divisor, scaled by
`2 ^ 32` and rounded up. The error of the reciprocal shows for large numbers.
-/
namespace OlinCourses.Debugging
open Reciprocal

/-- A division by zero is undefined, written `none`. -/
def computeR (k : BitVec 32) : Option (BitVec 32) :=
  let k64 := k.setWidth 64
  if k64 = 0#64 then none
  else some ((((1#64 <<< 32) + (k64 - 1#64)) / k64).setWidth 32)

def processR (n R : BitVec 32) : BitVec 32 :=
  ((n.setWidth 64 * R.setWidth 64) >>> 32).setWidth 32

def f (n k : BitVec 32) : Option (BitVec 32) := do
  let R ← computeR k
  return processR n R

theorem toNat_widen (x : BitVec 32) : (x.setWidth 64).toNat = x.toNat := by
  rw [BitVec.toNat_setWidth]
  omega

/-- The sum does not overflow; the quotient does for `k = 1`. -/
theorem computeR_eq {k : BitVec 32} (hk : 1 ≤ k.toNat) :
    ∃ R, computeR k = some R ∧ R.toNat = reciprocal (2 ^ 32) k.toNat % 2 ^ 32 := by
  have hlt := k.isLt
  have hne : k.setWidth 64 ≠ 0#64 := by
    rw [Ne, ← BitVec.toNat_inj, toNat_widen]
    exact Nat.ne_of_gt hk
  have hsum : (1#64 <<< 32 + (k.setWidth 64 - 1#64)).toNat = 2 ^ 32 + (k.toNat - 1) := by
    rw [BitVec.toNat_add, BitVec.toNat_sub, toNat_widen, BitVec.toNat_shiftLeft]
    simp only [BitVec.toNat_ofNat]
    omega
  refine ⟨_, if_neg hne, ?_⟩
  rw [BitVec.toNat_setWidth, BitVec.toNat_udiv, hsum, toNat_widen, reciprocal]

/-- The product does not overflow. -/
theorem toNat_processR (n R : BitVec 32) : (processR n R).toNat = n.toNat * R.toNat / 2 ^ 32 := by
  have hmul : n.toNat * R.toNat < 2 ^ 32 * 2 ^ 32 := Nat.mul_lt_mul'' n.isLt R.isLt
  have hlt : n.toNat * R.toNat < 2 ^ 64 := by omega
  unfold processR
  rw [BitVec.toNat_setWidth, BitVec.toNat_ushiftRight, BitVec.toNat_mul, toNat_widen, toNat_widen,
    Nat.shiftRight_eq_div_pow, Nat.mod_eq_of_lt hlt]
  omega

theorem f_eq {n k R : BitVec 32} (hR : computeR k = some R) : f n k = some (processR n R) := by
  rw [f, hR]
  rfl

/-- From 2 on the reciprocal fits into a word. -/
theorem f_spec (n : BitVec 32) {k : BitVec 32} (hk : 2 ≤ k.toNat) :
    ∃ R d, computeR k = some R ∧ f n k = some d ∧ R.toNat = reciprocal (2 ^ 32) k.toNat ∧
      d.toNat = n.toNat * reciprocal (2 ^ 32) k.toNat / 2 ^ 32 := by
  have hlt := k.isLt
  have hfits : reciprocal (2 ^ 32) k.toNat < 2 ^ 32 := by
    rw [reciprocal, Nat.div_lt_iff_lt_mul (by omega)]
    omega
  obtain ⟨R, hR, hvalue⟩ := computeR_eq (show 1 ≤ k.toNat by omega)
  rw [Nat.mod_eq_of_lt hfits] at hvalue
  exact ⟨R, processR n R, hR, f_eq hR, hvalue, by rw [toNat_processR, hvalue]⟩

/-- `R * k - 2 ^ 32`. -/
def error (R k : BitVec 32) : ℤ := R.toNat * k.toNat - 2 ^ 32

/-- The quotient is right or one too large, and which of the two is told by the remainder and
the error of the reciprocal. -/
theorem f_error_law (n k : BitVec 32) (hk : 2 ≤ k.toNat) :
    ∃ R d, computeR k = some R ∧ f n k = some d ∧ 0 ≤ error R k ∧ error R k < k.toNat ∧
      (d.toNat = n.toNat / k.toNat ∨ d.toNat = n.toNat / k.toNat + 1) ∧
      (d.toNat = n.toNat / k.toNat ↔
        (n.toNat % k.toNat : ℕ) * 2 ^ 32 + n.toNat * error R k < (k.toNat : ℤ) * 2 ^ 32) ∧
      (n.toNat * error R k < 2 ^ 32 → d.toNat = n.toNat / k.toNat) := by
  have hpos : 0 < k.toNat := by omega
  obtain ⟨R, d, hR, hd, hvalue, hquotient⟩ := f_spec n hk
  have herror : error R k = excess (2 ^ 32) k.toNat := by
    have hmul := reciprocal_mul (2 ^ 32) hpos
    rw [error, hvalue, ← Nat.cast_mul, hmul, Nat.cast_add]
    omega
  have hexcess := excess_lt (2 ^ 32) hpos
  refine ⟨R, d, hR, hd, ?_, ?_, ?_, ?_, ?_⟩
  · rw [herror]
    exact Int.natCast_nonneg _
  · rw [herror]
    exact Int.ofNat_lt.mpr hexcess
  · rw [hquotient]
    exact mul_reciprocal_div_cases hpos n.isLt
  · rw [hquotient, mul_reciprocal_div_eq_iff (by decide) hpos, herror]
    norm_cast
  · intro hsmall
    rw [herror] at hsmall
    rw [hquotient, mul_reciprocal_div_eq hpos (by exact_mod_cast hsmall)]

theorem f_error_law_seven : ∃ R d, computeR 7#32 = some R ∧ f 100#32 7#32 = some d ∧
    0 ≤ error R 7#32 ∧ error R 7#32 < (7#32).toNat ∧
    (d.toNat = (100#32).toNat / (7#32).toNat ∨ d.toNat = (100#32).toNat / (7#32).toNat + 1) ∧
    (d.toNat = (100#32).toNat / (7#32).toNat ↔
      ((100#32).toNat % (7#32).toNat : ℕ) * 2 ^ 32 + (100#32).toNat * error R 7#32 <
        ((7#32).toNat : ℤ) * 2 ^ 32) ∧
    ((100#32).toNat * error R 7#32 < 2 ^ 32 → d.toNat = (100#32).toNat / (7#32).toNat) :=
  f_error_law 100#32 7#32 (by decide)

def DividesExactly (n k : BitVec 32) : Prop :=
  ∃ d, f n k = some d ∧ d.toNat = n.toNat / k.toNat

/-- For `k = 1` the reciprocal is truncated to zero. -/
theorem f_one (n : BitVec 32) : f n 1#32 = some 0#32 := by
  have hR : computeR 1#32 = some 0#32 := by decide
  rw [f_eq hR, Option.some_inj, ← BitVec.toNat_inj, toNat_processR]
  simp

theorem dividesExactly_one_iff (n : BitVec 32) : DividesExactly n 1#32 ↔ n = 0#32 := by
  have hdiv : n.toNat / (1#32).toNat = n.toNat := Nat.div_one _
  rw [DividesExactly, f_one, hdiv]
  constructor
  · rintro ⟨d, hd, hn⟩
    cases hd
    exact BitVec.eq_of_toNat_eq hn.symm
  · rintro rfl
    exact ⟨0#32, rfl, rfl⟩

/-- A division is exact if and only if remainder and excess stay below a full unit; a division
by 1, if and only if it is that of 0. -/
theorem dividesExactly_iff (n k : BitVec 32) : DividesExactly n k ↔
    (k = 1#32 ∧ n = 0#32) ∨ (2 ≤ k.toNat ∧
      n.toNat % k.toNat * 2 ^ 32 + n.toNat * excess (2 ^ 32) k.toNat < k.toNat * 2 ^ 32) := by
  obtain hzero | hone | htwo : k.toNat = 0 ∨ k.toNat = 1 ∨ 2 ≤ k.toNat := by omega
  · obtain rfl : k = 0#32 := BitVec.eq_of_toNat_eq hzero
    constructor
    · rintro ⟨d, hd, -⟩
      cases hd
    · rintro (⟨hone, -⟩ | ⟨htwo, -⟩)
      · exact absurd hone (by decide)
      · exact absurd htwo (by decide)
  · obtain rfl : k = 1#32 := BitVec.eq_of_toNat_eq hone
    rw [dividesExactly_one_iff]
    constructor
    · exact fun hn => Or.inl ⟨rfl, hn⟩
    · rintro (⟨-, hn⟩ | ⟨htwo, -⟩)
      · exact hn
      · exact absurd htwo (by decide)
  · obtain ⟨R, d, -, hd, -, hquotient⟩ := f_spec n htwo
    have hne : k ≠ 1#32 := by
      rintro rfl
      exact absurd htwo (by decide)
    rw [DividesExactly, hd, ← mul_reciprocal_div_eq_iff (by decide) (by omega), ← hquotient]
    simp [hne, htwo]

/-- A large number, and the divisor 1. -/
theorem not_dividesExactly : ¬ DividesExactly 2147483648#32 3#32 ∧ ¬ DividesExactly 5#32 1#32 := by
  refine ⟨?_, ?_⟩
  · rintro ⟨d, hd, hquotient⟩
    have hvalue : f 2147483648#32 3#32 = some 715827883#32 := by decide
    rw [hvalue, Option.some_inj] at hd
    rw [← hd] at hquotient
    exact absurd hquotient (by decide)
  · rw [dividesExactly_one_iff]
    decide

end OlinCourses.Debugging
