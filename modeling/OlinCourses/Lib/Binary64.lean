import Mathlib.Tactic

/-!
# Integers as 64-bit floating-point numbers

The number with 53 significant bits that is nearest to an integer, ties to even. Up to `2^53`
an integer is itself such a number.
-/
namespace OlinCourses.Binary64

/-- The distance of the numbers with the leading bit of `n`. -/
def spacing (n : ℕ) : ℕ := 2 ^ (Nat.log2 n - 52)

/-- `n / d` rounded to the nearest number, ties to even. -/
def divRound (n d : ℕ) : ℕ :=
  if 2 * (n % d) < d ∨ (2 * (n % d) = d ∧ n / d % 2 = 0) then n / d else n / d + 1

/-- The nearest number, which is an integer again. -/
def nearest (x : ℤ) : ℤ := x.sign * (divRound x.natAbs (spacing x.natAbs) * spacing x.natAbs : ℕ)

theorem divRound_mul_of_dvd {n d : ℕ} (hd : 0 < d) (h : d ∣ n) : divRound n d * d = n := by
  rw [divRound, Nat.mod_eq_zero_of_dvd h, if_pos (Or.inl (by omega)), Nat.div_mul_cancel h]

theorem spacing_pos (n : ℕ) : 0 < spacing n := Nat.two_pow_pos _

theorem spacing_dvd {n : ℕ} (h : n ≤ 2 ^ 53) : spacing n ∣ n := by
  by_cases hlast : n = 2 ^ 53
  · subst hlast
    rw [spacing, Nat.log2_two_pow]
    decide
  · by_cases hzero : n = 0
    · subst hzero
      exact dvd_zero _
    · have hlog : Nat.log2 n < 53 := (Nat.log2_lt hzero).mpr (by omega)
      rw [spacing, Nat.sub_eq_zero_of_le (by omega), pow_zero]
      exact one_dvd n

theorem nearest_eq_self {x : ℤ} (h : x.natAbs ≤ 2 ^ 53) : nearest x = x := by
  rw [nearest, divRound_mul_of_dvd (spacing_pos _) (spacing_dvd h)]
  exact Int.sign_mul_natAbs x

end OlinCourses.Binary64
