import Mathlib.Data.Nat.ModEq
import Mathlib.Tactic

/-!
# Division by a rounded reciprocal

For a scale `M`, the product of `n` with `M / k` rounded up, divided by `M`, is the quotient
`n / k` up to an error that grows with `n` and with what `M` lacks to a multiple of `k`.
-/
namespace OlinCourses.Reciprocal

/-- `M / k` rounded up. -/
def reciprocal (M k : ℕ) : ℕ := (M + (k - 1)) / k

/-- What `M` lacks to the next multiple of `k`. -/
def excess (M k : ℕ) : ℕ := (k - M % k) % k

variable {M k : ℕ}

theorem excess_lt (M : ℕ) (hk : 0 < k) : excess M k < k := Nat.mod_lt _ hk

theorem reciprocal_mul (M : ℕ) (hk : 0 < k) : reciprocal M k * k = M + excess M k := by
  have hmod := Nat.mod_lt M hk
  have hdiv := Nat.div_add_mod' M k
  unfold reciprocal excess
  by_cases hzero : M % k = 0
  · have hceil : (M + (k - 1)) / k = M / k := by
      apply Nat.div_eq_of_lt_le
      · omega
      · rw [Nat.succ_mul]
        omega
    rw [hceil, hzero, Nat.sub_zero, Nat.mod_self]
    omega
  · have hceil : (M + (k - 1)) / k = M / k + 1 := by
      apply Nat.div_eq_of_lt_le
      · rw [Nat.succ_mul]
        omega
      · rw [Nat.succ_mul, Nat.succ_mul]
        omega
    rw [hceil, Nat.mod_eq_of_lt (by omega), Nat.succ_mul]
    omega

/-- The quotient and what the remainder and the excess add to it. -/
theorem mul_reciprocal_div (hM : 0 < M) (hk : 0 < k) (n : ℕ) :
    n * reciprocal M k / M = n / k + (n % k * M + n * excess M k) / (k * M) := by
  have hscale : n * reciprocal M k * k = k * M * (n / k) + (n % k * M + n * excess M k) :=
    calc n * reciprocal M k * k = n * M + n * excess M k := by
          rw [Nat.mul_assoc, reciprocal_mul M hk, Nat.mul_add]
      _ = (k * (n / k) + n % k) * M + n * excess M k := by rw [Nat.div_add_mod]
      _ = k * M * (n / k) + (n % k * M + n * excess M k) := by ring
  calc n * reciprocal M k / M = n * reciprocal M k * k / (M * k) :=
        (Nat.mul_div_mul_right _ _ hk).symm
    _ = (k * M * (n / k) + (n % k * M + n * excess M k)) / (k * M) := by
        rw [hscale, Nat.mul_comm M k]
    _ = n / k + (n % k * M + n * excess M k) / (k * M) :=
        Nat.mul_add_div (Nat.mul_pos hk hM) _ _

/-- The exact error law. -/
theorem mul_reciprocal_div_eq_iff (hM : 0 < M) (hk : 0 < k) (n : ℕ) :
    n * reciprocal M k / M = n / k ↔ n % k * M + n * excess M k < k * M := by
  rw [mul_reciprocal_div hM hk, ← Nat.div_eq_zero_iff_lt (Nat.mul_pos hk hM)]
  omega

theorem mod_mul_add_le (M : ℕ) (hk : 0 < k) (n : ℕ) : n % k * M + M ≤ k * M := by
  rw [← Nat.succ_mul]
  exact Nat.mul_le_mul_right M (Nat.mod_lt n hk)

/-- Below the scale the error is at most one. -/
theorem mul_reciprocal_div_cases (hk : 0 < k) {n : ℕ} (hn : n < M) :
    n * reciprocal M k / M = n / k ∨ n * reciprocal M k / M = n / k + 1 := by
  have hM : 0 < M := Nat.zero_lt_of_lt hn
  have hrem := mod_mul_add_le M hk n
  have hexcess : n * excess M k ≤ k * M := by
    rw [Nat.mul_comm k M]
    exact Nat.mul_le_mul hn.le (excess_lt M hk).le
  have hsmall : (n % k * M + n * excess M k) / (k * M) < 2 := by
    rw [Nat.div_lt_iff_lt_mul (Nat.mul_pos hk hM)]
    omega
  rw [mul_reciprocal_div hM hk]
  obtain hexact | hover := Nat.le_one_iff_eq_zero_or_eq_one.mp (Nat.lt_succ_iff.mp hsmall)
  · exact Or.inl (by rw [hexact, Nat.add_zero])
  · exact Or.inr (by rw [hover])

theorem mul_reciprocal_div_eq (hk : 0 < k) {n : ℕ} (hn : n * excess M k < M) :
    n * reciprocal M k / M = n / k := by
  have hrem := mod_mul_add_le M hk n
  rw [mul_reciprocal_div_eq_iff (Nat.zero_lt_of_lt hn) hk]
  omega

end OlinCourses.Reciprocal
