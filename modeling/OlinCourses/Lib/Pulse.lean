import Mathlib.Data.Nat.Count
import Mathlib.Data.Nat.Log
import Mathlib.Data.Nat.Periodic
import Mathlib.Tactic

/-!
# Pulses and counters on traces

Signals sampled at the edges of a clock, their rising edges, counters modulo `m` that
advance on the pulses of a signal, behind a prescaler or behind another counter, and counters
that never stop.
-/
namespace OlinCourses.Pulse

/-- `$clog2`, the width of a counter of `n` values. -/
def clog2 (n : ℕ) : ℕ := Nat.clog 2 n

/-- A rising edge between the samples `n` and `n + 1`. -/
def Rises (x : ℕ → Bool) (n : ℕ) : Prop := x n = false ∧ x (n + 1) = true

instance (x : ℕ → Bool) : DecidablePred (Rises x) := fun _ => inferInstanceAs (Decidable (_ ∧ _))

/-- `counter` advances modulo `m` after each pulse of `r`. -/
structure Counts (m : ℕ) (r : ℕ → Bool) (counter : ℕ → ℕ) : Prop where
  zero : counter 0 = 0
  step : ∀ n, counter (n + 1) = if r n then (counter n + 1) % m else counter n

/-- A counter shows the number of events `p` so far, modulo `m`, exactly when its
pulses are those events. -/
theorem Counts.eq_count_iff {m : ℕ} (hm : 2 ≤ m) {r : ℕ → Bool} {counter : ℕ → ℕ}
    (h : Counts m r counter) (p : ℕ → Prop) [DecidablePred p] :
    (∀ n, counter n = Nat.count p n % m) ↔ ∀ n, r n = true ↔ p n := by
  constructor
  · intro hcount n
    have hstep := h.step n
    rw [hcount n, hcount (n + 1), Nat.count_succ, Nat.mod_add_mod] at hstep
    -- a number and its successor differ modulo `m`
    have hne : (Nat.count p n + 1) % m ≠ Nat.count p n % m := by
      intro heq
      have hdvd : m ∣ 1 := by
        have hmod : Nat.count p n + 1 ≡ Nat.count p n + 0 [MOD m] := heq
        exact (Nat.modEq_zero_iff_dvd).mp (Nat.ModEq.add_left_cancel' _ hmod)
      exact absurd (Nat.le_of_dvd one_pos hdvd) (by omega)
    by_cases hr : r n = true
    · by_cases hp : p n
      · exact iff_of_true hr hp
      · rw [if_neg hp, if_pos hr] at hstep
        exact absurd hstep.symm hne
    · by_cases hp : p n
      · rw [if_pos hp, if_neg hr] at hstep
        exact absurd hstep hne
      · exact iff_of_false hr hp
  · intro hpulse n
    induction n with
    | zero => simp [h.zero]
    | succ n ih =>
      rw [h.step, Nat.count_succ, ih, Nat.mod_add_mod]
      by_cases hp : p n
      · rw [if_pos hp, if_pos ((hpulse n).mpr hp)]
      · rw [if_neg hp, if_neg (mt (hpulse n).mp hp), Nat.add_zero]

/-- The samples of `x` are never true three times in a row. -/
def NoTriple (x : ℕ → Bool) : Prop :=
  ∀ n, ¬ (x n = true ∧ x (n + 1) = true ∧ x (n + 2) = true)

/-- A register that is set while `x` holds and clears itself marks the rising edges
of `x`, two samples later, exactly when `x` never holds for three samples. -/
theorem self_clearing_iff {x r : ℕ → Bool} (hr : r 0 = false)
    (hstep : ∀ n, r (n + 1) = (x n && !r n)) :
    (∀ n, r (n + 2) = true ↔ Rises x n) ↔ NoTriple x := by
  constructor
  · rintro hpulse n ⟨h0, h1, h2⟩
    have hfirst : ¬ Rises x n := fun h => by rw [h.1] at h0; cases h0
    have hsecond : ¬ Rises x (n + 1) := fun h => by rw [h.1] at h1; cases h1
    have hclear : r (n + 2) = false := by simpa using mt (hpulse n).mp hfirst
    have hset : r (n + 3) = true := by rw [hstep, h2, hclear]; rfl
    exact hsecond ((hpulse (n + 1)).mp hset)
  · intro hno n
    -- the register is clear whenever `x` holds at two samples in a row
    have hclear : x n = true → x (n + 1) = true → r n = false := by
      intro h0 h1
      cases n with
      | zero => exact hr
      | succ n =>
        have hprev : x n = false := by simpa using fun h => hno n ⟨h, h0, h1⟩
        rw [hstep, hprev]
        rfl
    rw [hstep, hstep, Rises]
    cases h0 : x n with
    | false => simp
    | true =>
      cases h1 : x (n + 1) with
      | false => simp
      | true => simp [hclear h0 h1]

theorem dvd_succ_iff {p : ℕ} (hp : 0 < p) (n : ℕ) : p ∣ n + 1 ↔ n % p = p - 1 := by
  have hlt := Nat.mod_lt n hp
  rw [Nat.dvd_iff_mod_eq_zero, ← Nat.mod_add_mod]
  by_cases hlast : n % p + 1 = p
  · rw [hlast, Nat.mod_self]
    omega
  · rw [Nat.mod_eq_of_lt (by omega)]
    omega

/-- The increment of a register that wraps after `last`. -/
theorem toNat_increment {w : ℕ} (last : BitVec w) {x : BitVec w} (hx : x.toNat ≤ last.toNat) :
    (if x = last then 0#w else x + 1#w).toNat = (x.toNat + 1) % (last.toNat + 1) := by
  have hlast := last.isLt
  by_cases h : x = last
  · rw [if_pos h, h, Nat.mod_self, BitVec.toNat_ofNat, Nat.zero_mod]
  · have hne : x.toNat ≠ last.toNat := fun heq => h (BitVec.eq_of_toNat_eq heq)
    rw [if_neg h, BitVec.toNat_add, BitVec.toNat_ofNat, Nat.add_mod_mod,
      Nat.mod_eq_of_lt (by omega), Nat.mod_eq_of_lt (by omega)]

/-- A register that counts up to `last` and wraps, and one that counts the wraps. -/
structure Prescaled {v w : ℕ} (last : BitVec v) (prescaler : ℕ → BitVec v)
    (counter : ℕ → BitVec w) : Prop where
  prescaler_zero : prescaler 0 = 0#v
  counter_zero : counter 0 = 0#w
  prescaler_step : ∀ n, prescaler (n + 1) =
    if prescaler n = last then 0#v else prescaler n + 1#v
  counter_step : ∀ n, counter (n + 1) = if prescaler n = last then counter n + 1#w else counter n

namespace Prescaled

variable {v w : ℕ} {last : BitVec v} {prescaler : ℕ → BitVec v} {counter : ℕ → BitVec w}
  (h : Prescaled last prescaler counter)

include h

theorem toNat_prescaler (n : ℕ) : (prescaler n).toNat = n % (last.toNat + 1) := by
  induction n with
  | zero => rw [h.prescaler_zero, BitVec.toNat_ofNat, Nat.zero_mod, Nat.zero_mod]
  | succ n ih =>
    have hle : (prescaler n).toNat ≤ last.toNat := by
      rw [ih]
      exact Nat.le_of_lt_succ (Nat.mod_lt n (Nat.succ_pos _))
    rw [h.prescaler_step, toNat_increment last hle, ih, Nat.mod_add_mod]

/-- The second register shows the quotient. -/
theorem toNat_counter (n : ℕ) : (counter n).toNat = n / (last.toNat + 1) % 2 ^ w := by
  induction n with
  | zero => rw [h.counter_zero, BitVec.toNat_ofNat, Nat.zero_div]
  | succ n ih =>
    have hwrap : prescaler n = last ↔ last.toNat + 1 ∣ n + 1 := by
      rw [dvd_succ_iff (Nat.succ_pos _), ← h.toNat_prescaler, BitVec.toNat_inj.symm]
      rfl
    rw [h.counter_step, Nat.succ_div]
    by_cases hlast : prescaler n = last
    · rw [if_pos hlast, if_pos (hwrap.mp hlast), BitVec.toNat_add, BitVec.toNat_ofNat, ih,
        ← Nat.add_mod]
    · rw [if_neg hlast, if_neg (mt hwrap.mpr hlast)]
      exact ih

end Prescaled

/-- The successor of a count that wraps after `m - 1`. -/
def wrap (m x : ℕ) : ℕ := if m - 1 ≤ x then 0 else x + 1

theorem wrap_mod {m : ℕ} (hm : 0 < m) (n : ℕ) : wrap m (n % m) = (n + 1) % m := by
  have hlt := Nat.mod_lt n hm
  rw [wrap, ← Nat.mod_add_mod n m 1]
  split_ifs with hlast
  · have hsucc : n % m + 1 = m := by omega
    rw [hsucc, Nat.mod_self]
  · exact (Nat.mod_eq_of_lt (by omega)).symm

/-- A counter modulo `p`, and one modulo `m` that advances when the first one wraps. -/
structure Cascaded (p m : ℕ) (prescaler counter : ℕ → ℕ) : Prop where
  prescaler_zero : prescaler 0 = 0
  counter_zero : counter 0 = 0
  prescaler_step : ∀ n, prescaler (n + 1) = wrap p (prescaler n)
  counter_step : ∀ n, counter (n + 1) =
    if p - 1 ≤ prescaler n then wrap m (counter n) else counter n

namespace Cascaded

variable {p m : ℕ} {prescaler counter : ℕ → ℕ} (h : Cascaded p m prescaler counter)

include h

theorem prescaler_eq (hp : 0 < p) (n : ℕ) : prescaler n = n % p := by
  induction n with
  | zero => rw [h.prescaler_zero, Nat.zero_mod]
  | succ n ih => rw [h.prescaler_step, ih, wrap_mod hp]

theorem counter_eq (hp : 0 < p) (hm : 0 < m) (n : ℕ) : counter n = n / p % m := by
  induction n with
  | zero => rw [h.counter_zero, Nat.zero_div, Nat.zero_mod]
  | succ n ih =>
    have hlt := Nat.mod_lt n hp
    rw [h.counter_step, h.prescaler_eq hp, ih, Nat.succ_div]
    by_cases hlast : p - 1 ≤ n % p
    · rw [if_pos hlast, if_pos ((dvd_succ_iff hp n).mpr (by omega)), wrap_mod hm]
    · rw [if_neg hlast, if_neg (mt (dvd_succ_iff hp n).mp (by omega)), Nat.add_zero]

end Cascaded

/-- A period holds as many samples of `p` wherever it starts. -/
theorem count_add_left_of_periodic {p : ℕ → Prop} [DecidablePred p] {a : ℕ}
    (h : Function.Periodic p a) (start : ℕ) :
    Nat.count (fun n => p (start + n)) a = Nat.count p a := by
  have hstart := Nat.count_add p start a
  have hperiod : Nat.count p (a + start) = Nat.count p a + Nat.count p start := by
    rw [Nat.count_add]
    congr 2
    funext n
    rw [Nat.add_comm]
    exact h n
  rw [Nat.add_comm start a, hperiod] at hstart
  omega

/-- In `k` periods of a remainder exactly `k * d` samples are below `d`. -/
theorem count_mod_lt {m d : ℕ} (hd : d ≤ m) (k : ℕ) :
    Nat.count (fun n => n % m < d) (m * k) = k * d := by
  have hone : Nat.count (fun n => n % m < d) m = d := by
    have hfilter : (Finset.range m).filter (fun n => n % m < d) = Finset.range d := by
      ext n
      rw [Finset.mem_filter, Finset.mem_range, Finset.mem_range]
      constructor
      · rintro ⟨hn, hlt⟩
        rwa [Nat.mod_eq_of_lt hn] at hlt
      · intro hn
        exact ⟨hn.trans_le hd, (Nat.mod_le n m).trans_lt hn⟩
    rw [Nat.count_eq_card_filter_range, hfilter, Finset.card_range]
  induction k with
  | zero => rw [Nat.mul_zero, Nat.count_zero, Nat.zero_mul]
  | succ k ih =>
    rw [Nat.mul_succ, Nat.count_add, ih, Nat.succ_mul]
    simp only [Nat.mul_add_mod, hone]

/-- A counter of width `w` that advances at every sample. -/
def FreeRunning {w : ℕ} (counter : ℕ → BitVec w) : Prop := ∀ n, counter (n + 1) = counter n + 1#w

theorem FreeRunning.toNat_eq {w : ℕ} {counter : ℕ → BitVec w} (h : FreeRunning counter) (n : ℕ) :
    (counter n).toNat = ((counter 0).toNat + n) % 2 ^ w := by
  induction n with
  | zero => rw [Nat.add_zero, Nat.mod_eq_of_lt (counter 0).isLt]
  | succ n ih =>
    rw [h, BitVec.toNat_add, ih, BitVec.toNat_ofNat, ← Nat.add_mod, Nat.add_assoc]

/-- In `k` periods a free-running counter is below `d` in exactly `k * d` samples, whatever
its first value. -/
theorem FreeRunning.count_ult {w : ℕ} {counter : ℕ → BitVec w} (h : FreeRunning counter)
    (d : BitVec w) (k : ℕ) :
    Nat.count (fun n => (counter n).ult d = true) (2 ^ w * k) = k * d.toNat := by
  have hperiodic : Function.Periodic (fun n => n % 2 ^ w < d.toNat) (2 ^ w * k) := fun n => by
    dsimp only
    rw [Nat.add_mul_mod_self_left]
  have hshift := count_add_left_of_periodic hperiodic (counter 0).toNat
  rw [count_mod_lt d.isLt.le] at hshift
  rw [← hshift]
  congr 1
  funext n
  rw [BitVec.ult, decide_eq_true_eq, h.toNat_eq]

/-- A register of width `w` that adds an increment at every sample. -/
def Accumulates {w : ℕ} (acc increment : ℕ → BitVec w) : Prop :=
  ∀ n, acc (n + 1) = acc n + increment n

theorem Accumulates.shift {w : ℕ} {acc increment : ℕ → BitVec w} (h : Accumulates acc increment)
    (a : ℕ) : Accumulates (fun n => acc (a + n)) (fun n => increment (a + n)) :=
  fun n => h (a + n)

/-- The quotient and the remainder of all that was added: the wraps, and what is left. -/
theorem Accumulates.toNat_add_wraps {w : ℕ} {acc increment : ℕ → BitVec w}
    (h : Accumulates acc increment) (n : ℕ) :
    (acc n).toNat + 2 ^ w * Nat.count (fun k => (acc (k + 1)).toNat < (acc k).toNat) n =
      (acc 0).toNat + ∑ k ∈ Finset.range n, (increment k).toNat := by
  induction n with
  | zero => rw [Nat.count_zero, Nat.mul_zero, Finset.sum_range_zero]
  | succ n ih =>
    have hacc := (acc n).isLt
    have hincrement := (increment n).isLt
    have hnext : (acc (n + 1)).toNat = ((acc n).toNat + (increment n).toNat) % 2 ^ w := by
      rw [h, BitVec.toNat_add]
    rw [Nat.count_succ, Finset.sum_range_succ, ← Nat.add_assoc, ← ih, Nat.mul_add]
    by_cases hcarry : (acc n).toNat + (increment n).toNat < 2 ^ w
    · rw [Nat.mod_eq_of_lt hcarry] at hnext
      rw [if_neg (by omega), hnext]
      ring
    · have hmod : ((acc n).toNat + (increment n).toNat) % 2 ^ w =
          (acc n).toNat + (increment n).toNat - 2 ^ w := by
        rw [Nat.mod_eq_sub_mod (by omega), Nat.mod_eq_of_lt (by omega)]
      rw [if_pos (by omega), hnext, hmod]
      omega

theorem Accumulates.count_wraps {w : ℕ} {acc increment : ℕ → BitVec w}
    (h : Accumulates acc increment) (n : ℕ) :
    Nat.count (fun k => (acc (k + 1)).toNat < (acc k).toNat) n =
      ((acc 0).toNat + ∑ k ∈ Finset.range n, (increment k).toNat) / 2 ^ w := by
  rw [← h.toNat_add_wraps n, Nat.add_mul_div_left _ _ (Nat.two_pow_pos w),
    Nat.div_eq_of_lt (acc n).isLt, Nat.zero_add]

/-- A register that wraps after `last`, or at its width if it starts above it. -/
def Wrapping {w : ℕ} (last : BitVec w) (counter : ℕ → BitVec w) : Prop :=
  ∀ n, counter (n + 1) = if counter n = last then 0#w else counter n + 1#w

/-- The samples up to the first wrap after `last`. -/
def firstWrap {w : ℕ} (last start : BitVec w) : ℕ := (last - start).toNat + 1

theorem firstWrap_le {w : ℕ} (last start : BitVec w) : firstWrap last start ≤ 2 ^ w :=
  (last - start).isLt

namespace Wrapping

variable {w : ℕ} {last : BitVec w} {counter : ℕ → BitVec w} (h : Wrapping last counter)

include h

/-- Up to the first wrap the register is free-running. -/
theorem counter_before {n : ℕ} (hn : n < firstWrap last (counter 0)) :
    counter n = counter 0 + BitVec.ofNat w n := by
  induction n with
  | zero => exact (BitVec.add_zero _).symm
  | succ n ih =>
    have hbefore := ih (by omega)
    have hne : counter n ≠ last := by
      intro hlast
      have hn' : n = (last - counter 0).toNat := by
        rw [← hlast, hbefore, BitVec.add_comm, BitVec.add_sub_cancel, BitVec.toNat_ofNat,
          Nat.mod_eq_of_lt]
        have hle := firstWrap_le last (counter 0)
        omega
      rw [firstWrap, ← hn'] at hn
      omega
    rw [h, if_neg hne, hbefore, BitVec.add_assoc, BitVec.ofNat_add]

theorem counter_firstWrap : counter (firstWrap last (counter 0)) = 0#w := by
  have hlast : counter (last - counter 0).toNat = last := by
    rw [h.counter_before (Nat.lt_succ_self _), BitVec.ofNat_toNat, BitVec.setWidth_eq,
      BitVec.add_comm, BitVec.sub_add_cancel]
  rw [firstWrap, h, if_pos hlast]

/-- From the first wrap on it counts modulo `last + 1`. -/
theorem toNat_after (n : ℕ) :
    (counter (firstWrap last (counter 0) + n)).toNat = n % (last.toNat + 1) := by
  induction n with
  | zero => rw [Nat.add_zero, h.counter_firstWrap, BitVec.toNat_ofNat, Nat.zero_mod, Nat.zero_mod]
  | succ n ih =>
    have hle : (counter (firstWrap last (counter 0) + n)).toNat ≤ last.toNat := by
      rw [ih]
      exact Nat.le_of_lt_succ (Nat.mod_lt n (Nat.succ_pos _))
    rw [← Nat.add_assoc, h, toNat_increment last hle, ih, Nat.mod_add_mod]

theorem eq_last_iff (n : ℕ) : counter n = last ↔
    firstWrap last (counter 0) ≤ n + 1 ∧ last.toNat + 1 ∣ n + 1 - firstWrap last (counter 0) := by
  by_cases hn : n < firstWrap last (counter 0)
  · have hdiff : counter n = last ↔ n = (last - counter 0).toNat := by
      have hlt := (firstWrap_le last (counter 0)).trans_lt' hn
      rw [h.counter_before hn, eq_comm, BitVec.add_comm, ← BitVec.sub_eq_iff_eq_add,
        ← BitVec.toNat_inj, BitVec.toNat_ofNat, Nat.mod_eq_of_lt hlt, eq_comm]
    rw [hdiff]
    rw [firstWrap] at hn ⊢
    constructor
    · rintro rfl
      exact ⟨le_rfl, by simp⟩
    · rintro ⟨hle, -⟩
      omega
  · obtain ⟨m, rfl⟩ := Nat.exists_eq_add_of_le (not_lt.mp hn)
    rw [← BitVec.toNat_inj, h.toNat_after, Nat.add_assoc, Nat.add_sub_cancel_left,
      dvd_succ_iff (Nat.succ_pos _)]
    exact (and_iff_right (Nat.le_add_right _ _)).symm

/-- The wraps so far. -/
theorem count_wraps (n : ℕ) : Nat.count (fun k => counter k = last) n =
    (n + (last.toNat + 1) - firstWrap last (counter 0)) / (last.toNat + 1) := by
  induction n with
  | zero =>
    rw [Nat.count_zero, Nat.div_eq_of_lt]
    rw [firstWrap]
    omega
  | succ n ih =>
    rw [Nat.count_succ, ih]
    by_cases hfirst : firstWrap last (counter 0) ≤ n + 1
    · have hsucc : n + 1 + (last.toNat + 1) - firstWrap last (counter 0) =
          n + (last.toNat + 1) - firstWrap last (counter 0) + 1 := by omega
      have hdvd : last.toNat + 1 ∣ n + (last.toNat + 1) - firstWrap last (counter 0) + 1 ↔
          counter n = last := by
        rw [h.eq_last_iff, and_iff_right hfirst, ← hsucc, Nat.sub_add_comm hfirst,
          Nat.dvd_add_left dvd_rfl]
      rw [hsucc, Nat.succ_div]
      simp only [hdvd]
    · rw [if_neg fun hlast => hfirst ((h.eq_last_iff n).mp hlast).1, Nat.add_zero,
        Nat.div_eq_of_lt (by omega), Nat.div_eq_of_lt (by omega)]

end Wrapping

end OlinCourses.Pulse
