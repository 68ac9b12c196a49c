import OlinCourses.Lib.Pulse
import OlinCourses.Waveform.Sine
import OlinCourses.Waveform.Triangle

/-!
# The frequency of the output

The cycles of the phase accumulator are what the chosen increments add up to. At the square
output they show as falling edges, and over one second of the 12 MHz clock they give the
frequencies of the presets.
-/
namespace OlinCourses.Waveform
open Pulse

namespace Top

/-- `phase_acc` adds the increment of the selected frequency at every edge. -/
theorem accumulates_trace (table : QuarterTable) (readData : BitVec 9) (inputs : ℕ → Inputs) :
    Accumulates (fun n => (trace table readData inputs n).phaseAcc)
      (fun n => phaseInc (trace table readData inputs n).freqSel) :=
  fun _ => rfl

theorem dataSq_eq (s : Top) : s.dataSq = decide (2 ^ 31 ≤ s.phaseAcc.toNat) := by
  rw [dataSq, ← BitVec.msb_eq_decide s.phaseAcc]
  rfl

/-- The increments are below half a cycle, so that the square wave misses no cycle. -/
theorem falls_iff_wraps (s s' : Top) (h : s'.phaseAcc = s.phaseAcc + phaseInc s.freqSel) :
    (s.dataSq = true ∧ s'.dataSq = false) ↔ s'.phaseAcc.toNat < s.phaseAcc.toNat := by
  have hinc := toNat_phaseInc_lt_two_steps s.freqSel
  have hlt := s.phaseAcc.isLt
  have hnext : s'.phaseAcc.toNat = (s.phaseAcc.toNat + (phaseInc s.freqSel).toNat) % 2 ^ 32 := by
    rw [h, BitVec.toNat_add]
  rw [dataSq_eq, dataSq_eq, decide_eq_true_eq, decide_eq_false_iff_not]
  omega

theorem dacOut_of_square {s : Top} (h : s.waveformSel = 2#2) :
    s.dacOut = if s.dataSq then 1023#10 else 0#10 := by
  rw [dacOut, h]
  cases s.dataSq <;> rfl

section Cycles

variable (table : QuarterTable) (readData : BitVec 9) (inputs : ℕ → Inputs)

/-- The falls of the output from 1023 to 0 at the `n` edges after edge `a`. -/
def squareCycles (a n : ℕ) : ℕ :=
  Nat.count (fun k => (trace table readData inputs (a + k)).dacOut = 1023#10 ∧
    (trace table readData inputs (a + k + 1)).dacOut = 0#10) n

/-- The full cycles of the frequencies in the 12,000,000 clock edges of a second. -/
def cyclesPerSecond : BitVec 2 → ℕ
  | 0#2 => 999
  | 1#2 => 1999
  | 2#2 => 5000
  | _ => 9997

variable {table readData inputs}

/-- A cycle of the square output is a wrap of the accumulator. -/
theorem squareCycles_eq_wraps {a n : ℕ}
    (h : ∀ k ≤ n, (trace table readData inputs (a + k)).waveformSel = 2#2) :
    squareCycles table readData inputs a n = Nat.count (fun k =>
      (trace table readData inputs (a + (k + 1))).phaseAcc.toNat <
        (trace table readData inputs (a + k)).phaseAcc.toNat) n := by
  rw [squareCycles, Nat.count_eq_card_filter_range, Nat.count_eq_card_filter_range]
  congr 1
  apply Finset.filter_congr
  intro k hk
  have hlt := Finset.mem_range.mp hk
  have hfalls := falls_iff_wraps (trace table readData inputs (a + k))
    (trace table readData inputs (a + k + 1)) rfl
  have hhigh := dacOut_of_square (h k hlt.le)
  have hlow := dacOut_of_square (h (k + 1) hlt)
  rw [← Nat.add_assoc] at hlow ⊢
  rw [← hfalls, hhigh, hlow]
  cases (trace table readData inputs (a + k)).dataSq <;>
    cases (trace table readData inputs (a + k + 1)).dataSq <;> simp

/-- The phase that `n` edges add at one frequency. -/
theorem sum_phaseInc {a n : ℕ} {freqSel : BitVec 2}
    (h : ∀ k < n, (trace table readData inputs (a + k)).freqSel = freqSel) :
    ∑ k ∈ Finset.range n, (phaseInc (trace table readData inputs (a + k)).freqSel).toNat =
      n * (phaseInc freqSel).toNat := by
  rw [Finset.sum_congr rfl fun k hk => by rw [h k (Finset.mem_range.mp hk)], Finset.sum_const,
    Finset.card_range, smul_eq_mul]

/-- A second adds the full cycles of its frequency, and less than one more. -/
theorem second_cycles (freqSel : BitVec 2) :
    2 ^ 32 * cyclesPerSecond freqSel ≤ 12000000 * (phaseInc freqSel).toNat ∧
      12000000 * (phaseInc freqSel).toNat < 2 ^ 32 * (cyclesPerSecond freqSel + 1) := by
  revert freqSel
  decide

end Cycles

/-- While the square is selected, whatever the frequency button does, the output falls
from 1023 to 0 once for each full cycle that the increments add up to. At a fixed frequency
that is 999, 1999, 5000 or 9997 times a second or once more, from any phase. -/
theorem square_frequency (table : QuarterTable) (readData : BitVec 9) (inputs : ℕ → Inputs)
    (a n : ℕ) (hsquare : ∀ k ≤ n, (trace table readData inputs (a + k)).waveformSel = 2#2) :
    squareCycles table readData inputs a n =
      ((trace table readData inputs a).phaseAcc.toNat + ∑ k ∈ Finset.range n,
        (phaseInc (trace table readData inputs (a + k)).freqSel).toNat) / 2 ^ 32 ∧
    ∀ freqSel, (∀ k < n, (trace table readData inputs (a + k)).freqSel = freqSel) →
      n = 12000000 →
      squareCycles table readData inputs a n = cyclesPerSecond freqSel ∨
        squareCycles table readData inputs a n = cyclesPerSecond freqSel + 1 := by
  have hcycles : squareCycles table readData inputs a n =
      ((trace table readData inputs a).phaseAcc.toNat + ∑ k ∈ Finset.range n,
        (phaseInc (trace table readData inputs (a + k)).freqSel).toNat) / 2 ^ 32 := by
    rw [squareCycles_eq_wraps hsquare]
    exact ((accumulates_trace table readData inputs).shift a).count_wraps n
  refine ⟨hcycles, fun freqSel hfreq hn => ?_⟩
  have hlt := (trace table readData inputs a).phaseAcc.isLt
  have hsecond := second_cycles freqSel
  rw [sum_phaseInc hfreq, hn] at hcycles
  rw [hn]
  omega

/-- Two presses of BOOT select the square. -/
def twoPresses (n : ℕ) : Inputs := ⟨n != 0 && n != 2, true⟩

/-- With the buttons released, nothing but the phase changes. -/
theorem trace_twoPresses (k : ℕ) :
    let s := trace sineQuarter 0#9 twoPresses (6 + k)
    s.boot = ⟨false, false, false⟩ ∧ s.sw = ⟨false, false, false⟩ ∧ s.waveformSel = 2#2 ∧
      s.freqSel = 0#2 := by
  induction k with
  | zero => exact ⟨rfl, rfl, by decide, by decide⟩
  | succ k ih =>
    obtain ⟨hboot, hsw, hwaveform, hfreq⟩ := ih
    have hreleased : twoPresses (6 + k) = ⟨true, true⟩ := by
      have hlater : 6 + k ≠ 0 ∧ 6 + k ≠ 2 := by omega
      simp [twoPresses, hlater]
    have hnext : trace sineQuarter 0#9 twoPresses (6 + (k + 1)) =
        (trace sineQuarter 0#9 twoPresses (6 + k)).clock sineQuarter ⟨true, true⟩ := by
      rw [← hreleased]
      rfl
    dsimp only at hboot hsw hwaveform hfreq ⊢
    rw [hnext]
    simp [clock, Button.clock, hboot, hsw, hwaveform, hfreq]

theorem square_frequency_two_presses :
    squareCycles sineQuarter 0#9 twoPresses 6 12000 = 1 ∧
      (squareCycles sineQuarter 0#9 twoPresses 6 12000000 = 999 ∨
        squareCycles sineQuarter 0#9 twoPresses 6 12000000 = 1000) := by
  have hsquare : ∀ n, ∀ k ≤ n, (trace sineQuarter 0#9 twoPresses (6 + k)).waveformSel = 2#2 :=
    fun n k _ => (trace_twoPresses k).2.2.1
  have hfreq : ∀ n, ∀ k < n, (trace sineQuarter 0#9 twoPresses (6 + k)).freqSel = 0#2 :=
    fun n k _ => (trace_twoPresses k).2.2.2
  have hphase : (trace sineQuarter 0#9 twoPresses 6).phaseAcc.toNat = 6 * 357913 := by decide
  refine ⟨?_, (square_frequency sineQuarter 0#9 twoPresses 6 12000000 (hsquare _)).2 0#2
    (hfreq _) rfl⟩
  rw [(square_frequency sineQuarter 0#9 twoPresses 6 12000 (hsquare _)).1, sum_phaseInc (hfreq _),
    hphase]
  rfl

end Top

end OlinCourses.Waveform
