import OlinCourses.Lib.Bits
import OlinCourses.Waveform.Top

/-!
# The triangle output

The upper bits of the phase accumulator ramp up over the first half of a cycle and down over
the second. An increment moves them by at most two, and the ramp turns without a jump.
-/
namespace OlinCourses.Waveform
open Bits

namespace Top

/-- The ramps as a function of the accumulator. -/
theorem toNat_dataTri (s : Top) : (s.dataTri.toNat : ℤ) =
    if s.phaseAcc.toNat < 2 ^ 31 then (s.phaseAcc.toNat / 2 ^ 21 : ℕ)
    else 2047 - (s.phaseAcc.toNat / 2 ^ 21 : ℕ) := by
  have hlt := s.phaseAcc.isLt
  have hfield := (extractLsb'_eq_iff s.phaseAcc 21 (s.phaseAcc.extractLsb' 21 10)).mp rfl
  have hmsb : s.phaseAcc.getLsbD 31 = decide (2 ^ 31 ≤ s.phaseAcc.toNat) := by
    rw [← BitVec.msb_eq_decide s.phaseAcc]
    rfl
  unfold dataTri
  rw [hmsb]
  by_cases hhalf : s.phaseAcc.toNat < 2 ^ 31
  · rw [if_neg (by simpa using hhalf), if_pos hhalf]
    omega
  · rw [if_pos (by simpa using hhalf), if_neg hhalf, BitVec.toNat_sub, BitVec.toNat_ofNat]
    omega

/-- An increment is less than two steps of the ramp. -/
theorem toNat_phaseInc_lt_two_steps (freqSel : BitVec 2) :
    (phaseInc freqSel).toNat < 2 * 2 ^ 21 := by
  revert freqSel
  decide

/-- One increment, also across the top, the bottom and the wrap of the accumulator. -/
theorem dataTri_add_phaseInc {s s' : Top} (freqSel : BitVec 2)
    (h : s'.phaseAcc = s.phaseAcc + phaseInc freqSel) :
    |(s'.dataTri.toNat : ℤ) - s.dataTri.toNat| ≤ 2 := by
  have hinc := toNat_phaseInc_lt_two_steps freqSel
  have hlt := s.phaseAcc.isLt
  have hacc : s'.phaseAcc.toNat = (s.phaseAcc.toNat + (phaseInc freqSel).toNat) % 2 ^ 32 := by
    rw [h, BitVec.toNat_add]
  rw [toNat_dataTri, toNat_dataTri, hacc, abs_le]
  split_ifs <;> omega

/-- The run from `s` in which `freq_sel` takes the given values, whatever the buttons do. -/
def drive (table : QuarterTable) (freqSel : ℕ → BitVec 2) (inputs : ℕ → Inputs) (s : Top) :
    ℕ → Top
  | 0 => { s with freqSel := freqSel 0 }
  | n + 1 => { (drive table freqSel inputs s n).clock table (inputs n) with
      freqSel := freqSel (n + 1) }

/-- The runs of the generator are among these. -/
theorem trace_eq_drive (table : QuarterTable) (readData : BitVec 9) (inputs : ℕ → Inputs)
    (n : ℕ) : trace table readData inputs n =
      drive table (fun n => (trace table readData inputs n).freqSel) inputs { readData } n := by
  induction n with
  | zero => rfl
  | succ n ih =>
    rw [drive, ← ih]
    rfl

/-- Consecutive values of the triangle differ by at most two, from any phase and for any
sequence of frequencies. -/
theorem dataTri_drive (table : QuarterTable) (freqSel : ℕ → BitVec 2) (inputs : ℕ → Inputs)
    (s : Top) (n : ℕ) :
    |((drive table freqSel inputs s (n + 1)).dataTri.toNat : ℤ) -
      (drive table freqSel inputs s n).dataTri.toNat| ≤ 2 :=
  dataTri_add_phaseInc (drive table freqSel inputs s n).freqSel rfl

end Top

end OlinCourses.Waveform
