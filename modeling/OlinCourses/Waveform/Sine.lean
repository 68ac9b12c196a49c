import OlinCourses.Lib.Bits
import OlinCourses.Waveform.Top

/-!
# The sine output

The quarter table is read one clock late, and the sign of the sample is that of the new
phase. The output is still the full wave at the old phase, since the phase moves by at most
one step and the table is zero where the sign changes.
-/
namespace OlinCourses.Waveform
open Bits

/-- The full wave over 512 phases, of which the table holds the first quarter. -/
def fullWave (table : QuarterTable) (phase : BitVec 9) : ℤ :=
  let k := phase.extractLsb' 0 7
  match phase.extractLsb' 7 2 with
  | 0b00#2 => 512 + (table k).toNat
  | 0b01#2 => 512 + (table (127#7 - k)).toNat
  | 0b10#2 => 512 - (table k).toNat
  | _ => 512 - (table (127#7 - k)).toNat

namespace SineGen

/-- The four quadrants of a phase. -/
theorem quadrant_cases (phase : BitVec 9) :
    (phase.extractLsb' 7 2 = 0b00#2 ∧ phase.toNat / 128 = 0) ∨
    (phase.extractLsb' 7 2 = 0b01#2 ∧ phase.toNat / 128 = 1) ∨
    (phase.extractLsb' 7 2 = 0b10#2 ∧ phase.toNat / 128 = 2) ∨
    (phase.extractLsb' 7 2 = 0b11#2 ∧ phase.toNat / 128 = 3) := by
  have hlt := phase.isLt
  simp only [extractLsb'_eq_iff, BitVec.toNat_ofNat]
  omega

/-- The output adds the sample in the first half of the wave and subtracts it in the second,
without overflow. -/
theorem toNat_out (phase quarterData : BitVec 9) : ((out phase quarterData).toNat : ℤ) =
    if phase.toNat < 256 then 512 + (quarterData.toNat : ℤ) else 512 - quarterData.toNat := by
  have hlt := quarterData.isLt
  have hwide : (quarterData.setWidth 10).toNat = quarterData.toNat := by
    rw [BitVec.toNat_setWidth]
    omega
  have hadd : ((512#10 + quarterData.setWidth 10).toNat : ℤ) = 512 + quarterData.toNat := by
    rw [BitVec.toNat_add, hwide, BitVec.toNat_ofNat]
    omega
  have hsub : ((512#10 - quarterData.setWidth 10).toNat : ℤ) = 512 - quarterData.toNat := by
    rw [BitVec.toNat_sub, hwide, BitVec.toNat_ofNat]
    omega
  unfold out
  obtain ⟨hq, hn⟩ | ⟨hq, hn⟩ | ⟨hq, hn⟩ | ⟨hq, hn⟩ := quadrant_cases phase
  · rw [hq, if_pos (by omega)]
    exact hadd
  · rw [hq, if_pos (by omega)]
    exact hadd
  · rw [hq, if_neg (by omega)]
    exact hsub
  · rw [hq, if_neg (by omega)]
    exact hsub

theorem fullWave_eq (table : QuarterTable) (phase : BitVec 9) : fullWave table phase =
    if phase.toNat < 256 then 512 + ((table (quarterAddress phase)).toNat : ℤ)
    else 512 - (table (quarterAddress phase)).toNat := by
  unfold fullWave quarterAddress
  obtain ⟨hq, hn⟩ | ⟨hq, hn⟩ | ⟨hq, hn⟩ | ⟨hq, hn⟩ := quadrant_cases phase
  · rw [hq, if_pos (by omega)]
    rfl
  · rw [hq, if_pos (by omega)]
    rfl
  · rw [hq, if_neg (by omega)]
    rfl
  · rw [hq, if_neg (by omega)]
    rfl

/-- The last phase of each half reads the first entry of the table. -/
theorem quarterAddress_last {phase : BitVec 9} (h : phase = 255#9 ∨ phase = 511#9) :
    quarterAddress phase = 0#7 := by
  rcases h with rfl | rfl
  · rfl
  · rfl

/-- The sample of a phase is right for the next phase too: at the two sign changes it is
the first entry of the table. -/
theorem out_eq_fullWave {table : QuarterTable} (h : table 0#7 = 0#9) {phase phase' : BitVec 9}
    (hnext : phase' = phase ∨ phase' = phase + 1#9) :
    ((out phase' (table (quarterAddress phase))).toNat : ℤ) = fullWave table phase := by
  rw [toNat_out, fullWave_eq]
  by_cases hhalf : phase'.toNat < 256 ↔ phase.toNat < 256
  · simp only [hhalf]
  · -- the sign changes, so the old phase is the last one of its half
    have hlast : phase = 255#9 ∨ phase = 511#9 := by
      rcases hnext with rfl | rfl
      · exact absurd Iff.rfl hhalf
      · have hlt := phase.isLt
        rw [BitVec.toNat_add, BitVec.toNat_ofNat] at hhalf
        rw [← BitVec.toNat_inj, ← BitVec.toNat_inj, BitVec.toNat_ofNat, BitVec.toNat_ofNat]
        omega
    rw [quarterAddress_last hlast, h]
    simp

end SineGen

namespace Top

/-- An increment is less than a step of the phase. -/
theorem toNat_phaseInc_lt (freqSel : BitVec 2) : (phaseInc freqSel).toNat < 2 ^ 23 := by
  revert freqSel
  decide

theorem toNat_phase (s : Top) : s.phase.toNat = s.phaseAcc.toNat / 2 ^ 23 := by
  have hlt := s.phaseAcc.isLt
  have hphase := (extractLsb'_eq_iff s.phaseAcc 23 s.phase).mp rfl
  omega

theorem phase_clock (table : QuarterTable) (s : Top) (inputs : Inputs) :
    (s.clock table inputs).phase = s.phase ∨ (s.clock table inputs).phase = s.phase + 1#9 := by
  have hinc := toNat_phaseInc_lt s.freqSel
  have hacc : (s.clock table inputs).phaseAcc.toNat =
      (s.phaseAcc.toNat + (phaseInc s.freqSel).toNat) % 2 ^ 32 := BitVec.toNat_add _ _
  have hlt := s.phaseAcc.isLt
  rw [← BitVec.toNat_inj, ← BitVec.toNat_inj, BitVec.toNat_add, BitVec.toNat_ofNat, toNat_phase,
    toNat_phase, hacc]
  omega

/-- After an edge the sine output is the full wave at the phase before it. -/
theorem dataSine_clock {table : QuarterTable} (h : table 0#7 = 0#9) (s : Top) (inputs : Inputs) :
    ((s.clock table inputs).dataSine.toNat : ℤ) = fullWave table s.phase :=
  SineGen.out_eq_fullWave h (phase_clock table s inputs)

/-- Along every run, whatever the buttons and with them the frequency do. -/
theorem dataSine_trace {table : QuarterTable} (h : table 0#7 = 0#9) (readData : BitVec 9)
    (inputs : ℕ → Inputs) (n : ℕ) :
    ((trace table readData inputs (n + 1)).dataSine.toNat : ℤ) =
      fullWave table (trace table readData inputs n).phase :=
  dataSine_clock h _ (inputs n)

/-- `sine_quarter.txt`. -/
def sineQuarterSamples : List (BitVec 9) :=
  [0x000, 0x006, 0x00D, 0x013, 0x019, 0x020, 0x026, 0x02C, 0x032, 0x039, 0x03F, 0x045,
   0x04C, 0x052, 0x058, 0x05E, 0x064, 0x06B, 0x071, 0x077, 0x07D, 0x083, 0x089, 0x08F,
   0x095, 0x09C, 0x0A2, 0x0A7, 0x0AD, 0x0B3, 0x0B9, 0x0BF, 0x0C5, 0x0CB, 0x0D1, 0x0D6,
   0x0DC, 0x0E2, 0x0E7, 0x0ED, 0x0F3, 0x0F8, 0x0FE, 0x103, 0x109, 0x10E, 0x113, 0x119,
   0x11E, 0x123, 0x128, 0x12D, 0x132, 0x137, 0x13C, 0x141, 0x146, 0x14B, 0x150, 0x155,
   0x159, 0x15E, 0x163, 0x167, 0x16C, 0x170, 0x174, 0x179, 0x17D, 0x181, 0x185, 0x189,
   0x18D, 0x191, 0x195, 0x199, 0x19D, 0x1A0, 0x1A4, 0x1A8, 0x1AB, 0x1AF, 0x1B2, 0x1B5,
   0x1B8, 0x1BC, 0x1BF, 0x1C2, 0x1C5, 0x1C8, 0x1CA, 0x1CD, 0x1D0, 0x1D2, 0x1D5, 0x1D7,
   0x1DA, 0x1DC, 0x1DE, 0x1E1, 0x1E3, 0x1E5, 0x1E7, 0x1E9, 0x1EA, 0x1EC, 0x1EE, 0x1EF,
   0x1F1, 0x1F2, 0x1F4, 0x1F5, 0x1F6, 0x1F7, 0x1F8, 0x1F9, 0x1FA, 0x1FB, 0x1FC, 0x1FD,
   0x1FD, 0x1FE, 0x1FE, 0x1FE, 0x1FF, 0x1FF, 0x1FF, 0x1FF]

def sineQuarter : QuarterTable := fun k => sineQuarterSamples.getD k.toNat 0#9

theorem dataSine_trace_sineQuarter :
    ((trace sineQuarter 0#9 (fun _ => ⟨true, true⟩) (99 + 1)).dataSine.toNat : ℤ) =
      fullWave sineQuarter (trace sineQuarter 0#9 (fun _ => ⟨true, true⟩) 99).phase :=
  dataSine_trace (by decide) 0#9 (fun _ => ⟨true, true⟩) 99

end Top

end OlinCourses.Waveform
