import OlinCourses.Lib.Pulse
import OlinCourses.Waveform.Top

/-!
# What the selectors count

Each selector advances two clock edges after a rising edge of its synchronised
button, but its edge detector fires again while the button stays pressed.
-/
namespace OlinCourses.Waveform
open Pulse

/-- The registers of a button along a trace of its input. -/
structure Sampled (inputN : ℕ → Bool) (button : ℕ → Button) : Prop where
  init : button 0 = {}
  step : ∀ n, button (n + 1) = (button n).clock (inputN n)

section Sampled

variable {inputN : ℕ → Bool} {button : ℕ → Button} (h : Sampled inputN button)

include h

theorem Sampled.sync1_zero : (button 0).sync1 = false := by rw [h.init]

theorem Sampled.sync1_one : (button 1).sync1 = false := by rw [h.step, h.init]; rfl

/-- The synchroniser delays the inverted input by two edges. -/
theorem Sampled.sync1_add_two (n : ℕ) : (button (n + 2)).sync1 = !inputN n := by
  rw [h.step, h.step]
  rfl

/-- The synchronised button is never high for three samples exactly when the input
is never low at three clock edges in a row. -/
theorem Sampled.noTriple_iff :
    NoTriple (fun n => (button n).sync1) ↔ NoTriple (fun n => !inputN n) := by
  constructor
  · rintro hno n hpressed
    refine hno (n + 2) ?_
    simpa only [h.sync1_add_two] using hpressed
  · intro hno n
    match n with
    | 0 => simp [h.sync1_zero]
    | 1 => simp [h.sync1_one]
    | n + 2 => simpa only [h.sync1_add_two] using hno n

/-- A counter that advances on the edge detector of the button counts its presses
exactly when the button is never held for three clock edges. -/
theorem Sampled.counts_iff {m : ℕ} (hm : 2 ≤ m) {counter : ℕ → ℕ}
    (hcounter : Counts m (fun n => (button n).r) counter) :
    (∀ n, counter (n + 2) = Nat.count (Rises fun n => (button n).sync1) n % m) ↔
      NoTriple (fun n => !inputN n) := by
  have hr0 : (button 0).r = false := by rw [h.init]
  have hrstep : ∀ n, (button (n + 1)).r = ((button n).sync1 && !(button n).r) := by
    intro n
    rw [h.step]
    rfl
  have hr1 : (button 1).r = false := by rw [hrstep, h.sync1_zero]; rfl
  have hshift : Counts m (fun n => (button (n + 2)).r) (fun n => counter (n + 2)) := by
    refine ⟨?_, fun n => hcounter.step (n + 2)⟩
    rw [hcounter.step, hcounter.step, hcounter.zero]
    simp [hr0, hr1]
  have hpulses := self_clearing_iff (r := fun n => (button n).r) hr0 hrstep
  exact (hshift.eq_count_iff hm _).trans (hpulses.trans h.noTriple_iff)

end Sampled

namespace Top

section Trace

variable (table : QuarterTable) (readData : BitVec 9) (inputs : ℕ → Inputs)

theorem sampled_boot :
    Sampled (fun n => (inputs n).bootN) (fun n => (trace table readData inputs n).boot) :=
  ⟨rfl, fun _ => rfl⟩

theorem sampled_sw :
    Sampled (fun n => (inputs n).swN) (fun n => (trace table readData inputs n).sw) :=
  ⟨rfl, fun _ => rfl⟩

theorem waveformSel_succ (n : ℕ) : (trace table readData inputs (n + 1)).waveformSel =
    if (trace table readData inputs n).boot.r then
      (if (trace table readData inputs n).waveformSel = 2#2 then 0#2
        else (trace table readData inputs n).waveformSel + 1#2)
    else (trace table readData inputs n).waveformSel := rfl

theorem freqSel_succ (n : ℕ) : (trace table readData inputs (n + 1)).freqSel =
    if (trace table readData inputs n).sw.r then
      (if (trace table readData inputs n).freqSel = 3#2 then 0#2
        else (trace table readData inputs n).freqSel + 1#2)
    else (trace table readData inputs n).freqSel := rfl

theorem waveformSel_le (n : ℕ) : (trace table readData inputs n).waveformSel.toNat ≤ 2 := by
  induction n with
  | zero => exact Nat.zero_le 2
  | succ n ih =>
    rw [waveformSel_succ]
    by_cases hr : (trace table readData inputs n).boot.r = true
    · rw [if_pos hr, toNat_increment 2#2 ih]
      exact Nat.le_of_lt_succ (Nat.mod_lt _ (by norm_num))
    · rw [if_neg hr]
      exact ih

theorem counts_waveformSel : Counts 3 (fun n => (trace table readData inputs n).boot.r)
    (fun n => (trace table readData inputs n).waveformSel.toNat) := by
  refine ⟨rfl, fun n => ?_⟩
  have hincrement := toNat_increment 2#2 (waveformSel_le table readData inputs n)
  rw [waveformSel_succ]
  split_ifs at hincrement ⊢ <;> first | exact hincrement | rfl

theorem counts_freqSel : Counts 4 (fun n => (trace table readData inputs n).sw.r)
    (fun n => (trace table readData inputs n).freqSel.toNat) := by
  refine ⟨rfl, fun n => ?_⟩
  have hle : (trace table readData inputs n).freqSel.toNat ≤ (3#2).toNat :=
    Nat.le_of_lt_succ (BitVec.isLt _)
  have hincrement := toNat_increment 3#2 hle
  rw [freqSel_succ]
  split_ifs at hincrement ⊢ <;> first | exact hincrement | rfl

end Trace

/-- Two edges after it has happened, each 0-to-1 transition of a synchronised button
has advanced its selector once, and nothing else has. -/
def CountsPresses (table : QuarterTable) (readData : BitVec 9) (inputs : ℕ → Inputs) : Prop :=
  (∀ n, (trace table readData inputs (n + 2)).waveformSel.toNat =
    Nat.count (Rises fun k => (trace table readData inputs k).boot.sync1) n % 3) ∧
  ∀ n, (trace table readData inputs (n + 2)).freqSel.toNat =
    Nat.count (Rises fun k => (trace table readData inputs k).sw.sync1) n % 4

/-- The selectors count the presses exactly when neither button is held for three
clock edges in a row. -/
theorem countsPresses_iff (table : QuarterTable) (readData : BitVec 9) (inputs : ℕ → Inputs) :
    CountsPresses table readData inputs ↔
      (∀ n, ¬ ((inputs n).bootN = false ∧ (inputs (n + 1)).bootN = false ∧
        (inputs (n + 2)).bootN = false)) ∧
      ∀ n, ¬ ((inputs n).swN = false ∧ (inputs (n + 1)).swN = false ∧
        (inputs (n + 2)).swN = false) := by
  have hboot := (sampled_boot table readData inputs).counts_iff (by norm_num)
    (counts_waveformSel table readData inputs)
  have hsw := (sampled_sw table readData inputs).counts_iff (by norm_num)
    (counts_freqSel table readData inputs)
  simp only [NoTriple, Bool.not_eq_true'] at hboot hsw
  rw [CountsPresses, hboot, hsw]

/-- The BOOT button held for three clock edges advances the waveform twice. -/
theorem not_countsPresses_held :
    ¬ CountsPresses (fun _ => 0#9) 0#9 (fun n => ⟨decide (3 ≤ n), true⟩) := by
  intro h
  have hsix := h.1 4
  revert hsix
  decide

end Top

end OlinCourses.Waveform
