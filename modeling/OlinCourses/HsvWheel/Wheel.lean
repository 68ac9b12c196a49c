import OlinCourses.Lib.Pulse

/-!
# The colour wheel

`hsv_wheel.sv`: a counter of clock cycles, a counter of the 360 steps of the wheel, and the
channel values of a step. The width of the first counter comes from the clock frequency.
-/
namespace OlinCourses.HsvWheel
open Pulse

def TOTAL_STEPS : ℕ := 360

/-- `CYCLES_PER_STEP`, for the parameter `CLK_FREQ`. -/
def cyclesPerStep (clkFreq : ℕ) : ℕ := clkFreq / TOTAL_STEPS

/-- The registers of the module, without those of the PWM outputs. -/
structure Wheel (clkFreq : ℕ) where
  cycleCounter : BitVec (clog2 (cyclesPerStep clkFreq)) := 0
  stepCounter : BitVec 9 := 0#9

/-- The values of the three channels. -/
structure Colour where
  red : BitVec 8
  green : BitVec 8
  blue : BitVec 8
  deriving DecidableEq

/-- One rising edge of `clk`. -/
def Wheel.clock {clkFreq : ℕ} (s : Wheel clkFreq) : Wheel clkFreq :=
  if cyclesPerStep clkFreq - 1 ≤ s.cycleCounter.toNat then
    { cycleCounter := 0
      stepCounter := if TOTAL_STEPS - 1 ≤ s.stepCounter.toNat then 0#9 else s.stepCounter + 1#9 }
  else { s with cycleCounter := s.cycleCounter + 1 }

/-- The state after `n` clock edges. -/
def trace (clkFreq : ℕ) : ℕ → Wheel clkFreq
  | 0 => {}
  | n + 1 => (trace clkFreq n).clock

/-- `(remainder * 255) / 60`; the unsized literals make it 32 bits wide. -/
def scaled (remainder : BitVec 8) : BitVec 32 := remainder.setWidth 32 * 255#32 / 60#32

/-- The combinational part of the module. -/
def colour (stepCounter : BitVec 9) : Colour :=
  let region : BitVec 9 := (stepCounter.setWidth 32 / 60#32).setWidth 9
  let remainder : BitVec 8 := (stepCounter.setWidth 32 % 60#32).setWidth 8
  let p : BitVec 8 := 0#8
  let q : BitVec 8 := (255#32 - scaled remainder).setWidth 8
  let t : BitVec 8 := (scaled remainder).setWidth 8
  match region with
  | 0#9 => ⟨255#8, t, p⟩
  | 1#9 => ⟨q, 255#8, p⟩
  | 2#9 => ⟨p, 255#8, t⟩
  | 3#9 => ⟨p, q, 255#8⟩
  | 4#9 => ⟨t, p, 255#8⟩
  | 5#9 => ⟨255#8, p, q⟩
  | _ => ⟨255#8, 0#8, 0#8⟩

section Counters

variable {clkFreq : ℕ}

theorem cyclesPerStep_ge (h : 720 ≤ clkFreq) : 2 ≤ cyclesPerStep clkFreq :=
  (Nat.le_div_iff_mul_le (by decide)).mpr h

/-- The counts up to the last cycle of a step fit into the register. -/
theorem cyclesPerStep_le_two_pow (clkFreq : ℕ) :
    cyclesPerStep clkFreq ≤ 2 ^ clog2 (cyclesPerStep clkFreq) :=
  Nat.le_pow_clog (by decide) _

theorem toNat_cycleCounter_clock (h : 720 ≤ clkFreq) (s : Wheel clkFreq) :
    s.clock.cycleCounter.toNat = wrap (cyclesPerStep clkFreq) s.cycleCounter.toNat := by
  have hcycles := cyclesPerStep_ge h
  have hfits := cyclesPerStep_le_two_pow clkFreq
  unfold Wheel.clock wrap
  by_cases hlast : cyclesPerStep clkFreq - 1 ≤ s.cycleCounter.toNat
  · rw [if_pos hlast, if_pos hlast]
    exact Nat.zero_mod _
  · have hlt : 1 < 2 ^ clog2 (cyclesPerStep clkFreq) := by omega
    have hone : (1 : BitVec (clog2 (cyclesPerStep clkFreq))).toNat = 1 := Nat.mod_eq_of_lt hlt
    rw [if_neg hlast, if_neg hlast, BitVec.toNat_add, hone, Nat.mod_eq_of_lt (by omega)]

theorem toNat_stepCounter_clock (s : Wheel clkFreq) : s.clock.stepCounter.toNat =
    if cyclesPerStep clkFreq - 1 ≤ s.cycleCounter.toNat then
      wrap TOTAL_STEPS s.stepCounter.toNat else s.stepCounter.toNat := by
  unfold Wheel.clock wrap
  split_ifs with hcycle hstep
  · rfl
  · rw [TOTAL_STEPS] at hstep
    dsimp only
    rw [BitVec.toNat_add, BitVec.toNat_ofNat]
    omega
  · rfl

theorem cascaded_trace (h : 720 ≤ clkFreq) : Cascaded (cyclesPerStep clkFreq) TOTAL_STEPS
    (fun n => (trace clkFreq n).cycleCounter.toNat)
    (fun n => (trace clkFreq n).stepCounter.toNat) where
  prescaler_zero := by simp [trace]
  counter_zero := rfl
  prescaler_step n := toNat_cycleCounter_clock h (trace clkFreq n)
  counter_step n := toNat_stepCounter_clock (trace clkFreq n)

/-- The step after `n` edges. -/
theorem toNat_stepCounter_trace (h : 720 ≤ clkFreq) (n : ℕ) :
    (trace clkFreq n).stepCounter.toNat = n / cyclesPerStep clkFreq % 360 :=
  (cascaded_trace h).counter_eq (by have := cyclesPerStep_ge h; omega) (by decide) n

end Counters

inductive Channel
  | red
  | green
  | blue
  deriving DecidableEq

def Colour.channel (c : Colour) : Channel → ℕ
  | .red => c.red.toNat
  | .green => c.green.toNat
  | .blue => c.blue.toNat

def Colour.set (c : Colour) : Channel → BitVec 8 → Colour
  | .red, v => { c with red := v }
  | .green, v => { c with green := v }
  | .blue, v => { c with blue := v }

theorem Colour.channel_set (c : Colour) (ch : Channel) (v : BitVec 8) (other : Channel) :
    (c.set ch v).channel other = if other = ch then v.toNat else c.channel other := by
  cases ch <;> cases other <;> rfl

def Colour.largest (c : Colour) : ℕ :=
  max (max (c.channel .red) (c.channel .green)) (c.channel .blue)

def Colour.smallest (c : Colour) : ℕ :=
  min (min (c.channel .red) (c.channel .green)) (c.channel .blue)

def DiffersByFourOrFive (x y : ℕ) : Prop := y = x + 4 ∨ y = x + 5 ∨ x = y + 4 ∨ x = y + 5

/-- Exactly one channel changes, by 4 or 5. -/
def MovesOneChannel (c c' : Colour) : Prop :=
  ∃ ch, DiffersByFourOrFive (c.channel ch) (c'.channel ch) ∧
    ∀ other, other ≠ ch → c'.channel other = c.channel other

def rising (r : ℕ) : BitVec 8 := BitVec.ofNat 8 (r * 255 / 60)

def falling (r : ℕ) : BitVec 8 := BitVec.ofNat 8 (255 - r * 255 / 60)

/-- The colour at position `r` of a region. -/
def hue : ℕ → ℕ → Colour
  | 0, r => ⟨255#8, rising r, 0#8⟩
  | 1, r => ⟨falling r, 255#8, 0#8⟩
  | 2, r => ⟨0#8, 255#8, rising r⟩
  | 3, r => ⟨0#8, falling r, 255#8⟩
  | 4, r => ⟨rising r, 0#8, 255#8⟩
  | _, r => ⟨255#8, 0#8, falling r⟩

theorem toNat_rising {r : ℕ} (hr : r ≤ 60) : (rising r).toNat = r * 255 / 60 := by
  rw [rising, BitVec.toNat_ofNat]
  omega

theorem toNat_falling {r : ℕ} (hr : r ≤ 60) : (falling r).toNat = 255 - r * 255 / 60 := by
  rw [falling, BitVec.toNat_ofNat]
  omega

theorem toNat_scaled {x : BitVec 8} {r : ℕ} (hx : x.toNat = r) (hr : r < 60) :
    (scaled x).toNat = r * 255 / 60 := by
  rw [scaled, BitVec.toNat_udiv, BitVec.toNat_mul, BitVec.toNat_setWidth, hx]
  simp only [BitVec.toNat_ofNat, Nat.reducePow, Nat.reduceMod]
  omega

theorem colour_eq {stepCounter : BitVec 9} {g r : ℕ} (hg : g < 6) (hr : r < 60)
    (h : stepCounter.toNat = 60 * g + r) : colour stepCounter = hue g r := by
  have hregion : (stepCounter.setWidth 32 / 60#32).setWidth 9 = BitVec.ofNat 9 g := by
    apply BitVec.eq_of_toNat_eq
    rw [BitVec.toNat_setWidth, BitVec.toNat_udiv, BitVec.toNat_setWidth, h]
    simp only [BitVec.toNat_ofNat, Nat.reducePow, Nat.reduceMod]
    omega
  have hremainder : ((stepCounter.setWidth 32 % 60#32).setWidth 8 : BitVec 8).toNat = r := by
    rw [BitVec.toNat_setWidth, BitVec.toNat_umod, BitVec.toNat_setWidth, h]
    simp only [BitVec.toNat_ofNat, Nat.reducePow, Nat.reduceMod]
    omega
  have ht : (scaled ((stepCounter.setWidth 32 % 60#32).setWidth 8)).setWidth 8 = rising r := by
    apply BitVec.eq_of_toNat_eq
    rw [BitVec.toNat_setWidth, toNat_scaled hremainder hr, toNat_rising hr.le]
    omega
  have hq : (255#32 - scaled ((stepCounter.setWidth 32 % 60#32).setWidth 8)).setWidth 8 =
      falling r := by
    apply BitVec.eq_of_toNat_eq
    rw [BitVec.toNat_setWidth, BitVec.toNat_sub, toNat_scaled hremainder hr, toNat_falling hr.le]
    simp only [BitVec.toNat_ofNat]
    omega
  simp only [colour, hregion, ht, hq]
  interval_cases g <;> rfl

/-- In every region one channel is full and another one dark. -/
theorem hue_extremes {g r : ℕ} (hg : g < 6) (hr : r < 60) :
    (hue g r).largest = 255 ∧ (hue g r).smallest = 0 := by
  have hrising := toNat_rising hr.le
  have hfalling := toNat_falling hr.le
  interval_cases g <;>
    simp only [hue, Colour.largest, Colour.smallest, Colour.channel, BitVec.toNat_ofNat,
      Nat.reducePow, Nat.reduceMod] <;>
    omega

/-- A region ends where the next one starts. -/
theorem hue_sixty {g : ℕ} (hg : g < 6) : hue g 60 = hue ((g + 1) % 6) 0 := by
  interval_cases g <;> rfl

theorem rising_succ {r : ℕ} (hr : r < 60) :
    DiffersByFourOrFive (rising r).toNat (rising (r + 1)).toNat := by
  rw [toNat_rising hr.le, toNat_rising hr, DiffersByFourOrFive]
  omega

theorem falling_succ {r : ℕ} (hr : r < 60) :
    DiffersByFourOrFive (falling r).toNat (falling (r + 1)).toNat := by
  rw [toNat_falling hr.le, toNat_falling hr, DiffersByFourOrFive]
  omega

theorem movesOneChannel_set {c : Colour} (ch : Channel) {v : BitVec 8}
    (h : DiffersByFourOrFive (c.channel ch) v.toNat) : MovesOneChannel c (c.set ch v) :=
  ⟨ch, by rwa [Colour.channel_set, if_pos rfl],
    fun other hother => by rw [Colour.channel_set, if_neg hother]⟩

theorem movesOneChannel_hue {g r : ℕ} (hg : g < 6) (hr : r < 60) :
    MovesOneChannel (hue g r) (hue g (r + 1)) := by
  have hrising := rising_succ hr
  have hfalling := falling_succ hr
  interval_cases g
  · exact movesOneChannel_set .green hrising
  · exact movesOneChannel_set .red hfalling
  · exact movesOneChannel_set .blue hrising
  · exact movesOneChannel_set .green hfalling
  · exact movesOneChannel_set .red hrising
  · exact movesOneChannel_set .blue hfalling

/-- The colour of step `k`, also of step 360 as that of step 0. -/
theorem colour_of_step {stepCounter : BitVec 9} {k : ℕ} (h : stepCounter.toNat = k % 360) :
    colour stepCounter = hue (k % 360 / 60) (k % 60) := by
  apply colour_eq (by omega) (by omega)
  omega

theorem movesOneChannel_step {step next : BitVec 9} {k : ℕ} (hstep : step.toNat = k % 360)
    (hnext : next.toNat = (k + 1) % 360) : MovesOneChannel (colour step) (colour next) := by
  have hg : k % 360 / 60 < 6 := by omega
  have hr : k % 60 < 60 := by omega
  have hmoves := movesOneChannel_hue hg hr
  rw [colour_of_step hstep, colour_of_step hnext]
  by_cases hlast : k % 60 = 59
  · have hregion : (k + 1) % 360 / 60 = (k % 360 / 60 + 1) % 6 := by omega
    have hstart : (k + 1) % 60 = 0 := by omega
    rw [hregion, hstart, ← hue_sixty hg]
    rwa [hlast] at hmoves ⊢
  · have hregion : (k + 1) % 360 / 60 = k % 360 / 60 := by omega
    have hposition : (k + 1) % 60 = k % 60 + 1 := by omega
    rwa [hregion, hposition]

/-- The counters after `n` edges, the extremes of the channel values, and how the values change
at an edge: not at all within a step, in one channel from a step to the next. -/
theorem hsvWheel_trace (clkFreq : ℕ) (h : 720 ≤ clkFreq) (n : ℕ) :
    ((trace clkFreq n).cycleCounter.toNat = n % cyclesPerStep clkFreq ∧
      n % cyclesPerStep clkFreq < 2 ^ clog2 (cyclesPerStep clkFreq) ∧
      (trace clkFreq n).stepCounter.toNat = n / cyclesPerStep clkFreq % 360) ∧
    ((colour (trace clkFreq n).stepCounter).largest = 255 ∧
      (colour (trace clkFreq n).stepCounter).smallest = 0) ∧
    (if cyclesPerStep clkFreq ∣ n + 1 then
        MovesOneChannel (colour (trace clkFreq n).stepCounter)
          (colour (trace clkFreq (n + 1)).stepCounter)
      else colour (trace clkFreq (n + 1)).stepCounter = colour (trace clkFreq n).stepCounter) := by
  have hcycles := cyclesPerStep_ge h
  have hcounters := cascaded_trace h
  have hcycle := hcounters.prescaler_eq (by omega) n
  have hstep := toNat_stepCounter_trace h n
  have hnext := toNat_stepCounter_trace h (n + 1)
  refine ⟨⟨hcycle, ?_, hstep⟩, ?_, ?_⟩
  · have hlt := (trace clkFreq n).cycleCounter.isLt
    rwa [hcycle] at hlt
  · rw [colour_of_step hstep]
    exact hue_extremes (by omega) (by omega)
  · rw [Nat.succ_div] at hnext
    split_ifs with hwrap
    · rw [if_pos hwrap] at hnext
      exact movesOneChannel_step hstep hnext
    · rw [if_neg hwrap] at hnext
      exact congrArg colour (BitVec.eq_of_toNat_eq (hnext.trans hstep.symm))

/-- Two cycles make a step, and the second edge ends the first one. -/
theorem hsvWheel_trace_720 :
    ((trace 720 1).cycleCounter.toNat = 1 ∧ 1 < 2 ^ clog2 (cyclesPerStep 720) ∧
      (trace 720 1).stepCounter.toNat = 0) ∧
    ((colour (trace 720 1).stepCounter).largest = 255 ∧
      (colour (trace 720 1).stepCounter).smallest = 0) ∧
    MovesOneChannel (colour (trace 720 1).stepCounter) (colour (trace 720 2).stepCounter) := by
  obtain ⟨hcounters, hextremes, hmoves⟩ := hsvWheel_trace 720 le_rfl 1
  rw [if_pos (by decide)] at hmoves
  exact ⟨hcounters, hextremes, hmoves⟩

end OlinCourses.HsvWheel
