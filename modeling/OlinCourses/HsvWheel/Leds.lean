import OlinCourses.HsvWheel.Wheel

/-!
# The LEDs of the colour wheel

`pwm.sv` and `top.sv`: a free-running counter for each channel, compared with the value
that the wheel shows, and the active-low outputs.
-/
namespace OlinCourses.HsvWheel
open Pulse

/-- `pwm`, at its default width. -/
structure Pwm where
  counter : BitVec 8 := 0#8

def Pwm.clock (s : Pwm) : Pwm := { counter := s.counter + 1#8 }

def Pwm.pwmOut (s : Pwm) (duty : BitVec 8) : Bool := s.counter.ult duty

/-- The registers of the design. -/
structure Top (clkFreq : ℕ) where
  hsvWheel : Wheel clkFreq := {}
  redPwm : Pwm := {}
  greenPwm : Pwm := {}
  bluePwm : Pwm := {}

namespace Top

variable {clkFreq : ℕ}

def clock (s : Top clkFreq) : Top clkFreq where
  hsvWheel := s.hsvWheel.clock
  redPwm := s.redPwm.clock
  greenPwm := s.greenPwm.clock
  bluePwm := s.bluePwm.clock

/-- The outputs `RGB_R`, `RGB_G` and `RGB_B`; a LED is lit while its output is low. -/
def rgb (s : Top clkFreq) : Channel → Bool
  | .red => !s.redPwm.pwmOut (colour s.hsvWheel.stepCounter).red
  | .green => !s.greenPwm.pwmOut (colour s.hsvWheel.stepCounter).green
  | .blue => !s.bluePwm.pwmOut (colour s.hsvWheel.stepCounter).blue

/-- The state after `n` clock edges. -/
def trace (clkFreq : ℕ) : ℕ → Top clkFreq
  | 0 => {}
  | n + 1 => (trace clkFreq n).clock

theorem hsvWheel_trace_eq (n : ℕ) :
    (trace clkFreq n).hsvWheel = HsvWheel.trace clkFreq n := by
  induction n with
  | zero => rfl
  | succ n ih => rw [trace, HsvWheel.trace, clock, ih]

def pwm (s : Top clkFreq) : Channel → Pwm
  | .red => s.redPwm
  | .green => s.greenPwm
  | .blue => s.bluePwm

theorem freeRunning_pwm (ch : Channel) :
    FreeRunning fun n => ((trace clkFreq n).pwm ch).counter := by
  intro n
  cases ch <;> rfl

theorem toNat_pwm (ch : Channel) (n : ℕ) : ((trace clkFreq n).pwm ch).counter.toNat = n % 256 := by
  have hzero : ((trace clkFreq 0).pwm ch).counter.toNat = 0 := by cases ch <;> rfl
  have hruns : FreeRunning fun n => ((trace clkFreq n).pwm ch).counter := freeRunning_pwm ch
  have hcounter := hruns.toNat_eq n
  rwa [hzero, Nat.zero_add] at hcounter

/-- The comparison of every channel, with its own counter and its own value. -/
theorem lit_iff (ch : Channel) (n : ℕ) : (trace clkFreq n).rgb ch = false ↔
    n % 256 < (colour (HsvWheel.trace clkFreq n).stepCounter).channel ch := by
  have hcounter : ((trace clkFreq n).pwm ch).counter.toNat = n % 256 := toNat_pwm ch n
  rw [← hsvWheel_trace_eq, ← hcounter]
  cases ch <;> simp [rgb, Pwm.pwmOut, BitVec.ult, pwm, Colour.channel]

theorem channel_of_largest {c : Colour} (h : c.largest = 255) : ∃ ch, c.channel ch = 255 := by
  by_contra hnone
  push Not at hnone
  have hred := hnone .red
  have hgreen := hnone .green
  have hblue := hnone .blue
  rw [Colour.largest] at h
  omega

theorem channel_of_smallest {c : Colour} (h : c.smallest = 0) : ∃ ch, c.channel ch = 0 := by
  by_contra hnone
  push Not at hnone
  have hred := hnone .red
  have hgreen := hnone .green
  have hblue := hnone .blue
  rw [Colour.smallest] at h
  omega

/-- The colour does not change within a step. -/
theorem colour_within_step (h : 720 ≤ clkFreq) {a n : ℕ}
    (hstep : n / cyclesPerStep clkFreq = a / cyclesPerStep clkFreq) :
    colour (HsvWheel.trace clkFreq n).stepCounter =
      colour (HsvWheel.trace clkFreq a).stepCounter := by
  apply congrArg colour
  apply BitVec.eq_of_toNat_eq
  rw [toNat_stepCounter_trace h, toNat_stepCounter_trace h, hstep]

theorem extremes_trace (h : 720 ≤ clkFreq) (n : ℕ) :
    (colour (HsvWheel.trace clkFreq n).stepCounter).largest = 255 ∧
      (colour (HsvWheel.trace clkFreq n).stepCounter).smallest = 0 := by
  rw [colour_of_step (toNat_stepCounter_trace h n)]
  exact hue_extremes (by omega) (by omega)

theorem channel_le (c : Colour) (ch : Channel) : c.channel ch ≤ 255 := by
  cases ch
  · exact Nat.le_of_lt_succ c.red.isLt
  · exact Nat.le_of_lt_succ c.green.isLt
  · exact Nat.le_of_lt_succ c.blue.isLt

/-- All LEDs are dark exactly in the last cycle of a PWM period. -/
theorem dark_iff (h : 720 ≤ clkFreq) (n : ℕ) :
    (∀ ch, (trace clkFreq n).rgb ch = true) ↔ n % 256 = 255 := by
  simp only [← Bool.not_eq_false, lit_iff]
  constructor
  · intro hdark
    obtain ⟨ch, hch⟩ := channel_of_largest (extremes_trace h n).1
    have hlt := hdark ch
    rw [hch] at hlt
    omega
  · intro hlast ch
    have hle := channel_le (colour (HsvWheel.trace clkFreq n).stepCounter) ch
    omega

/-- Whole PWM periods within a step light a LED in as many cycles of each as its value. -/
theorem count_lit (h : 720 ≤ clkFreq) {a k : ℕ}
    (hstep : ∀ i < 256 * k, (a + i) / cyclesPerStep clkFreq = a / cyclesPerStep clkFreq)
    (ch : Channel) : Nat.count (fun i => (trace clkFreq (a + i)).rgb ch = false) (256 * k) =
      k * (colour (HsvWheel.trace clkFreq a).stepCounter).channel ch := by
  have hle := channel_le (colour (HsvWheel.trace clkFreq a).stepCounter) ch
  have hperiodic : Function.Periodic
      (fun n => n % 256 < (colour (HsvWheel.trace clkFreq a).stepCounter).channel ch)
      (256 * k) := by
    intro n
    dsimp only
    rw [Nat.add_mul_mod_self_left]
  rw [← count_mod_lt (m := 256) (by omega) k, ← count_add_left_of_periodic hperiodic a,
    Nat.count_eq_card_filter_range, Nat.count_eq_card_filter_range]
  congr 1
  apply Finset.filter_congr
  intro i hi
  rw [lit_iff, colour_within_step h (hstep i (Finset.mem_range.mp hi))]

/-- At no time are all three LEDs lit, and they are all dark in one cycle of 256 only. In
whole PWM periods within a step of the wheel each LED is lit in as many cycles as the
value of its channel says. -/
theorem leds_trace (clkFreq : ℕ) (h : 720 ≤ clkFreq) :
    (∀ n, (∃ ch, (trace clkFreq n).rgb ch = true) ∧
      ((∀ ch, (trace clkFreq n).rgb ch = true) ↔ n % 256 = 255)) ∧
    ∀ a k ch, (∀ i < 256 * k, (a + i) / cyclesPerStep clkFreq = a / cyclesPerStep clkFreq) →
      Nat.count (fun i => (trace clkFreq (a + i)).rgb ch = false) (256 * k) =
        k * (colour (HsvWheel.trace clkFreq a).stepCounter).channel ch := by
  refine ⟨fun n => ⟨?_, dark_iff h n⟩, fun a k ch hstep => count_lit h hstep ch⟩
  obtain ⟨ch, hch⟩ := channel_of_smallest (extremes_trace h n).2
  refine ⟨ch, ?_⟩
  rw [← Bool.not_eq_false, lit_iff, hch]
  exact Nat.not_lt_zero _

/-- The first period of the wheel at 12 MHz is red. -/
theorem leds_trace_first : Nat.count (fun i =>
    (trace 12000000 (0 + i)).rgb .red = false) (256 * 1) = 1 * 255 := by
  apply (leds_trace 12000000 (by decide)).2 0 1 .red
  intro i hi
  have hcycles : cyclesPerStep 12000000 = 33333 := rfl
  rw [hcycles]
  omega

end Top

end OlinCourses.HsvWheel
