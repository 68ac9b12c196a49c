import OlinCourses.Lib.Pulse
import OlinCourses.Processor.Memory

/-!
# Timers and PWM outputs

The memory module along a run: the timers show the elapsed clock cycles whatever happens
on the bus, and each PWM output is high for its duty cycle.
-/
namespace OlinCourses.Processor
open Pulse

namespace Memory

/-- The inputs of the module at a clock edge. -/
structure Bus where
  memWrite : Bool
  address : Word
  writeData : Word
  funct3 : BitVec 3

/-- The state after `n` clock edges with the given inputs at each of them. -/
def trace (m : Memory) (bus : ℕ → Bus) : ℕ → Memory
  | 0 => m
  | n + 1 =>
    (trace m bus n).clock (bus n).memWrite (bus n).address (bus n).writeData (bus n).funct3

/-- The state at power-up with the given RAM. -/
def powerUp (mem : BitVec 11 → Word) : Memory := { mem }

section Timers

variable (mem : BitVec 11 → Word) (bus : ℕ → Bus)

theorem prescaled_micros : Prescaled 11#4
    (fun n => (trace (powerUp mem) bus n).microsCounter)
    (fun n => (trace (powerUp mem) bus n).micros) :=
  ⟨rfl, rfl, fun _ => rfl, fun _ => rfl⟩

theorem prescaled_millis : Prescaled 11999#14
    (fun n => (trace (powerUp mem) bus n).millisCounter)
    (fun n => (trace (powerUp mem) bus n).millis) :=
  ⟨rfl, rfl, fun _ => rfl, fun _ => rfl⟩

/-- After `n` edges from power-up `micros` has counted the multiples of 12 and `millis` those
of 12000, modulo `2 ^ 32`, and their prescalers show the remainders. -/
theorem timers_trace (n : ℕ) :
    (trace (powerUp mem) bus n).micros.toNat = n / 12 % 2 ^ 32 ∧
      (trace (powerUp mem) bus n).millis.toNat = n / 12000 % 2 ^ 32 ∧
      (trace (powerUp mem) bus n).microsCounter.toNat = n % 12 ∧
      (trace (powerUp mem) bus n).millisCounter.toNat = n % 12000 := by
  have hmicros := prescaled_micros mem bus
  have hmillis := prescaled_millis mem bus
  exact ⟨hmicros.toNat_counter n, hmillis.toNat_counter n, hmicros.toNat_prescaler n,
    hmillis.toNat_prescaler n⟩

end Timers

/-- The output with the duty cycle `leds[lo+7:lo]`. -/
def pwm (m : Memory) (lo : ℕ) : Bool := m.pwmCounter.ult (m.leds.extractLsb' lo 8)

def led (m : Memory) : Bool := m.pwm 24
def red (m : Memory) : Bool := m.pwm 16
def green (m : Memory) : Bool := m.pwm 8
def blue (m : Memory) : Bool := m.pwm 0

theorem freeRunning_pwmCounter (m : Memory) (bus : ℕ → Bus) (start : ℕ) :
    FreeRunning fun n => (trace m bus (start + n)).pwmCounter := fun _ => rfl

theorem count_pwm {m : Memory} {bus : ℕ → Bus} {start k : ℕ} {leds : Word}
    (h : ∀ n < 256 * k, (trace m bus (start + n)).leds = leds) (lo : ℕ) :
    Nat.count (fun n => (trace m bus (start + n)).pwm lo = true) (256 * k) =
      k * (leds.extractLsb' lo 8).toNat := by
  have hcount := (freeRunning_pwmCounter m bus start).count_ult (leds.extractLsb' lo 8) k
  rw [← hcount, Nat.count_eq_card_filter_range, Nat.count_eq_card_filter_range]
  congr 1
  refine Finset.filter_congr fun n hn => ?_
  rw [pwm, h n (Finset.mem_range.mp hn)]

/-- In a window of `256 * k` cycles in which the LED word does not change, each output is
high in exactly `k` times its duty cycle, whatever the PWM counter starts from. -/
theorem duty_cycle {m : Memory} {bus : ℕ → Bus} {start k : ℕ} {leds : Word}
    (h : ∀ n < 256 * k, (trace m bus (start + n)).leds = leds) :
    Nat.count (fun n => (trace m bus (start + n)).led = true) (256 * k) =
        k * (leds.extractLsb' 24 8).toNat ∧
      Nat.count (fun n => (trace m bus (start + n)).red = true) (256 * k) =
        k * (leds.extractLsb' 16 8).toNat ∧
      Nat.count (fun n => (trace m bus (start + n)).green = true) (256 * k) =
        k * (leds.extractLsb' 8 8).toNat ∧
      Nat.count (fun n => (trace m bus (start + n)).blue = true) (256 * k) =
        k * (leds.extractLsb' 0 8).toNat :=
  ⟨count_pwm h 24, count_pwm h 16, count_pwm h 8, count_pwm h 0⟩

theorem leds_trace_of_not_write (m : Memory) {bus : ℕ → Bus} (h : ∀ n, (bus n).memWrite = false)
    (n : ℕ) : (trace m bus n).leds = m.leds := by
  induction n with
  | zero => rfl
  | succ n ih => rw [trace, h, clock_leds_of_not_write, ih]

/-- Red at 255 and blue at 128, from the middle of a period on. -/
theorem duty_cycle_red :
    let m : Memory := { mem := fun _ => 0#32, leds := 0x00FF0080#32, pwmCounter := 77#8 }
    let bus : ℕ → Bus := fun _ => ⟨false, 0#32, 0#32, 0#3⟩
    Nat.count (fun n => (trace m bus (5 + n)).red = true) (256 * 2) = 510 ∧
      Nat.count (fun n => (trace m bus (5 + n)).blue = true) (256 * 2) = 256 := by
  intro m bus
  obtain ⟨-, hred, -, hblue⟩ := @duty_cycle m bus 5 2 0x00FF0080#32 fun n _ =>
    leds_trace_of_not_write m (fun _ => rfl) (5 + n)
  exact ⟨hred, hblue⟩

end Memory

end OlinCourses.Processor
