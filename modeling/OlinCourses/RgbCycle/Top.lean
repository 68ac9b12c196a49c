import OlinCourses.Lib.Pulse

/-!
# The cycle of six colours

`top.sv` of the first project: a colour for every `COLOR_INTERVAL` clock edges, with yellow
dimmed by a counter of its own. The source gives neither counter a first value, so they start
with whatever the registers hold at power-up.
-/
namespace OlinCourses.RgbCycle
open Pulse

inductive State
  | red
  | yellow
  | green
  | cyan
  | blue
  | magenta
  deriving DecidableEq

def State.next : State → State
  | .red => .yellow
  | .yellow => .green
  | .green => .cyan
  | .cyan => .blue
  | .blue => .magenta
  | .magenta => .red

/-- The registers of the design, for the parameters `COLOR_INTERVAL` and `PWM_INTERVAL`. -/
structure Top (colorInterval pwmInterval : ℕ) where
  state : State := .red
  count : BitVec (clog2 colorInterval)
  pwmCount : BitVec (clog2 pwmInterval)

/-- The outputs; 0 is on. -/
structure Rgb where
  r : Bool
  g : Bool
  b : Bool
  deriving DecidableEq

namespace Top

variable {colorInterval pwmInterval : ℕ}

/-- One rising edge of `clk`. -/
def clock (s : Top colorInterval pwmInterval) : Top colorInterval pwmInterval where
  state := if s.count.toNat = colorInterval - 1 then s.state.next else s.state
  count := if s.count.toNat = colorInterval - 1 then 0 else s.count + 1
  pwmCount := if s.pwmCount.toNat = pwmInterval - 1 then 0 else s.pwmCount + 1

def rgb (s : Top colorInterval pwmInterval) : Rgb :=
  match s.state with
  | .red => ⟨false, true, true⟩
  | .yellow => ⟨false, s.pwmCount.toNat < pwmInterval / 2, true⟩
  | .green => ⟨true, false, true⟩
  | .cyan => ⟨true, false, false⟩
  | .blue => ⟨true, true, false⟩
  | .magenta => ⟨false, true, false⟩

/-- The state after `n` clock edges. -/
def trace (s : Top colorInterval pwmInterval) (n : ℕ) : Top colorInterval pwmInterval :=
  clock^[n] s

theorem trace_succ (s : Top colorInterval pwmInterval) (n : ℕ) :
    s.trace (n + 1) = (s.trace n).clock := Function.iterate_succ_apply' ..

/-- The last count of an interval. -/
def last (interval : ℕ) : BitVec (clog2 interval) := BitVec.ofNat _ (interval - 1)

theorem toNat_last {interval : ℕ} (h : 0 < interval) : (last interval).toNat = interval - 1 := by
  have hfits : interval ≤ 2 ^ clog2 interval := Nat.le_pow_clog (by decide) _
  rw [last, BitVec.toNat_ofNat, Nat.mod_eq_of_lt (by omega)]

theorem toNat_eq_last_iff {interval : ℕ} (h : 0 < interval) (x : BitVec (clog2 interval)) :
    x.toNat = interval - 1 ↔ x = last interval := by
  rw [← toNat_last h, BitVec.toNat_inj]

theorem wrapping_count (h : 0 < colorInterval) (s : Top colorInterval pwmInterval) :
    Wrapping (last colorInterval) fun n => (s.trace n).count := by
  intro n
  dsimp only
  rw [trace_succ, clock]
  simp only [toNat_eq_last_iff h]
  rfl

theorem wrapping_pwmCount (h : 0 < pwmInterval) (s : Top colorInterval pwmInterval) :
    Wrapping (last pwmInterval) fun n => (s.trace n).pwmCount := by
  intro n
  dsimp only
  rw [trace_succ, clock]
  simp only [toNat_eq_last_iff h]
  rfl

/-- The colour has changed at every wrap of the first counter. -/
theorem state_trace (h : 0 < colorInterval) (s : Top colorInterval pwmInterval) (n : ℕ) :
    (s.trace n).state =
      State.next^[Nat.count (fun k => (s.trace k).count = last colorInterval) n] s.state := by
  induction n with
  | zero => rfl
  | succ n ih =>
    rw [trace_succ, clock, Nat.count_succ, ih]
    simp only [toNat_eq_last_iff h]
    split_ifs
    · rw [Function.iterate_succ_apply']
    · rfl

/-- The first change of colour, at the latest after all counts of the register. -/
def firstChange (s : Top colorInterval pwmInterval) : ℕ := firstWrap (last colorInterval) s.count

/-- The first edge from which on yellow is dimmed evenly. -/
def firstPwm (s : Top colorInterval pwmInterval) : ℕ := firstWrap (last pwmInterval) s.pwmCount

theorem toNat_pwmCount (h : 0 < pwmInterval) (s : Top colorInterval pwmInterval) (n : ℕ) :
    (s.trace (s.firstPwm + n)).pwmCount.toNat = n % pwmInterval := by
  have hafter := (wrapping_pwmCount h s).toNat_after n
  rwa [toNat_last h, Nat.sub_add_cancel h] at hafter

theorem state_eq (h : 0 < colorInterval) (s : Top colorInterval pwmInterval) (n : ℕ) :
    (s.trace n).state =
      State.next^[(n + colorInterval - s.firstChange) / colorInterval] s.state := by
  have hwraps := (wrapping_count h s).count_wraps n
  rw [toNat_last h, Nat.sub_add_cancel h] at hwraps
  rw [state_trace h, hwraps]
  rfl

/-- Yellow shows green in the upper half of an interval. -/
theorem g_eq_false_iff (h : 0 < pwmInterval) (s : Top colorInterval pwmInterval) {n : ℕ}
    (hyellow : (s.trace (s.firstPwm + n)).state = .yellow) :
    (s.trace (s.firstPwm + n)).rgb.g = false ↔ pwmInterval / 2 ≤ n % pwmInterval := by
  rw [rgb, hyellow, ← toNat_pwmCount h s n]
  exact decide_eq_false_iff_not.trans not_lt

/-- `k` periods of the second counter have yellow on green for its upper counts. -/
theorem count_dimmed (h : 0 < pwmInterval) (s : Top colorInterval pwmInterval) {a k : ℕ}
    (ha : s.firstPwm ≤ a) (hyellow : ∀ i < pwmInterval * k, (s.trace (a + i)).state = .yellow) :
    Nat.count (fun i => (s.trace (a + i)).rgb.g = false) (pwmInterval * k) =
      k * (pwmInterval - pwmInterval / 2) := by
  obtain ⟨m, rfl⟩ := Nat.exists_eq_add_of_le ha
  have hperiodic : Function.Periodic (fun n => n % pwmInterval < pwmInterval / 2)
      (pwmInterval * k) := by
    intro n
    dsimp only
    rw [Nat.add_mul_mod_self_left]
  have hoff := count_add_left_of_periodic hperiodic m
  rw [count_mod_lt (Nat.div_le_self _ _)] at hoff
  have hsplit := Finset.card_filter_add_card_filter_not (s := Finset.range (pwmInterval * k))
    (fun i => (m + i) % pwmInterval < pwmInterval / 2)
  rw [← Nat.count_eq_card_filter_range, hoff, Finset.card_range] at hsplit
  have hlit : (Finset.range (pwmInterval * k)).filter
      (fun i => (s.trace (s.firstPwm + m + i)).rgb.g = false) =
      (Finset.range (pwmInterval * k)).filter
        (fun i => ¬ (m + i) % pwmInterval < pwmInterval / 2) := by
    apply Finset.filter_congr
    intro i hi
    have hi' := hyellow i (Finset.mem_range.mp hi)
    rw [Nat.add_assoc] at hi' ⊢
    rw [g_eq_false_iff h s hi', not_lt]
  rw [Nat.count_eq_card_filter_range, hlit, Nat.mul_sub, Nat.mul_comm k pwmInterval]
  exact Nat.eq_sub_of_add_eq' hsplit

/-- Whatever the counters hold at power-up, the colours settle: red lasts for at most all
counts of the register, and from then on every colour comes in its turn for exactly
`COLOR_INTERVAL` edges. At the latest after all counts of the other register, yellow shows
green in exactly the upper half of every `PWM_INTERVAL` edges, rounded up. -/
theorem trace_settles (hcolor : 2 ≤ colorInterval) (hpwm : 2 ≤ pwmInterval)
    (s : Top colorInterval pwmInterval) (hred : s.state = .red) :
    (s.firstChange ≤ 2 ^ clog2 colorInterval ∧
      (∀ n < s.firstChange, (s.trace n).state = .red) ∧
      ∀ k, ∀ i < colorInterval,
        (s.trace (s.firstChange + colorInterval * k + i)).state = State.next^[k + 1] .red) ∧
    (s.firstPwm ≤ 2 ^ clog2 pwmInterval ∧
      (∀ n, (s.trace (s.firstPwm + n)).state = .yellow →
        ((s.trace (s.firstPwm + n)).rgb.g = false ↔ pwmInterval / 2 ≤ n % pwmInterval)) ∧
      ∀ a k, s.firstPwm ≤ a → (∀ i < pwmInterval * k, (s.trace (a + i)).state = .yellow) →
        Nat.count (fun i => (s.trace (a + i)).rgb.g = false) (pwmInterval * k) =
          k * (pwmInterval - pwmInterval / 2)) := by
  refine ⟨⟨firstWrap_le _ _, fun n hn => ?_, fun k i hi => ?_⟩, firstWrap_le _ _,
    fun n hyellow => g_eq_false_iff (by omega) s hyellow,
    fun a k ha hyellow => count_dimmed (by omega) s ha hyellow⟩
  · rw [state_eq (by omega), Nat.div_eq_of_lt (by omega), hred]
    rfl
  · have hquotient : s.firstChange + colorInterval * k + i + colorInterval - s.firstChange =
        i + colorInterval * (k + 1) := by
      rw [Nat.mul_succ]
      omega
    rw [state_eq (by omega), hquotient, Nat.add_mul_div_left _ _ (by omega),
      Nat.div_eq_of_lt hi, Nat.zero_add, hred]

/-- Both counters start above their intervals. -/
def aboveIntervals : Top 2000000 120 := { count := 2097151#21, pwmCount := 127#7 }

theorem trace_settles_aboveIntervals :
    (aboveIntervals.trace 4000006).state = .green ∧
      (aboveIntervals.trace 2000161).rgb.g = true ∧ (aboveIntervals.trace 2000221).rgb.g = false ∧
      Nat.count (fun i => (aboveIntervals.trace (2000001 + i)).rgb.g = false) (120 * 1) = 60 := by
  have hchange : aboveIntervals.firstChange = 2000001 := by decide +kernel
  have hpwm : aboveIntervals.firstPwm = 121 := by decide +kernel
  obtain ⟨⟨-, -, hcolor⟩, -, hdimmed, hcount⟩ :=
    trace_settles (by decide) (by decide) aboveIntervals rfl
  rw [hchange] at hcolor
  rw [hpwm] at hdimmed hcount
  have hyellow : ∀ i < 2000000, (aboveIntervals.trace (2000001 + i)).state = .yellow :=
    fun i hi => hcolor 0 i hi
  refine ⟨hcolor 1 5 (by decide), ?_, ?_, ?_⟩
  · have hoff := (hdimmed 2000040 (hyellow 160 (by decide))).not.mpr (by decide)
    rwa [Bool.not_eq_false] at hoff
  · exact (hdimmed 2000100 (hyellow 220 (by decide))).mpr (by decide)
  · exact hcount 2000001 1 (by decide) fun i hi => hyellow i (by omega)

end Top

end OlinCourses.RgbCycle
