import OlinCourses.Waveform.Sine

/-!
# The sine generator with one counter

`top.sv` and `memory.sv` of the third project: a counter of 512 addresses reads a quarter
table forwards and backwards, and the second half of the wave is inverted. The sample is
read one clock late, the quadrant is that of the new address.
-/
namespace OlinCourses.SineWave

/-- `sine.txt`. -/
def sineSamples : List (BitVec 10) :=
  [0x200, 0x206, 0x20C, 0x212, 0x219, 0x21F, 0x225, 0x22B, 0x232, 0x238, 0x23E, 0x244,
   0x24B, 0x251, 0x257, 0x25D, 0x263, 0x269, 0x270, 0x276, 0x27C, 0x282, 0x288, 0x28E,
   0x294, 0x29A, 0x2A0, 0x2A6, 0x2AC, 0x2B2, 0x2B8, 0x2BD, 0x2C3, 0x2C9, 0x2CF, 0x2D5,
   0x2DA, 0x2E0, 0x2E5, 0x2EB, 0x2F1, 0x2F6, 0x2FC, 0x301, 0x306, 0x30C, 0x311, 0x316,
   0x31C, 0x321, 0x326, 0x32B, 0x330, 0x335, 0x33A, 0x33F, 0x344, 0x349, 0x34E, 0x352,
   0x357, 0x35C, 0x360, 0x365, 0x369, 0x36E, 0x372, 0x376, 0x37A, 0x37F, 0x383, 0x387,
   0x38B, 0x38F, 0x393, 0x397, 0x39A, 0x39E, 0x3A2, 0x3A5, 0x3A9, 0x3AC, 0x3B0, 0x3B3,
   0x3B6, 0x3B9, 0x3BD, 0x3C0, 0x3C3, 0x3C6, 0x3C8, 0x3CB, 0x3CE, 0x3D1, 0x3D3, 0x3D6,
   0x3D8, 0x3DA, 0x3DD, 0x3DF, 0x3E1, 0x3E3, 0x3E5, 0x3E7, 0x3E9, 0x3EB, 0x3EC, 0x3EE,
   0x3F0, 0x3F1, 0x3F3, 0x3F4, 0x3F5, 0x3F6, 0x3F7, 0x3F9, 0x3F9, 0x3FA, 0x3FB, 0x3FC,
   0x3FD, 0x3FD, 0x3FE, 0x3FE, 0x3FE, 0x3FF, 0x3FF, 0x3FF]

/-- `sample_memory[read_address]`. -/
def sampleMemory (readAddress : BitVec 7) : BitVec 10 := sineSamples.getD readAddress.toNat 0#10

/-- The registers; the source gives that of the memory no first value. -/
structure Top where
  address : BitVec 9 := 0#9
  readData : BitVec 10

namespace Top

def quadrant (s : Top) : BitVec 2 := s.address.extractLsb' 7 2

def quarterAddress (s : Top) : BitVec 7 :=
  match s.quadrant with
  | 0b00#2 => s.address.extractLsb' 0 7
  | 0b01#2 => 127#7 - s.address.extractLsb' 0 7
  | 0b10#2 => s.address.extractLsb' 0 7
  | _ => 127#7 - s.address.extractLsb' 0 7

/-- The ten output pins; `10'd1024` does not fit its width and is 0. -/
def data (s : Top) : BitVec 10 :=
  match s.quadrant with
  | 0b00#2 => s.readData
  | 0b01#2 => s.readData
  | _ => 1024#10 - s.readData

/-- One rising edge of `clk`. -/
def clock (s : Top) : Top where
  address := s.address + 1#9
  readData := sampleMemory s.quarterAddress

/-- The state after `n` clock edges. -/
def trace (readData : BitVec 10) (n : ℕ) : Top := clock^[n] { readData }

end Top

/-- The place in the quarter table that phase `n` falls on. -/
def mirrored (n : ℕ) : ℕ := if n / 128 % 2 = 0 then n % 128 else 127 - n % 128

def sample (n : ℕ) : ℕ := (sineSamples.getD (mirrored n) 0#10).toNat

/-- The full wave, of which the table holds the first quarter. -/
def fullWave (n : ℕ) : ℤ := if n / 256 % 2 = 0 then sample n else 1024 - sample n

theorem mirrored_lt (n : ℕ) : mirrored n < 128 := by
  unfold mirrored
  split_ifs <;> omega

/-- The table rises from the middle of the output range to its top. -/
theorem sample_bounds (n : ℕ) : 512 ≤ sample n ∧ sample n ≤ 1023 := by
  have htable : ∀ k < 128, 512 ≤ (sineSamples.getD k 0#10).toNat ∧
      (sineSamples.getD k 0#10).toNat ≤ 1023 := by decide +kernel
  exact htable _ (mirrored_lt n)

theorem mirrored_add_half (n : ℕ) : mirrored (n + 256) = mirrored n := by
  unfold mirrored
  split_ifs <;> omega

theorem fullWave_add_half (n : ℕ) : fullWave (n + 256) + fullWave n = 1024 := by
  unfold fullWave sample
  rw [mirrored_add_half]
  split_ifs <;> omega

theorem fullWave_mirror (m : ℕ) {k : ℕ} (hk : k < 256) :
    fullWave (256 * m + (255 - k)) = fullWave (256 * m + k) := by
  have hplace : mirrored (256 * m + (255 - k)) = mirrored (256 * m + k) := by
    unfold mirrored
    split_ifs <;> omega
  have hhalf : (256 * m + (255 - k)) / 256 = (256 * m + k) / 256 := by omega
  rw [fullWave, fullWave, sample, sample, hplace, hhalf]

theorem fullWave_quarter (m : ℕ) {k : ℕ} (hk : k < 128) :
    fullWave (512 * m + k) = (sineSamples.getD k 0#10).toNat := by
  have hplace : mirrored (512 * m + k) = k := by
    unfold mirrored
    split_ifs <;> omega
  rw [fullWave, sample, hplace, if_pos (by omega)]

theorem fullWave_rises (m : ℕ) {k : ℕ} (hk : k < 127) :
    fullWave (512 * m + k) ≤ fullWave (512 * m + k + 1) := by
  have htable : ∀ k < 127, (sineSamples.getD k 0#10).toNat ≤
      (sineSamples.getD (k + 1) 0#10).toNat := by decide +kernel
  rw [fullWave_quarter m (by omega), Nat.add_assoc, fullWave_quarter m (by omega)]
  exact_mod_cast htable k hk

theorem mirrored_mod (n : ℕ) : mirrored (n % 512) = mirrored n := by
  unfold mirrored
  split_ifs <;> omega

theorem toNat_sub_index (k : BitVec 7) : (127#7 - k).toNat = 127 - k.toNat := by
  have hlt := k.isLt
  rw [BitVec.toNat_sub, BitVec.toNat_ofNat]
  omega

theorem toNat_index (address : BitVec 9) :
    (address.extractLsb' 0 7).toNat = address.toNat % 128 := by
  rw [BitVec.extractLsb'_toNat, Nat.shiftRight_zero]

theorem toNat_quarterAddress (phase : BitVec 9) :
    (Waveform.SineGen.quarterAddress phase).toNat = mirrored phase.toNat := by
  unfold Waveform.SineGen.quarterAddress mirrored
  obtain ⟨hq, hn⟩ | ⟨hq, hn⟩ | ⟨hq, hn⟩ | ⟨hq, hn⟩ := Waveform.SineGen.quadrant_cases phase
  · rw [hq, if_neg (by decide), if_pos (by omega)]
    exact toNat_index phase
  · rw [hq, if_pos (by decide), if_neg (by omega), ← toNat_index]
    exact toNat_sub_index _
  · rw [hq, if_neg (by decide), if_pos (by omega)]
    exact toNat_index phase
  · rw [hq, if_pos (by decide), if_neg (by omega), ← toNat_index]
    exact toNat_sub_index _

namespace Top

/-- The address is that of the generator with buttons. -/
theorem quarterAddress_eq (s : Top) :
    s.quarterAddress = Waveform.SineGen.quarterAddress s.address := by
  unfold quarterAddress quadrant Waveform.SineGen.quarterAddress
  obtain ⟨hq, -⟩ | ⟨hq, -⟩ | ⟨hq, -⟩ | ⟨hq, -⟩ := Waveform.SineGen.quadrant_cases s.address
  · rw [hq, if_neg (by decide)]
    rfl
  · rw [hq, if_pos (by decide)]
    rfl
  · rw [hq, if_neg (by decide)]
    rfl
  · rw [hq, if_pos (by decide)]
    rfl

/-- The inversion does not overflow on a positive sample. -/
theorem toNat_data (s : Top) (hpos : 0 < s.readData.toNat) : (s.data.toNat : ℤ) =
    if s.address.toNat < 256 then (s.readData.toNat : ℤ) else 1024 - s.readData.toNat := by
  have hlt := s.readData.isLt
  have hsub : ((1024#10 - s.readData).toNat : ℤ) = 1024 - s.readData.toNat := by
    rw [BitVec.toNat_sub, BitVec.toNat_ofNat]
    omega
  unfold data quadrant
  obtain ⟨hq, hn⟩ | ⟨hq, hn⟩ | ⟨hq, hn⟩ | ⟨hq, hn⟩ := Waveform.SineGen.quadrant_cases s.address
  · rw [hq, if_pos (by omega)]
    rfl
  · rw [hq, if_pos (by omega)]
    rfl
  · rw [hq, if_neg (by omega)]
    exact hsub
  · rw [hq, if_neg (by omega)]
    exact hsub

variable (readData : BitVec 10)

theorem trace_succ (n : ℕ) : trace readData (n + 1) = (trace readData n).clock :=
  Function.iterate_succ_apply' ..

theorem address_trace (n : ℕ) : (trace readData n).address.toNat = n % 512 := by
  induction n with
  | zero => rfl
  | succ n ih =>
    rw [trace_succ, clock, BitVec.toNat_add, ih, BitVec.toNat_ofNat]
    omega

theorem readData_trace (n : ℕ) : (trace readData (n + 1)).readData.toNat = sample n := by
  rw [trace_succ, clock, sampleMemory, quarterAddress_eq, toNat_quarterAddress, address_trace,
    mirrored_mod, sample]

/-- The sample of an address is right for the next address too: where the inversion changes
it is the first of the table, in the middle of the range. -/
theorem data_trace (n : ℕ) : ((trace readData (n + 1)).data.toNat : ℤ) = fullWave n := by
  have hbounds := sample_bounds n
  rw [toNat_data _ (by rw [readData_trace]; omega), readData_trace, address_trace, fullWave]
  by_cases hlast : n % 256 = 255
  · have hfirst : sample n = 512 := by
      have hplace : mirrored n = 0 := by
        unfold mirrored
        split_ifs <;> omega
      rw [sample, hplace]
      rfl
    rw [hfirst]
    simp
  · exact if_congr (by omega) rfl rfl

end Top

/-- The tables of the two generators are not the same, but close. -/
theorem abs_fullWave_sub_le (n : ℕ) :
    |fullWave n - Waveform.fullWave Waveform.Top.sineQuarter (BitVec.ofNat 9 n)| ≤ 3 := by
  have htable : ∀ k < 128, (sineSamples.getD k 0#10).toNat ≤
        512 + (Waveform.Top.sineQuarterSamples.getD k 0#9).toNat ∧
      512 + (Waveform.Top.sineQuarterSamples.getD k 0#9).toNat ≤
        (sineSamples.getD k 0#10).toNat + 3 := by decide +kernel
  have hclose := htable _ (mirrored_lt n)
  have hsample : (Waveform.Top.sineQuarter
      (Waveform.SineGen.quarterAddress (BitVec.ofNat 9 n))).toNat =
        (Waveform.Top.sineQuarterSamples.getD (mirrored n) 0#9).toNat := by
    rw [Waveform.Top.sineQuarter, toNat_quarterAddress, BitVec.toNat_ofNat, mirrored_mod]
  rw [Waveform.SineGen.fullWave_eq, hsample, BitVec.toNat_ofNat, fullWave, sample, abs_le]
  split_ifs <;> omega

/-- From the first clock edge on the output is the full wave, one edge late, whatever the
memory's register held at power-up: the halves mirror each other about 512, each half reads
the same backwards, the wave rises from 512 to 1023 in a quarter, and it stays within 3 of
that of the generator with buttons. -/
theorem wave_trace (readData : BitVec 10) :
    let output : ℕ → ℤ := fun n => (Top.trace readData (n + 1)).data.toNat
    (∀ n, output n = fullWave n) ∧ (∀ n, output (n + 256) + output n = 1024) ∧
      (∀ m, ∀ k < 256, output (256 * m + (255 - k)) = output (256 * m + k)) ∧
      (∀ m, output (512 * m) = 512 ∧ output (512 * m + 127) = 1023 ∧
        ∀ k < 127, output (512 * m + k) ≤ output (512 * m + k + 1)) ∧
      ∀ n, |output n - Waveform.fullWave Waveform.Top.sineQuarter (BitVec.ofNat 9 n)| ≤ 3 := by
  intro output
  have houtput : output = fullWave := funext (Top.data_trace readData)
  rw [houtput]
  refine ⟨fun n => rfl, fullWave_add_half, fun m k hk => fullWave_mirror m hk,
    fun m => ⟨fullWave_quarter m (by decide : 0 < 128), fullWave_quarter m (by decide),
      fun k hk => fullWave_rises m hk⟩, abs_fullWave_sub_le⟩

end OlinCourses.SineWave
