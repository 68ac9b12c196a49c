import OlinCourses.Processor.Datapath

/-!
# The memory module with its memory-mapped peripherals

`memory.sv`: 2,048 words of RAM, a registered read port, a write port with byte
lanes, the LED duty-cycle register and the two timers. One rising clock edge is
one function; every `always_ff` block reads the state before the edge.
-/
namespace OlinCourses.Processor
open Bits

/-- The registers of the module. `mem` is the array `mem[0:2047]`. -/
structure Memory where
  mem : BitVec 11 → Word
  readValue : Word := 0#32
  leds : Word := 0#32
  millis : Word := 0#32
  micros : Word := 0#32
  pwmCounter : BitVec 8 := 0#8
  millisCounter : BitVec 14 := 0#14
  microsCounter : BitVec 4 := 0#4

namespace Memory

/-- The combinational instruction port, always enabled. -/
def instruction (m : Memory) (address : Word) : Word := m.mem (address.extractLsb' 2 11)

/-- The value latched into `read_value` at the next edge. -/
def nextReadValue (m : Memory) (address : Word) : Word :=
  if address.extractLsb' 13 19 = 0#19 then m.mem (address.extractLsb' 2 11)
  else if address.extractLsb' 13 19 = 0x7FFFF#19 then
    match address.extractLsb' 2 11 with
    | 0x7FF#11 => m.leds
    | 0x7FE#11 => m.millis
    | 0x7FD#11 => m.micros
    | _ => 0#32
  else 0#32

/-- The data read port: `read_value` as it stands before the edge. -/
def readData (m : Memory) (memRead : Bool) : Word := if memRead then m.readValue else 0#32

/-- The word, half-word or byte of `old` selected by `funct3` and the low
address bits, replaced by the low bits of `writeData`. The source writes the
same nest of cases once for `mem` and once for `leds`. -/
def writeLanes (old : Word) (funct3 : BitVec 3) (address writeData : Word) : Word :=
  if funct3.getLsbD 1 then writeData
  else if funct3.getLsbD 0 then
    if address.getLsbD 1 then setSlice old 16 (writeData.extractLsb' 0 16)
    else setSlice old 0 (writeData.extractLsb' 0 16)
  else
    match address.extractLsb' 0 2 with
    | 0b00#2 => setSlice old 0 (writeData.extractLsb' 0 8)
    | 0b01#2 => setSlice old 8 (writeData.extractLsb' 0 8)
    | 0b10#2 => setSlice old 16 (writeData.extractLsb' 0 8)
    | _ => setSlice old 24 (writeData.extractLsb' 0 8)

def inRam (address : Word) : Prop := address.extractLsb' 13 19 = 0#19
def inLeds (address : Word) : Prop := address.extractLsb' 2 30 = 0x3FFFFFFF#30

instance (address : Word) : Decidable (inRam address) := inferInstanceAs (Decidable (_ = _))
instance (address : Word) : Decidable (inLeds address) := inferInstanceAs (Decidable (_ = _))

/-- One rising edge of `clk`. -/
def clock (m : Memory) (memWrite : Bool) (address writeData : Word) (funct3 : BitVec 3) :
    Memory where
  mem :=
    if memWrite ∧ inRam address then
      Function.update m.mem (address.extractLsb' 2 11)
        (writeLanes (m.mem (address.extractLsb' 2 11)) funct3 address writeData)
    else m.mem
  readValue := m.nextReadValue address
  leds :=
    if memWrite ∧ ¬ inRam address ∧ inLeds address then writeLanes m.leds funct3 address writeData
    else m.leds
  millis := if m.millisCounter = 11999#14 then m.millis + 1#32 else m.millis
  micros := if m.microsCounter = 11#4 then m.micros + 1#32 else m.micros
  pwmCounter := m.pwmCounter + 1#8
  millisCounter := if m.millisCounter = 11999#14 then 0#14 else m.millisCounter + 1#14
  microsCounter := if m.microsCounter = 11#4 then 0#4 else m.microsCounter + 1#4

@[simp] theorem clock_mem_of_not_write (m : Memory) (address writeData : Word)
    (funct3 : BitVec 3) : (m.clock false address writeData funct3).mem = m.mem := by simp [clock]

@[simp] theorem clock_leds_of_not_write (m : Memory) (address writeData : Word)
    (funct3 : BitVec 3) : (m.clock false address writeData funct3).leds = m.leds := by simp [clock]

/-- Byte `a` of the address space as the write port sees it: the RAM at
`0..0x1FFF`, the LED register at `0xFFFFFFFC..0xFFFFFFFF`. -/
def dataByte (m : Memory) (address : Word) : BitVec 8 :=
  if inRam address then byteLane (m.mem (address.extractLsb' 2 11)) (address.toNat % 4)
  else if inLeds address then byteLane m.leds (address.toNat % 4)
  else 0#8

theorem inRam_iff (a : Word) : inRam a ↔ a.toNat < 0x2000 := by
  have h := a.isLt
  rw [inRam, extractLsb'_eq_iff]
  simp only [BitVec.toNat_ofNat]
  omega

theorem inLeds_iff (a : Word) : inLeds a ↔ a.toNat / 4 = 0x3FFFFFFF := by
  have h := a.isLt
  rw [inLeds, extractLsb'_eq_iff]
  simp only [BitVec.toNat_ofNat]
  omega

theorem wordIndex_eq_iff (a b : Word) :
    a.extractLsb' 2 11 = b.extractLsb' 2 11 ↔ a.toNat / 4 % 2048 = b.toNat / 4 % 2048 := by
  rw [extractLsb'_eq_iff, BitVec.extractLsb'_toNat, Nat.shiftRight_eq_div_pow]
  rfl

/-- Log of the access size in bytes, as `funct3` selects it: a set middle bit
is a word, else the low bit tells a half-word from a byte. -/
def accessBits (funct3 : BitVec 3) : ℕ :=
  if funct3.getLsbD 1 then 2 else if funct3.getLsbD 0 then 1 else 0

theorem accessBits_le (funct3 : BitVec 3) : accessBits funct3 ≤ 2 := by
  unfold accessBits
  split_ifs <;> omega

/-- The nest of cases is one part-select assignment: `2 ^ accessBits` bytes, at
the access address with its low `accessBits` bits ignored. -/
theorem writeLanes_eq (old : Word) (funct3 : BitVec 3) (address writeData : Word) :
    writeLanes old funct3 address writeData =
      setSlice old
        (8 * (address.toNat % 4 / 2 ^ accessBits funct3 * 2 ^ accessBits funct3))
        (writeData.extractLsb' 0 (8 * 2 ^ accessBits funct3)) := by
  have hlow : address.toNat % 4 = (address.extractLsb' 0 2).toNat := by simp
  have hbit : address.getLsbD 1 = (address.extractLsb' 0 2).getLsbD 1 := by simp
  unfold writeLanes
  rw [hlow, hbit]
  generalize address.extractLsb' 0 2 = low
  have hcases : low = 0#2 ∨ low = 1#2 ∨ low = 2#2 ∨ low = 3#2 := by revert low; decide
  by_cases h1 : funct3.getLsbD 1
  · have hacc : accessBits funct3 = 2 := by rw [accessBits, if_pos h1]
    have hz : low.toNat / 2 ^ 2 = 0 := Nat.div_eq_of_lt low.isLt
    rw [hacc, hz, if_pos h1]
    exact (setSlice_all old writeData).symm
  · by_cases h0 : funct3.getLsbD 0
    · have hacc : accessBits funct3 = 1 := by rw [accessBits, if_neg h1, if_pos h0]
      rw [hacc, if_neg h1, if_pos h0]
      rcases hcases with rfl | rfl | rfl | rfl <;> rfl
    · have hacc : accessBits funct3 = 0 := by rw [accessBits, if_neg h1, if_neg h0]
      rw [hacc, if_neg h1, if_neg h0]
      rcases hcases with rfl | rfl | rfl | rfl <;> rfl

/-- A store replaces exactly the lanes of its access, by the low bytes of the
data in little-endian order. -/
theorem byteLane_writeLanes (old : Word) (funct3 : BitVec 3) (address writeData : Word) (k : ℕ)
    (hk : k < 4) :
    byteLane (writeLanes old funct3 address writeData) k =
      if k / 2 ^ accessBits funct3 = address.toNat % 4 / 2 ^ accessBits funct3 then
        byteLane writeData (k % 2 ^ accessBits funct3)
      else byteLane old k := by
  rw [writeLanes_eq, byteLane_setSlice _ _ _ _ _ (by omega)]
  have hpos : 0 < 2 ^ accessBits funct3 := by positivity
  generalize 2 ^ accessBits funct3 = size at hpos ⊢
  have hiff : address.toNat % 4 / size * size ≤ k ∧ k < address.toNat % 4 / size * size + size ↔
      k / size = address.toNat % 4 / size := by
    rw [Nat.div_eq_iff hpos]
    omega
  by_cases h : k / size = address.toNat % 4 / size
  · rw [if_pos (hiff.mpr h), if_pos h, ← h, Nat.mod_eq_sub_div_mul]
  · rw [if_neg (fun hc => h (hiff.mp hc)), if_neg h]

theorem mem_clock (m : Memory) (memWrite : Bool) (address writeData : Word) (funct3 : BitVec 3) :
    (m.clock memWrite address writeData funct3).mem =
      if memWrite ∧ inRam address then
        Function.update m.mem (address.extractLsb' 2 11)
          (writeLanes (m.mem (address.extractLsb' 2 11)) funct3 address writeData)
      else m.mem := rfl

theorem leds_clock (m : Memory) (memWrite : Bool) (address writeData : Word) (funct3 : BitVec 3) :
    (m.clock memWrite address writeData funct3).leds =
      if memWrite ∧ ¬ inRam address ∧ inLeds address then
        writeLanes m.leds funct3 address writeData
      else m.leds := rfl

theorem not_inRam_of_inLeds {a : Word} (h : inLeds a) : ¬ inRam a := by
  rw [inLeds_iff] at h
  rw [inRam_iff]
  omega

section Lanes

variable (m : Memory) (address writeData : Word) (funct3 : BitVec 3) {k : ℕ} (hk : k < 4)

include hk

/-- The lanes of a RAM word after an edge with `mem_write` high. -/
theorem byteLane_mem_clock (i : BitVec 11) :
    byteLane ((m.clock true address writeData funct3).mem i) k =
      if (inRam address ∧ i = address.extractLsb' 2 11) ∧
          k / 2 ^ accessBits funct3 = address.toNat % 4 / 2 ^ accessBits funct3 then
        byteLane writeData (k % 2 ^ accessBits funct3)
      else byteLane (m.mem i) k := by
  rw [mem_clock]
  by_cases hin : inRam address
  · rw [if_pos ⟨rfl, hin⟩, Function.update_apply]
    by_cases hi : i = address.extractLsb' 2 11
    · rw [if_pos hi, byteLane_writeLanes _ _ _ _ _ hk, hi]
      exact if_congr (by simp [hin]) rfl rfl
    · rw [if_neg hi, if_neg fun hc => hi hc.1.2]
  · rw [if_neg fun hc => hin hc.2, if_neg fun hc => hin hc.1.1]

/-- The lanes of the LED word after it. -/
theorem byteLane_leds_clock :
    byteLane (m.clock true address writeData funct3).leds k =
      if inLeds address ∧
          k / 2 ^ accessBits funct3 = address.toNat % 4 / 2 ^ accessBits funct3 then
        byteLane writeData (k % 2 ^ accessBits funct3)
      else byteLane m.leds k := by
  rw [leds_clock]
  by_cases hin : inLeds address
  · rw [if_pos ⟨rfl, not_inRam_of_inLeds hin, hin⟩, byteLane_writeLanes _ _ _ _ _ hk]
    exact if_congr (by simp [hin]) rfl rfl
  · rw [if_neg fun hc => hin hc.2.2, if_neg fun hc => hin hc.1]

end Lanes

/-- The addresses the write port decodes. -/
def Mapped (address : Word) : Prop := inRam address ∨ inLeds address

instance (address : Word) : Decidable (Mapped address) := inferInstanceAs (Decidable (_ ∨ _))

/-- Two addresses in the same access-sized block. -/
def SameBlock (e : ℕ) (a b : Word) : Prop := a.toNat / 2 ^ e = b.toNat / 2 ^ e

instance (e : ℕ) (a b : Word) : Decidable (SameBlock e a b) := inferInstanceAs (Decidable (_ = _))

theorem sameBlock_iff {e : ℕ} (he : e ≤ 2) (a b : Word) :
    SameBlock e a b ↔ a.toNat / 4 = b.toNat / 4 ∧ a.toNat % 4 / 2 ^ e = b.toNat % 4 / 2 ^ e := by
  unfold SameBlock
  interval_cases e <;> omega

/-- What one edge with `mem_write` high does to every byte: the bytes of the
accessed block take the low bytes of the data, all others keep their value. -/
theorem dataByte_clock_write (m : Memory) (address writeData : Word) (funct3 : BitVec 3)
    (b : Word) :
    (m.clock true address writeData funct3).dataByte b =
      if Mapped address ∧ SameBlock (accessBits funct3) b address then
        byteLane writeData (b.toNat % 2 ^ accessBits funct3)
      else m.dataByte b := by
  have hlane : b.toNat % 4 < 4 := Nat.mod_lt _ (by omega)
  have hmod : b.toNat % 4 % 2 ^ accessBits funct3 = b.toNat % 2 ^ accessBits funct3 :=
    Nat.mod_mod_of_dvd _ (Nat.pow_dvd_pow 2 (accessBits_le funct3))
  have hblock := sameBlock_iff (accessBits_le funct3) b address
  rw [dataByte, dataByte]
  by_cases hram : inRam b
  · have hword : (inRam address ∧ b.extractLsb' 2 11 = address.extractLsb' 2 11) ↔
        Mapped address ∧ b.toNat / 4 = address.toNat / 4 := by
      rw [wordIndex_eq_iff, Mapped, inLeds_iff, inRam_iff]
      rw [inRam_iff] at hram
      omega
    rw [if_pos hram, if_pos hram, byteLane_mem_clock _ _ _ _ hlane, hmod]
    exact if_congr (by rw [hword, hblock, and_assoc]) rfl rfl
  rw [if_neg hram, if_neg hram]
  by_cases hleds : inLeds b
  · have hword : inLeds address ↔ Mapped address ∧ b.toNat / 4 = address.toNat / 4 := by
      rw [Mapped, inRam_iff, inLeds_iff]
      rw [inLeds_iff] at hleds
      omega
    rw [if_pos hleds, if_pos hleds, byteLane_leds_clock _ _ _ _ hlane, hmod]
    exact if_congr (by rw [hword, hblock, and_assoc]) rfl rfl
  · have hout : ¬ (Mapped address ∧ b.toNat / 4 = address.toNat / 4) := by
      rw [Mapped, inRam_iff, inLeds_iff]
      rw [inRam_iff] at hram
      rw [inLeds_iff] at hleds
      omega
    rw [if_neg hleds, if_neg hleds, if_neg fun hc => hout ⟨hc.1, (hblock.mp hc.2).1⟩]

theorem dataByte_clock_of_not_write (m : Memory) (address writeData : Word) (funct3 : BitVec 3)
    (b : Word) : (m.clock false address writeData funct3).dataByte b = m.dataByte b := by
  simp [dataByte]

end Memory

end OlinCourses.Processor
