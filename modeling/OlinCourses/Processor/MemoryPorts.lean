import OlinCourses.Lib.Rv32i
import OlinCourses.Processor.Memory

/-!
# The ports of the memory module

What the two read ports show of the address map in the header of `memory.sv`, and what
an edge with `mem_write` changes. The data port latches whole words, and the
instruction port decodes no address.
-/
namespace OlinCourses.Processor
open Bits

namespace Memory

/-- The word at an address: the RAM, the LED word, the two timers, and zero elsewhere. -/
def mappedWord (m : Memory) (address : Word) : Word :=
  if address.toNat < 0x2000 then m.mem (address.extractLsb' 2 11)
  else if 0xFFFFFFFC ≤ address.toNat then m.leds
  else if 0xFFFFFFF8 ≤ address.toNat then m.millis
  else if 0xFFFFFFF4 ≤ address.toNat then m.micros
  else 0#32

def mappedByte (m : Memory) (address : Word) : BitVec 8 :=
  byteLane (m.mappedWord address) (address.toNat % 4)

/-- The data port latches the mapped word. -/
theorem nextReadValue_eq (m : Memory) (address : Word) :
    m.nextReadValue address = m.mappedWord address := by
  have hlt := address.isLt
  have hram : address.extractLsb' 13 19 = 0#19 ↔ address.toNat < 0x2000 := inRam_iff address
  have htop : address.extractLsb' 13 19 = 0x7FFFF#19 ↔ 0xFFFFE000 ≤ address.toNat := by
    rw [extractLsb'_eq_iff]
    simp only [BitVec.toNat_ofNat]
    omega
  have hindex (k : ℕ) (hk : k < 2 ^ 11) :
      address.extractLsb' 2 11 = BitVec.ofNat 11 k ↔ address.toNat / 4 % 2048 = k := by
    rw [extractLsb'_eq_iff, BitVec.toNat_ofNat, Nat.mod_eq_of_lt hk]
    rfl
  simp only [nextReadValue, mappedWord, hram, htop]
  by_cases h₀ : address.toNat < 0x2000
  · rw [if_pos h₀, if_pos h₀]
  rw [if_neg h₀, if_neg h₀]
  by_cases h₁ : 0xFFFFE000 ≤ address.toNat
  · rw [if_pos h₁]
    split
    case h_1 h =>
      rw [hindex _ (by decide)] at h
      rw [if_pos (by omega)]
    case h_2 h =>
      rw [hindex _ (by decide)] at h
      rw [if_neg (by omega), if_pos (by omega)]
    case h_3 h =>
      rw [hindex _ (by decide)] at h
      rw [if_neg (by omega), if_neg (by omega), if_pos (by omega)]
    case h_4 hleds hmillis hmicros =>
      have h2047 := mt (hindex 0x7FF (by decide)).mpr hleds
      have h2046 := mt (hindex 0x7FE (by decide)).mpr hmillis
      have h2045 := mt (hindex 0x7FD (by decide)).mpr hmicros
      rw [if_neg (by omega), if_neg (by omega), if_neg (by omega)]
  · rw [if_neg h₁, if_neg (by omega), if_neg (by omega), if_neg (by omega)]

/-- What the header promises of a read: when the address has been presented for a clock
edge, the port shows the extended value at the address as the edge found it. -/
def ReadsMapped (m : Memory) (f : Rv32i.LoadOp) (address : Word) : Prop :=
  ∀ memWrite writeData,
    (m.clock memWrite address writeData f.funct3).readData true = f.value m.mappedByte address

/-- The word at the address is the extension of what is read of it. -/
def IsOwnExtension (f : Rv32i.LoadOp) (address w : Word) : Prop :=
  match f with
  | .lw => True
  | .lb => w = 0#32 ∨ w = BitVec.allOnes 32 ∨
      (address.toNat % 4 = 0 ∧ -2 ^ 7 ≤ w.toInt ∧ w.toInt < 2 ^ 7)
  | .lh => w = 0#32 ∨ w = BitVec.allOnes 32 ∨
      (address.toNat % 4 = 0 ∧ -2 ^ 15 ≤ w.toInt ∧ w.toInt < 2 ^ 15)
  | .lbu => w = 0#32 ∨ (address.toNat % 4 = 0 ∧ w.toNat < 2 ^ 8)
  | .lhu => w = 0#32 ∨ (address.toNat % 4 = 0 ∧ w.toNat < 2 ^ 16)

instance (f : Rv32i.LoadOp) (address w : Word) : Decidable (IsOwnExtension f address w) :=
  match f with
  | .lw => .isTrue trivial
  | .lb | .lh => inferInstanceAs (Decidable (_ ∨ _ ∨ _ ∧ _))
  | .lbu | .lhu => inferInstanceAs (Decidable (_ ∨ _ ∧ _))

theorem mappedWord_congr (m : Memory) {a b : Word} (h : a.toNat / 4 = b.toNat / 4) :
    m.mappedWord a = m.mappedWord b := by
  have hindex : a.extractLsb' 2 11 = b.extractLsb' 2 11 := by rw [wordIndex_eq_iff, h]
  have hram : a.toNat < 0x2000 ↔ b.toNat < 0x2000 := by omega
  have hleds : 0xFFFFFFFC ≤ a.toNat ↔ 0xFFFFFFFC ≤ b.toNat := by omega
  have hmillis : 0xFFFFFFF8 ≤ a.toNat ↔ 0xFFFFFFF8 ≤ b.toNat := by omega
  have hmicros : 0xFFFFFFF4 ≤ a.toNat ↔ 0xFFFFFFF4 ≤ b.toNat := by omega
  simp only [mappedWord, hindex, hram, hleds, hmillis, hmicros]

/-- Two bytes of a half-word. -/
theorem mappedByte_append (m : Memory) {a : Word} (h : a.toNat % 2 = 0) :
    m.mappedByte (a + 1#32) ++ m.mappedByte a =
      (m.mappedWord a).extractLsb' (8 * (a.toNat % 4)) 16 := by
  have hsucc : (a + 1#32).toNat = a.toNat + 1 := by
    have hlt := a.isLt
    rw [BitVec.toNat_add, BitVec.toNat_ofNat]
    omega
  have hlane : (a + 1#32).toNat % 4 = a.toNat % 4 + 1 := by omega
  rw [mappedByte, mappedByte, hlane, mappedWord_congr m (b := a) (by omega)]
  exact byteLane_append (m.mappedWord a) (a.toNat % 4)

theorem value_lw (m : Memory) {a : Word} (h : a.toNat % 4 = 0) :
    Rv32i.LoadOp.lw.value m.mappedByte a = m.mappedWord a := by
  apply Rv32i.LoadOp.lw_value_eq
  intro k hk
  have hlt := a.isLt
  have hsum : (a + BitVec.ofNat 32 k).toNat = a.toNat + k := by
    rw [BitVec.toNat_add, BitVec.toNat_ofNat]
    omega
  have hlane : (a + BitVec.ofNat 32 k).toNat % 4 = k := by omega
  rw [mappedByte, hlane, mappedWord_congr m (b := a) (by omega)]

/-- The port keeps the promise exactly when the word it latches is its own extension. -/
theorem readsMapped_iff (m : Memory) {f : Rv32i.LoadOp} {address : Word}
    (haligned : address.toNat % f.size = 0) :
    ReadsMapped m f address ↔ IsOwnExtension f address (m.mappedWord address) := by
  have hread (memWrite : Bool) (writeData : Word) :
      (m.clock memWrite address writeData f.funct3).readData true = m.mappedWord address :=
    m.nextReadValue_eq address
  simp only [ReadsMapped, hread, forall_const]
  have hlane : 8 * (address.toNat % 4) = 0 ↔ address.toNat % 4 = 0 := by omega
  cases f with
  | lw => exact iff_of_true (m.value_lw haligned).symm trivial
  | lb =>
    rw [eq_comm, Rv32i.LoadOp.value, mappedByte, byteLane,
      signExtend_field_eq_iff _ (by norm_num) (by omega) (by omega), hlane]
    rfl
  | lbu =>
    rw [eq_comm, Rv32i.LoadOp.value, mappedByte, byteLane,
      setWidth_field_eq_iff _ (by omega), hlane]
    rfl
  | lh =>
    rw [Rv32i.LoadOp.size] at haligned
    rw [eq_comm, Rv32i.LoadOp.value, mappedByte_append m haligned,
      signExtend_field_eq_iff _ (by norm_num) (by omega) (by omega), hlane]
    rfl
  | lhu =>
    rw [Rv32i.LoadOp.size] at haligned
    rw [eq_comm, Rv32i.LoadOp.value, mappedByte_append m haligned,
      setWidth_field_eq_iff _ (by omega), hlane]
    rfl

/-- A RAM full of a word. -/
def filled (w : Word) : Memory := { mem := fun _ => w }

theorem readsMapped_iff_word : ReadsMapped (filled 0x12345678#32) .lw 4#32 :=
  (readsMapped_iff _ (by decide)).mpr (by decide)

/-- `lbu` from address 1 of a word `0x12345678` reads the word. -/
theorem not_readsMapped_lbu : ¬ ReadsMapped (filled 0x12345678#32) .lbu 1#32 := by
  intro h
  have hread := h false 0#32
  revert hread
  decide

/-- The instruction port shows the word that the data port latches, and both are zero
outside the physical address space. -/
def PortsAgree (m : Memory) (address : Word) : Prop :=
  ∀ memWrite writeData funct3,
    m.instruction address = (m.clock memWrite address writeData funct3).readValue ∧
      (0x2000 ≤ address.toNat → m.instruction address = 0#32 ∧
        (m.clock memWrite address writeData funct3).readValue = 0#32)

/-- Outside the peripherals the ports agree exactly on the RAM and on the addresses that
lie over a zero word of it. -/
theorem portsAgree_iff (m : Memory) {address : Word} (h : address.toNat < 0xFFFFFFF4) :
    PortsAgree m address ↔
      address.toNat < 0x2000 ∨ m.mem (address.extractLsb' 2 11) = 0#32 := by
  have hword : m.mappedWord address =
      if address.toNat < 0x2000 then m.mem (address.extractLsb' 2 11) else 0#32 := by
    have hleds : ¬ 0xFFFFFFFC ≤ address.toNat := by omega
    have hmillis : ¬ 0xFFFFFFF8 ≤ address.toNat := by omega
    have hmicros : ¬ 0xFFFFFFF4 ≤ address.toNat := by omega
    simp only [mappedWord, hleds, hmillis, hmicros, if_false]
  have hlatch (memWrite : Bool) (writeData : Word) (funct3 : BitVec 3) :
      (m.clock memWrite address writeData funct3).readValue = m.mappedWord address :=
    m.nextReadValue_eq address
  simp only [PortsAgree, hlatch, hword, instruction, forall_const]
  by_cases hram : address.toNat < 0x2000
  · rw [if_pos hram]
    exact iff_of_true ⟨rfl, fun hle => absurd hram (not_lt.mpr hle)⟩ (Or.inl hram)
  · rw [if_neg hram]
    constructor
    · exact fun hports => Or.inr hports.1
    · rintro (hlt | hzero)
      · exact absurd hlt hram
      · exact ⟨hzero, fun _ => ⟨hzero, rfl⟩⟩

theorem portsAgree_iff_ram : PortsAgree (filled 0x12345678#32) 0x1FFC#32 :=
  (portsAgree_iff _ (by decide)).mpr (Or.inl (by decide))

/-- Address `0x2000` shows the first word of the RAM as an instruction. -/
theorem not_portsAgree_alias : ¬ PortsAgree (filled 0x12345678#32) 0x2000#32 := by
  intro h
  have hports := (h false 0#32 0b010#3).1
  revert hports
  decide

theorem two_pow_accessBits (f : Rv32i.StoreOp) : 2 ^ accessBits f.funct3 = f.size := by
  cases f <;> rfl

/-- What the timers and the PWM counter hold. -/
def timers (m : Memory) : (Word × BitVec 14) × (Word × BitVec 4) × BitVec 8 :=
  ((m.millis, m.millisCounter), (m.micros, m.microsCounter), m.pwmCounter)

/-- The lanes of a store, in a RAM word or in the LED word: those of the access take the
low bytes of the data, and nothing else changes. The timers advance as on any edge. -/
theorem clock_store_frame (m : Memory) (f : Rv32i.StoreOp) (address writeData : Word) :
    let m' := m.clock true address writeData f.funct3
    (∀ i, ∀ k < 4, byteLane (m'.mem i) k =
      if (address.toNat < 0x2000 ∧ i = address.extractLsb' 2 11) ∧
          k / f.size = address.toNat % 4 / f.size then byteLane writeData (k % f.size)
      else byteLane (m.mem i) k) ∧
    (∀ k < 4, byteLane m'.leds k =
      if 0xFFFFFFFC ≤ address.toNat ∧ k / f.size = address.toNat % 4 / f.size then
        byteLane writeData (k % f.size)
      else byteLane m.leds k) ∧
    (∀ memWrite address' writeData' funct3',
      m'.timers = (m.clock memWrite address' writeData' funct3').timers) ∧
    ∀ address' writeData' funct3', (m.clock false address' writeData' funct3').mem = m.mem ∧
      (m.clock false address' writeData' funct3').leds = m.leds := by
  intro m'
  have hleds : inLeds address ↔ 0xFFFFFFFC ≤ address.toNat := by
    have hlt := address.isLt
    rw [inLeds_iff]
    omega
  refine ⟨fun i k hk => ?_, fun k hk => ?_, fun _ _ _ _ => rfl, fun _ _ _ => ?_⟩
  · rw [byteLane_mem_clock m address writeData f.funct3 hk, two_pow_accessBits]
    exact if_congr (by rw [inRam_iff]) rfl rfl
  · rw [byteLane_leds_clock m address writeData f.funct3 hk, two_pow_accessBits]
    exact if_congr (by rw [hleds]) rfl rfl
  · exact ⟨clock_mem_of_not_write .., clock_leds_of_not_write ..⟩

end Memory

end OlinCourses.Processor
