import OlinCourses.Processor.MemoryPorts
import OlinCourses.Processor.Refinement

/-!
# Loads and stores of the processor

The address port of the memory unit carries the pc, not the ALU result, and the
read port is registered while write-back happens at the same edge. These
theorems say exactly when a store or a load is executed all the same.
-/
namespace OlinCourses.Processor
open Bits

namespace Top

/-- The address the ALU computes for a load or store. -/
def effectiveAddress (s : Top) (rs1 : Reg) (imm : BitVec 12) : Word :=
  s.abs.reg rs1 + imm.signExtend 32

/-- A naturally aligned store to the RAM or to the LED word is about to run. -/
structure StoreReady (s : Top) (f : Rv32i.StoreOp) (rs1 rs2 : Reg) (imm : BitVec 12) : Prop where
  zero : s.registers 0#5 = 0#32
  fetched : s.instruction = Rv32i.encode (.store f rs1 rs2 imm)
  aligned : (s.effectiveAddress rs1 imm).toNat % f.size = 0
  mapped : (s.effectiveAddress rs1 imm).toNat ≤ 0x1FFF ∨
    0xFFFFFFFC ≤ (s.effectiveAddress rs1 imm).toNat

/-- What the ISA asks of the edge: the addressed bytes take the low bytes of
`rs2`, every other RAM and LED byte and every register is kept. -/
structure ExecutesStore (s : Top) (f : Rv32i.StoreOp) (rs1 rs2 : Reg) (imm : BitVec 12) :
    Prop where
  pc : (s.clock false).pc = s.pc + 4#32
  registers : (s.clock false).registers = s.registers
  bytes : ∀ b, (s.clock false).memUnit.dataByte b =
    if (b - s.effectiveAddress rs1 imm).toNat < f.size then
      byteLane (s.abs.reg rs2) (b - s.effectiveAddress rs1 imm).toNat
    else s.memUnit.dataByte b

/-- The `2 ^ e`-byte block of `x` already holds the low bytes of `v`. -/
def AlreadyStored (m : Memory) (e : ℕ) (v x : Word) : Prop :=
  ∀ b, Memory.SameBlock e b x → m.dataByte b = byteLane v (b.toNat % 2 ^ e)

theorem mapped_iff (a : Word) : Memory.Mapped a ↔ a.toNat ≤ 0x1FFF ∨ 0xFFFFFFFC ≤ a.toNat := by
  rw [Memory.Mapped, Memory.inRam_iff, Memory.inLeds_iff]
  omega

/-- Mapping is decided by the word of an address. -/
theorem mapped_congr {e : ℕ} (he : e ≤ 2) {a b : Word} (h : Memory.SameBlock e a b) :
    Memory.Mapped a ↔ Memory.Mapped b := by
  have hw := ((Memory.sameBlock_iff he a b).mp h).1
  rw [mapped_iff, mapped_iff]
  omega

/-- Within an aligned access, the distance from the base is the lane. -/
theorem distance_lt_iff {e : ℕ} (he : e ≤ 2) (a b : Word) (ha : a.toNat % 2 ^ e = 0) :
    (b - a).toNat < 2 ^ e ↔ Memory.SameBlock e b a := by
  have hla := a.isLt
  have hlb := b.isLt
  rw [BitVec.toNat_sub, Memory.SameBlock]
  interval_cases e <;> omega

theorem distance_eq {e : ℕ} (he : e ≤ 2) (a b : Word) (ha : a.toNat % 2 ^ e = 0)
    (h : Memory.SameBlock e b a) : (b - a).toNat = b.toNat % 2 ^ e := by
  have hla := a.isLt
  have hlb := b.isLt
  unfold Memory.SameBlock at h
  rw [BitVec.toNat_sub]
  interval_cases e <;> omega

/-- The bytes that an aligned store asks for, block by block. -/
theorem storedByte_eq {e : ℕ} (he : e ≤ 2) (a b v : Word) (ha : a.toNat % 2 ^ e = 0)
    (old : BitVec 8) :
    (if (b - a).toNat < 2 ^ e then byteLane v (b - a).toNat else old) =
      if Memory.SameBlock e b a then byteLane v (b.toNat % 2 ^ e) else old := by
  by_cases hb : Memory.SameBlock e b a
  · rw [if_pos ((distance_lt_iff he a b ha).mpr hb), if_pos hb, distance_eq he a b ha hb]
  · rw [if_neg fun hc => hb ((distance_lt_iff he a b ha).mp hc), if_neg hb]

/-- Storing what is already there changes no byte. -/
theorem AlreadyStored.ite_eq {m : Memory} {e : ℕ} {v x : Word} {p : Prop} [Decidable p]
    (h : p → AlreadyStored m e v x) (b : Word) :
    (if p ∧ Memory.SameBlock e b x then byteLane v (b.toNat % 2 ^ e) else m.dataByte b) =
      m.dataByte b := by
  split_ifs with hb
  · exact (h hb.1 b hb.2).symm
  · rfl

/-- A store moves the pc and keeps the registers; its bytes go to the pc. -/
theorem clock_store {s : Top} {f : Rv32i.StoreOp} {rs1 rs2 : Reg} {imm : BitVec 12}
    (h : s.instruction = Rv32i.encode (.store f rs1 rs2 imm)) :
    (s.clock false).pc = s.pc + 4#32 ∧ (s.clock false).registers = s.registers ∧
      ∀ b, (s.clock false).memUnit.dataByte b =
        if Memory.Mapped s.pc ∧ Memory.SameBlock (Memory.accessBits f.funct3) b s.pc then
          byteLane (s.abs.reg rs2) (b.toNat % 2 ^ Memory.accessBits f.funct3)
        else s.memUnit.dataByte b := by
  have hc := control_of_encode h
  have hrs2 : s.rs2Data = s.abs.reg rs2 := by
    simp [rs2Data, h, Rv32i.encode, readPort, Rv32i.State.reg, abs]
  have hfunct3 : funct3Field s.instruction = f.funct3 := by simp [h, Rv32i.encode]
  refine ⟨?_, ?_, ?_⟩
  · exact pc_clock_of_encode h rfl rfl
  · funext r
    rw [registers_clock, hc, if_neg fun hw => Bool.false_ne_true hw.1]
  · intro b
    have hm : (s.clock false).memUnit =
        s.memUnit.clock true s.pc (s.abs.reg rs2) f.funct3 := by
      simp only [clock, hc, hrs2, hfunct3]
      rfl
    rw [hm, Memory.dataByte_clock_write]

/-- A store is executed iff the bytes written at the pc are those it asks for. -/
theorem executesStore_iff_bytes {s : Top} {f : Rv32i.StoreOp} {rs1 rs2 : Reg} {imm : BitVec 12}
    (h : StoreReady s f rs1 rs2 imm) : ExecutesStore s f rs1 rs2 imm ↔ ∀ b,
      (if Memory.Mapped s.pc ∧ Memory.SameBlock (Memory.accessBits f.funct3) b s.pc then
        byteLane (s.abs.reg rs2) (b.toNat % 2 ^ Memory.accessBits f.funct3)
      else s.memUnit.dataByte b) =
      if Memory.SameBlock (Memory.accessBits f.funct3) b (s.effectiveAddress rs1 imm) then
        byteLane (s.abs.reg rs2) (b.toNat % 2 ^ Memory.accessBits f.funct3)
      else s.memUnit.dataByte b := by
  obtain ⟨hpc, hreg, hbytes⟩ := clock_store h.fetched
  have hsize := Memory.two_pow_accessBits f
  have halign := h.aligned
  rw [← hsize] at halign
  have hspec (b : Word) := storedByte_eq (Memory.accessBits_le f.funct3)
    (s.effectiveAddress rs1 imm) b (s.abs.reg rs2) halign (s.memUnit.dataByte b)
  constructor
  · intro hx b
    have hv := hx.bytes b
    rwa [← hsize, hspec, hbytes] at hv
  · intro hv
    refine ⟨hpc, hreg, fun b => ?_⟩
    rw [← hsize, hspec, hbytes]
    exact hv b

/-- A store is executed iff its data goes to the right place by accident: the pc
lies in the addressed bytes, or neither that write nor the one the code makes at
the pc would change anything. -/
theorem executesStore_iff {s : Top} {f : Rv32i.StoreOp} {rs1 rs2 : Reg} {imm : BitVec 12}
    (h : StoreReady s f rs1 rs2 imm) :
    ExecutesStore s f rs1 rs2 imm ↔
      Memory.SameBlock (Memory.accessBits f.funct3) s.pc (s.effectiveAddress rs1 imm) ∨
      AlreadyStored s.memUnit (Memory.accessBits f.funct3) (s.abs.reg rs2)
        (s.effectiveAddress rs1 imm) ∧
      (Memory.Mapped s.pc →
        AlreadyStored s.memUnit (Memory.accessBits f.funct3) (s.abs.reg rs2) s.pc) := by
  rw [executesStore_iff_bytes h]
  constructor
  · intro hx
    by_cases hsame : Memory.SameBlock (Memory.accessBits f.funct3) s.pc (s.effectiveAddress rs1 imm)
    · exact Or.inl hsame
    · refine Or.inr ⟨?_, ?_⟩
      · intro b hb
        have hv := hx b
        have hbpc : ¬ Memory.SameBlock (Memory.accessBits f.funct3) b s.pc :=
          fun hc => hsame (hc.symm.trans hb)
        rwa [if_neg (fun hc => hbpc hc.2), if_pos hb] at hv
      · intro hmpc b hb
        have hv := hx b
        have hba : ¬ Memory.SameBlock (Memory.accessBits f.funct3) b (s.effectiveAddress rs1 imm) :=
          fun hc => hsame (hb.symm.trans hc)
        rw [if_pos ⟨hmpc, hb⟩, if_neg hba] at hv
        exact hv.symm
  · rintro (hsame | ⟨hold, hpcold⟩)
    · have hmap := (mapped_iff _).mpr h.mapped
      have hmpc : Memory.Mapped s.pc :=
        (mapped_congr (Memory.accessBits_le f.funct3) hsame).mpr hmap
      intro b
      have hiff : Memory.SameBlock (Memory.accessBits f.funct3) b s.pc ↔
          Memory.SameBlock (Memory.accessBits f.funct3) b (s.effectiveAddress rs1 imm) :=
        ⟨fun hb => hb.trans hsame, fun hb => hb.trans hsame.symm⟩
      exact if_congr (by simp [hmpc, hiff]) rfl rfl
    · intro b
      -- both sides are the byte already there
      rw [AlreadyStored.ite_eq hpcold]
      split_ifs with hb
      · exact hold b hb
      · rfl

/-- RAM word 0 holds `i`, every other word is zero; `x1 = 0xDEADBEEF`. -/
def imageOf (i : Rv32i.Instr) : Top where
  pc := 0#32
  registers := fun r => if r = 1#5 then 0xDEADBEEF#32 else 0#32
  memUnit := { mem := fun a => if a = 0#11 then Rv32i.encode i else 0#32 }

/-- `sw x1, 0(x0)` at address 0 overwrites itself, as it should. -/
theorem executesStore_iff_self :
    ExecutesStore (imageOf (.store .sw 0#5 1#5 0#12)) .sw 0#5 1#5 0#12 :=
  (executesStore_iff ⟨by decide, by decide, by decide, by decide⟩).mpr (Or.inl (by decide))

/-- `sw x1, 16(x0)` at address 0 leaves the word at 16 alone. -/
theorem not_executesStore_sw :
    StoreReady (imageOf (.store .sw 0#5 1#5 16#12)) .sw 0#5 1#5 16#12 ∧
      ¬ ExecutesStore (imageOf (.store .sw 0#5 1#5 16#12)) .sw 0#5 1#5 16#12 := by
  refine ⟨⟨by decide, by decide, by decide, by decide⟩, fun h => ?_⟩
  have hb := h.bytes 16#32
  revert hb
  decide

/-- A naturally aligned load from the RAM is about to run. -/
structure LoadReady (s : Top) (f : Rv32i.LoadOp) (rd rs1 : Reg) (imm : BitVec 12) : Prop where
  fetched : s.instruction = Rv32i.encode (.load f rd rs1 imm)
  aligned : (s.effectiveAddress rs1 imm).toNat % f.size = 0
  mapped : (s.effectiveAddress rs1 imm).toNat ≤ 0x1FFF

/-- What the ISA asks of the edge: `rd`, unless it is `x0`, takes the extended
value at the effective address; nothing else changes but the pc. -/
structure ExecutesLoad (s : Top) (f : Rv32i.LoadOp) (rd rs1 : Reg) (imm : BitVec 12) : Prop where
  pc : (s.clock false).pc = s.pc + 4#32
  registers : ∀ r, (s.clock false).registers r =
    if r = rd ∧ rd ≠ 0#5 then f.value s.memUnit.dataByte (s.effectiveAddress rs1 imm)
    else s.registers r
  mem : (s.clock false).memUnit.mem = s.memUnit.mem
  leds : (s.clock false).memUnit.leds = s.memUnit.leds

/-- A load writes back the read register as the previous edge left it. -/
theorem clock_load {s : Top} {f : Rv32i.LoadOp} {rd rs1 : Reg} {imm : BitVec 12}
    (h : s.instruction = Rv32i.encode (.load f rd rs1 imm)) :
    (s.clock false).pc = s.pc + 4#32 ∧
      (∀ r, (s.clock false).registers r =
        if r = rd ∧ rd ≠ 0#5 then s.memUnit.readValue else s.registers r) ∧
      (s.clock false).memUnit.mem = s.memUnit.mem ∧
      (s.clock false).memUnit.leds = s.memUnit.leds := by
  have hc := control_of_encode h
  have hrd : rdField s.instruction = rd := by simp [h, Rv32i.encode]
  have hdata : s.writeData = s.memUnit.readValue := by
    simp [writeData, hc, controlOf, mux4x1, memReadData, Memory.readData]
  refine ⟨pc_clock_of_encode h rfl rfl, fun r => ?_, ram_clock_of_not_write (by rw [hc]; rfl)⟩
  rw [registers_clock, hc, hrd, hdata]
  exact if_congr ⟨fun hr => ⟨hr.2.1, hr.2.1 ▸ hr.2.2⟩, fun hr => ⟨rfl, hr.1, hr.1 ▸ hr.2⟩⟩ rfl rfl

/-- A load is executed iff it writes nothing, or the read register left by the
earlier cycles already holds the extended value. -/
theorem executesLoad_iff {s : Top} {f : Rv32i.LoadOp} {rd rs1 : Reg} {imm : BitVec 12}
    (h : LoadReady s f rd rs1 imm) :
    ExecutesLoad s f rd rs1 imm ↔
      rd = 0#5 ∨
        s.memUnit.readValue = f.value s.memUnit.dataByte (s.effectiveAddress rs1 imm) := by
  obtain ⟨hpc, hreg, hmem, hleds⟩ := clock_load h.fetched
  constructor
  · intro hx
    by_cases h0 : rd = 0#5
    · exact Or.inl h0
    · have hv := hx.registers rd
      rw [hreg, if_pos ⟨rfl, h0⟩, if_pos ⟨rfl, h0⟩] at hv
      exact Or.inr hv
  · intro hor
    refine ⟨hpc, fun r => ?_, hmem, hleds⟩
    rw [hreg]
    split_ifs with hr
    · exact hor.resolve_left hr.2
    · rfl

/-- `lw x2, 16(x0)` of a zero word, with a zero read register. -/
theorem executesLoad_iff_zero :
    ExecutesLoad (imageOf (.load .lw 2#5 0#5 16#12)) .lw 2#5 0#5 16#12 :=
  (executesLoad_iff ⟨by decide, by decide, by decide⟩).mpr (Or.inr (by decide))

/-- `lw x2, 0(x0)` at address 0 should load its own word and loads zero. -/
theorem not_executesLoad_lw :
    LoadReady (imageOf (.load .lw 2#5 0#5 0#12)) .lw 2#5 0#5 0#12 ∧
      ¬ ExecutesLoad (imageOf (.load .lw 2#5 0#5 0#12)) .lw 2#5 0#5 0#12 := by
  refine ⟨⟨by decide, by decide, by decide⟩, fun h => ?_⟩
  have hr := h.registers 2#5
  revert hr
  decide

end Top

end OlinCourses.Processor
