import OlinCourses.Processor.Immediates
import OlinCourses.Processor.Refinement

/-!
# Jumps of the processor

The link register is written as the ISA asks. The target of a JALR keeps its lowest bit,
and the target of a JAL is that of the immediate generator; these theorems say exactly
when a jump is executed.
-/
namespace OlinCourses.Processor
open Bits

namespace Top

/-- The fetched word is a JAL or a JALR. -/
def IsJump (w : Word) : Prop :=
  opcodeField w = 0b1101111#7 ∨ opcodeField w = 0b1100111#7 ∧ funct3Field w = 0b000#3

instance (w : Word) : Decidable (IsJump w) := inferInstanceAs (Decidable (_ ∨ _ ∧ _))

/-- The sum of `rs1` and the immediate of a JALR. -/
def jalrSum (s : Top) : Word :=
  s.abs.reg (rs1Field s.instruction) + (Rv32i.immI s.instruction).signExtend 32

def jumpTarget (s : Top) : Word :=
  if opcodeField s.instruction = 0b1101111#7 then
    s.pc + Rv32i.jumpOffset (Rv32i.immJ s.instruction)
  else s.jalrSum &&& ~~~1#32

/-- What the ISA asks of the edge: the pc takes the target and `rd`, unless it is `x0`, the
address behind the jump; nothing else changes. -/
structure ExecutesJump (s : Top) : Prop where
  pc : (s.clock false).pc = s.jumpTarget
  registers : ∀ r, (s.clock false).registers r =
    if r = rdField s.instruction ∧ r ≠ 0#5 then s.pc + 4#32 else s.registers r
  mem : (s.clock false).memUnit.mem = s.memUnit.mem
  leds : (s.clock false).memUnit.leds = s.memUnit.leds

theorem control_jal {s : Top} (h : opcodeField s.instruction = 0b1101111#7) :
    s.control = { regWrite := true, aluSrc := 0b11#2, memToReg := 0b10#2, jump := true } := by
  simp only [control, instructionDecoder, h]

theorem control_jalr {s : Top} (h : opcodeField s.instruction = 0b1100111#7) :
    s.control = { regWrite := true, aluSrc := 0b10#2, memToReg := 0b10#2, jump := true } := by
  simp only [control, instructionDecoder, h]

theorem IsJump.control {s : Top} (h : IsJump s.instruction) :
    s.control.regWrite = true ∧ s.control.memWrite = false ∧ s.control.memToReg = 0b10#2 := by
  obtain hjal | ⟨hjalr, -⟩ := h
  · rw [control_jal hjal]
    exact ⟨rfl, rfl, rfl⟩
  · rw [control_jalr hjalr]
    exact ⟨rfl, rfl, rfl⟩

/-- Apart from the pc a jump does what it should. -/
theorem clock_jump {s : Top} (h : IsJump s.instruction) :
    (∀ r, (s.clock false).registers r =
      if r = rdField s.instruction ∧ r ≠ 0#5 then s.pc + 4#32 else s.registers r) ∧
      (s.clock false).memUnit.mem = s.memUnit.mem ∧
      (s.clock false).memUnit.leds = s.memUnit.leds := by
  obtain ⟨hreg, hmem, hsel⟩ := h.control
  have hdata : s.writeData = s.pc + 4#32 := by rw [writeData, hsel]; rfl
  refine ⟨fun r => ?_, ram_clock_of_not_write hmem⟩
  rw [registers_clock, hdata]
  simp only [hreg, true_and]

theorem pc_clock_jal {s : Top} (h : opcodeField s.instruction = 0b1101111#7) :
    (s.clock false).pc = s.pc + s.immExt := by
  simp [clock, programCounter, pcNext, takeBranch, mux2x1, aluResult, op1MuxOut, op2MuxOut, alu,
    control_jal h]

theorem pc_clock_jalr {s : Top} (h : opcodeField s.instruction = 0b1100111#7) :
    (s.clock false).pc = s.jalrSum := by
  have himm := immExt_i _ h (Or.inr (Or.inr rfl))
  simp [clock, programCounter, pcNext, takeBranch, mux2x1, aluResult, op1MuxOut, op2MuxOut, alu,
    control_jalr h, himm, jalrSum, rs1Data, readPort, Rv32i.State.reg, abs]

/-- The pc after a JAL is right unless the immediate generator singles out its word. -/
theorem pc_clock_jal_iff {s : Top} (h : opcodeField s.instruction = 0b1101111#7) :
    (s.clock false).pc = s.jumpTarget ↔ s.instruction ≠ 0xFFC000EF#32 := by
  have himm : Rv32i.immediate s.instruction =
      some (Rv32i.jumpOffset (Rv32i.immJ s.instruction)) := by
    simp only [Rv32i.immediate, h]
  rw [pc_clock_jal h, jumpTarget, if_pos h, add_right_inj, immExt]
  exact immGen_eq_iff himm

/-- The pc after a JALR is right unless the sum is odd. -/
theorem pc_clock_jalr_iff {s : Top} (h : opcodeField s.instruction = 0b1100111#7) :
    (s.clock false).pc = s.jumpTarget ↔ s.jalrSum.getLsbD 0 = false := by
  have hjal : opcodeField s.instruction ≠ 0b1101111#7 := by
    rw [h]
    decide
  rw [pc_clock_jalr h, jumpTarget, if_neg hjal, eq_comm, and_not_one_eq_iff]

/-- A jump is executed iff its word is not the one that the immediate generator singles
out, and, for a JALR, the sum is even. -/
theorem executesJump_iff {s : Top} (h : IsJump s.instruction) :
    ExecutesJump s ↔ s.instruction ≠ 0xFFC000EF#32 ∧
      (opcodeField s.instruction = 0b1100111#7 → s.jalrSum.getLsbD 0 = false) := by
  obtain ⟨hreg, hmem, hleds⟩ := clock_jump h
  have hpc : ExecutesJump s ↔ (s.clock false).pc = s.jumpTarget :=
    ⟨ExecutesJump.pc, fun hpc => ⟨hpc, hreg, hmem, hleds⟩⟩
  rw [hpc]
  obtain hjal | ⟨hjalr, -⟩ := h
  · rw [pc_clock_jal_iff hjal, hjal]
    exact (and_iff_left fun hop => absurd hop (by decide)).symm
  · rw [pc_clock_jalr_iff hjalr, and_iff_right (ne_of_opcode hjalr (by decide))]
    exact ⟨fun heven _ => heven, fun heven => heven hjalr⟩

/-- A RAM full of `w`, and `v` in every register but `x0`. -/
def imageFull (w v : Word) : Top where
  pc := 0#32
  registers := fun r => if r = 0#5 then 0#32 else v
  memUnit := { mem := fun _ => w }

/-- `jalr x1, 4(x1)` to an even address. -/
theorem executesJump_iff_even :
    ExecutesJump (imageFull (Rv32i.encode (.jalr 1#5 1#5 4#12)) 16#32) :=
  (executesJump_iff (by decide)).mpr (by decide)

/-- `jalr x1, 4(x1)` to an odd address, and the JAL that is singled out. -/
theorem not_executesJump_odd :
    (IsJump (imageFull (Rv32i.encode (.jalr 1#5 1#5 4#12)) 1#32).instruction ∧
      ¬ ExecutesJump (imageFull (Rv32i.encode (.jalr 1#5 1#5 4#12)) 1#32)) ∧
      IsJump (imageFull 0xFFC000EF#32 0#32).instruction ∧
        ¬ ExecutesJump (imageFull 0xFFC000EF#32 0#32) := by
  refine ⟨⟨by decide, fun h => ?_⟩, by decide, fun h => ?_⟩
  · have hpc := h.pc
    revert hpc
    decide
  · have hpc := h.pc
    revert hpc
    decide

end Top

end OlinCourses.Processor
