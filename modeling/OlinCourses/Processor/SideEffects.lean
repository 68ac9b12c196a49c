import OlinCourses.Processor.Refinement

/-!
# What any instruction word can change

The decoder gives every word a control word, supported or not. These theorems say for
which opcodes an edge can write the memory, a register or another pc than the next one.
-/
namespace OlinCourses.Processor

abbrev OP : BitVec 7 := 0b0110011#7
abbrev OP_IMM : BitVec 7 := 0b0010011#7
abbrev LOAD : BitVec 7 := 0b0000011#7
abbrev STORE : BitVec 7 := 0b0100011#7
abbrev BRANCH : BitVec 7 := 0b1100011#7
abbrev AUIPC : BitVec 7 := 0b0010111#7
abbrev LUI : BitVec 7 := 0b0110111#7
abbrev JAL : BitVec 7 := 0b1101111#7
abbrev JALR : BitVec 7 := 0b1100111#7

section Decoder

variable {w : Word}

theorem opcode_of_memWrite (h : (instructionDecoder w).memWrite = true) :
    opcodeField w = STORE := by
  unfold instructionDecoder at h
  split at h
  case h_4 hop => exact hop
  all_goals cases h

theorem opcode_of_regWrite (h : (instructionDecoder w).regWrite = true) :
    opcodeField w ∈ [OP, OP_IMM, LOAD, AUIPC, LUI, JAL, JALR] := by
  unfold instructionDecoder at h
  split at h
  case h_4 | h_5 | h_10 => cases h
  all_goals
    rename_i hop
    rw [hop]
    decide

theorem opcode_of_jump (h : (instructionDecoder w).jump = true) :
    opcodeField w = JAL ∨ opcodeField w = JALR := by
  unfold instructionDecoder at h
  split at h
  case h_8 hop => exact Or.inl hop
  case h_9 hop => exact Or.inr hop
  all_goals cases h

theorem opcode_of_branch (h : (instructionDecoder w).branch = true) :
    opcodeField w = BRANCH := by
  unfold instructionDecoder at h
  split at h
  case h_5 hop => exact hop
  all_goals cases h

end Decoder

namespace Top

theorem exists_cond {funct3 : BitVec 3} {zero bit0 : Bool}
    (h : branchCondition funct3 zero bit0 = true) : ∃ c : Rv32i.Cond, funct3 = c.funct3 := by
  simp only [branchCondition, Bool.or_eq_true, Bool.and_eq_true, decide_eq_true_eq] at h
  obtain ((((⟨h, -⟩ | ⟨h, -⟩) | ⟨h, -⟩) | ⟨h, -⟩) | ⟨h, -⟩) | ⟨h, -⟩ := h
  · exact ⟨.beq, h⟩
  · exact ⟨.bne, h⟩
  · exact ⟨.blt, h⟩
  · exact ⟨.bge, h⟩
  · exact ⟨.bltu, h⟩
  · exact ⟨.bgeu, h⟩

/-- A branch that is taken is a conditional branch whose condition holds. -/
theorem exists_cond_of_takeBranch {s : Top} (h : s.takeBranch = true) :
    opcodeField s.instruction = BRANCH ∧ ∃ c : Rv32i.Cond, funct3Field s.instruction = c.funct3 ∧
      c.Holds (s.abs.reg (rs1Field s.instruction)) (s.abs.reg (rs2Field s.instruction)) := by
  rw [takeBranch, Bool.and_eq_true] at h
  obtain ⟨hbranch, hcond⟩ := h
  have hop := opcode_of_branch hbranch
  obtain ⟨c, hc⟩ := exists_cond hcond
  have hcontrol : s.control = { branch := true, aluOp := condCode c } := by
    have hcode : branchAluOp c.funct3 = condCode c := by cases c <;> rfl
    simp only [control, instructionDecoder, hop, hc, hcode]
  have halu : s.aluResult = alu (s.abs.reg (rs1Field s.instruction))
      (s.abs.reg (rs2Field s.instruction)) (condCode c) := by
    simp [aluResult, op1MuxOut, op2MuxOut, hcontrol, mux2x1, rs1Data, rs2Data, readPort,
      Rv32i.State.reg, abs]
  rw [halu, hc] at hcond
  exact ⟨hop, c, hc, (branchCondition_iff c _ _).mp hcond⟩

/-- Whatever the fetched word, an edge changes the RAM or the LED word only for a store, a
register only if it is `rd` and the opcode has one, and moves the pc to the next word but
for a jump or a branch whose condition holds. -/
theorem clock_sideEffects (s : Top) :
    let s' := s.clock false
    ((s'.memUnit.mem ≠ s.memUnit.mem ∨ s'.memUnit.leds ≠ s.memUnit.leds) →
      opcodeField s.instruction = STORE) ∧
    (∀ r, s'.registers r ≠ s.registers r → r = rdField s.instruction ∧ r ≠ 0#5 ∧
      opcodeField s.instruction ∈ [OP, OP_IMM, LOAD, AUIPC, LUI, JAL, JALR]) ∧
    (s'.pc ≠ s.pc + 4#32 →
      opcodeField s.instruction = JAL ∨ opcodeField s.instruction = JALR ∨
        opcodeField s.instruction = BRANCH ∧
          ∃ c : Rv32i.Cond, funct3Field s.instruction = c.funct3 ∧
            c.Holds (s.abs.reg (rs1Field s.instruction))
              (s.abs.reg (rs2Field s.instruction))) := by
  intro s'
  refine ⟨fun h => ?_, fun r h => ?_, fun h => ?_⟩
  · apply opcode_of_memWrite
    by_contra hwrite
    obtain ⟨hmem, hleds⟩ := ram_clock_of_not_write (Bool.eq_false_of_not_eq_true hwrite)
    exact h.elim (absurd hmem) (absurd hleds)
  · rw [registers_clock] at h
    obtain ⟨hreg, hrd, hne⟩ := by_contra fun hwrite => h (if_neg hwrite)
    exact ⟨hrd, hne, opcode_of_regWrite hreg⟩
  · by_cases htake : s.takeBranch = true
    · exact Or.inr (Or.inr (exists_cond_of_takeBranch htake))
    · have hjump : s.control.jump = true := by
        by_contra hjump
        exact h (pcNext_of_not_taken (Bool.eq_false_of_not_eq_true htake)
          (Bool.eq_false_of_not_eq_true hjump))
      exact (opcode_of_jump hjump).imp_right Or.inl

end Top

end OlinCourses.Processor
