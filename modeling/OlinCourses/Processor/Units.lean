import OlinCourses.Processor.Top

/-!
# What the units of the processor compute

One specification lemma for each unit: the ALU evaluates the ISA operation, the
immediate generator yields the ISA immediates, the decoder the control word of
each instruction class, and the branch logic the ISA condition.
-/
namespace OlinCourses.Processor
open Bits

/-- The ALU code of an ISA operation. -/
def aluCode : Rv32i.AluOp → BitVec 4
  | .add => 0b0000#4
  | .sub => 0b0001#4
  | .and => 0b0010#4
  | .or => 0b0011#4
  | .xor => 0b0100#4
  | .sll => 0b0101#4
  | .srl => 0b0110#4
  | .sra => 0b0111#4
  | .slt => 0b1000#4
  | .sltu => 0b1001#4

theorem setWidth_ofBool (p : Prop) [Decidable p] :
    (BitVec.ofBool (decide p)).setWidth 32 = if p then 1#32 else 0#32 := by
  by_cases h : p <;> simp [h]

theorem alu_aluCode (f : Rv32i.AluOp) (a b : Word) : alu a b (aluCode f) = f.eval a b := by
  cases f with
  | sll => simp [alu, aluCode, Rv32i.AluOp.eval]
  | srl => simp [alu, aluCode, Rv32i.AluOp.eval]
  | sra => simp [alu, aluCode, Rv32i.AluOp.eval, BitVec.sshiftRight']
  | slt => exact setWidth_ofBool (a.toInt < b.toInt)
  | sltu => exact setWidth_ofBool (a.toNat < b.toNat)
  | _ => rfl

/-- The three opcodes of the I format. -/
def IsIOpcode (opcode : BitVec 7) : Prop :=
  opcode = 0b0000011#7 ∨ opcode = 0b0010011#7 ∨ opcode = 0b1100111#7

theorem immGen_i {opcode : BitVec 7} (h : IsIOpcode opcode) (w : Word) :
    immGen opcode w = (Rv32i.immI w).signExtend 32 := by
  have hmsb : (Rv32i.immI w).msb = w.getLsbD 31 := by
    simp [Rv32i.immI, BitVec.msb_eq_getLsbD_last]
  have hfill := fill_msb_append 20 (Rv32i.immI w)
  rw [hmsb] at hfill
  rcases h with rfl | rfl | rfl <;> exact hfill

theorem immGen_s (w : Word) : immGen 0b0100011#7 w = (Rv32i.immS w).signExtend 32 := by
  apply BitVec.eq_of_getLsbD_eq
  intro i hi
  simp only [immGen, Rv32i.immS, BitVec.getLsbD_append, BitVec.getLsbD_fill,
    BitVec.getLsbD_extractLsb', BitVec.getLsbD_signExtend, BitVec.msb_eq_getLsbD_last]
  grind

theorem immGen_b (w : Word) : immGen 0b1100011#7 w = Rv32i.branchOffset (Rv32i.immB w) := by
  apply BitVec.eq_of_getLsbD_eq
  intro i hi
  simp only [immGen, Rv32i.branchOffset, Rv32i.immB, BitVec.getLsbD_append, BitVec.getLsbD_fill,
    BitVec.getLsbD_extractLsb', BitVec.getLsbD_signExtend, BitVec.msb_eq_getLsbD_last]
  interval_cases i <;> simp

theorem immGen_u {opcode : BitVec 7} (h : opcode = 0b0010111#7 ∨ opcode = 0b0110111#7) (w : Word) :
    immGen opcode w = Rv32i.immU w ++ 0#12 := by
  rcases h with rfl | rfl <;> rfl

/-- The ALU code that decides a branch. -/
def condCode : Rv32i.Cond → BitVec 4
  | .beq | .bne => 0b0001#4
  | .blt | .bge => 0b1000#4
  | .bltu | .bgeu => 0b1001#4

/-- The control word of each instruction class. -/
def controlOf : Rv32i.Instr → Control
  | .op f _ _ _ => { regWrite := true, memToReg := 0b01#2, aluOp := aluCode f }
  | .opImm f _ _ _ =>
    { regWrite := true, aluSrc := 0b10#2, memToReg := 0b01#2, aluOp := aluCode f.aluOp }
  | .shiftImm f _ _ _ =>
    { regWrite := true, aluSrc := 0b10#2, memToReg := 0b01#2, aluOp := aluCode f.aluOp }
  | .lui _ _ => { regWrite := true }
  | .auipc _ _ => { regWrite := true, aluSrc := 0b11#2, memToReg := 0b01#2 }
  | .jal _ _ => { regWrite := true, aluSrc := 0b11#2, memToReg := 0b10#2, jump := true }
  | .jalr _ _ _ => { regWrite := true, aluSrc := 0b10#2, memToReg := 0b10#2, jump := true }
  | .branch c _ _ _ => { branch := true, aluOp := condCode c }
  | .load _ _ _ _ => { regWrite := true, aluSrc := 0b10#2, memRead := true, memToReg := 0b11#2 }
  | .store _ _ _ _ => { aluSrc := 0b10#2, memWrite := true }
  | .fence _ _ _ => {}

theorem instructionDecoder_encode (i : Rv32i.Instr) :
    instructionDecoder (Rv32i.encode i) = controlOf i := by
  cases i with
  | op f rd rs1 rs2 =>
    have h : rTypeAluOp f.funct3 f.funct7 = aluCode f := by cases f <;> rfl
    simp [instructionDecoder, Rv32i.encode, controlOf, h]
  | opImm f rd rs1 imm =>
    have h (funct7 : BitVec 7) : iTypeAluOp f.funct3 funct7 = aluCode f.aluOp := by
      cases f <;> rfl
    simp [instructionDecoder, Rv32i.encode, controlOf, h]
  | shiftImm f rd rs1 shamt =>
    have h : iTypeAluOp f.funct3 f.funct7 = aluCode f.aluOp := by cases f <;> rfl
    simp [instructionDecoder, Rv32i.encode, controlOf, h]
  | branch c rs1 rs2 offset =>
    have h : branchAluOp c.funct3 = condCode c := by cases c <;> rfl
    simp [instructionDecoder, Rv32i.encode, controlOf, h]
  | _ => simp [instructionDecoder, Rv32i.encode, controlOf]

theorem zeroFlag_sub (a b : Word) : zeroFlag (alu a b 0b0001#4) ↔ a = b := by
  have h : a - b = 0#32 ↔ a = b := sub_eq_zero
  simp only [zeroFlag, alu, beq_iff_eq, h]

theorem bit0_slt (a b : Word) : (alu a b 0b1000#4).getLsbD 0 ↔ a.toInt < b.toInt := by
  simp [alu, BitVec.slt]

theorem bit0_sltu (a b : Word) : (alu a b 0b1001#4).getLsbD 0 ↔ a.toNat < b.toNat := by
  simp [alu, BitVec.ult]

theorem bnot_iff {x : Bool} {p : Prop} (h : x ↔ p) : !x ↔ ¬ p := by simp [← h]

/-- With the ALU code of its condition, `top` takes a branch iff the ISA does. -/
theorem branchCondition_iff (c : Rv32i.Cond) (a b : Word) :
    Top.branchCondition c.funct3 (zeroFlag (alu a b (condCode c)))
      ((alu a b (condCode c)).getLsbD 0) ↔ c.Holds a b := by
  have hval (z l : Bool) : Top.branchCondition c.funct3 z l =
      match c with
      | .beq => z
      | .bne => !z
      | .blt | .bltu => l
      | .bge | .bgeu => !l := by cases c <;> simp [Top.branchCondition, Rv32i.Cond.funct3]
  rw [hval]
  cases c with
  | beq => exact zeroFlag_sub a b
  | bne => exact bnot_iff (zeroFlag_sub a b)
  | blt => exact bit0_slt a b
  | bge => exact (bnot_iff (bit0_slt a b)).trans not_lt
  | bltu => exact bit0_sltu a b
  | bgeu => exact (bnot_iff (bit0_sltu a b)).trans not_lt

end OlinCourses.Processor
