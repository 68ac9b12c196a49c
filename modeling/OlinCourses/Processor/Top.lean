import OlinCourses.Processor.Memory
import OlinCourses.Lib.Rv32i

/-!
# The single-cycle RV32I processor

`program_counter.sv`, `register_file.sv` and the wiring of `top.sv`. The wires
of `top` are functions of its registers; one rising clock edge updates all
registers at once from the wires before the edge.
-/
namespace OlinCourses.Processor

/-- `pc_write` is tied to 1 in `top`. -/
def programCounter (reset pcWrite : Bool) (pc nextPc : Word) : Word :=
  if reset then 0#32 else if pcWrite then nextPc else pc

/-- A combinational read port: address 0 reads zero. -/
def readPort (registers : Reg → Word) (address : Reg) : Word :=
  if address = 0#5 then 0#32 else registers address

/-- The register array after a rising edge of `clk`. -/
def registerFile (registers : Reg → Word) (reset regWrite : Bool) (rdAddr : Reg)
    (rdData : Word) : Reg → Word :=
  if reset then fun _ => 0#32
  else if regWrite ∧ rdAddr ≠ 0#5 then Function.update registers rdAddr rdData
  else registers

/-- The registers of the design. -/
structure Top where
  pc : Word
  registers : Reg → Word
  memUnit : Memory

namespace Top

/-- The address port of the memory unit is tied to `pc`, for instruction fetch
and data access alike. -/
def memAddress (s : Top) : Word := s.pc

def instruction (s : Top) : Word := s.memUnit.instruction s.memAddress
def control (s : Top) : Control := instructionDecoder s.instruction
def immExt (s : Top) : Word := immGen (opcodeField s.instruction) s.instruction
def rs1Data (s : Top) : Word := readPort s.registers (rs1Field s.instruction)
def rs2Data (s : Top) : Word := readPort s.registers (rs2Field s.instruction)

def op1MuxOut (s : Top) : Word := mux2x1 s.rs1Data s.pc (s.control.aluSrc.getLsbD 0)
def op2MuxOut (s : Top) : Word := mux2x1 s.rs2Data s.immExt (s.control.aluSrc.getLsbD 1)
def aluResult (s : Top) : Word := alu s.op1MuxOut s.op2MuxOut s.control.aluOp

def memReadData (s : Top) : Word := s.memUnit.readData s.control.memRead

/-- The six branch conditions, by `funct3`. -/
def branchCondition (funct3 : BitVec 3) (zeroFlag aluBit0 : Bool) : Bool :=
  (funct3 = 0b000#3 && zeroFlag) || (funct3 = 0b001#3 && !zeroFlag) ||
  (funct3 = 0b100#3 && aluBit0) || (funct3 = 0b101#3 && !aluBit0) ||
  (funct3 = 0b110#3 && aluBit0) || (funct3 = 0b111#3 && !aluBit0)

def takeBranch (s : Top) : Bool :=
  s.control.branch && branchCondition (funct3Field s.instruction) (zeroFlag s.aluResult)
    (s.aluResult.getLsbD 0)

def branchTarget (s : Top) : Word := s.pc + s.immExt

def pcNext (s : Top) : Word :=
  mux2x1 (pcAdder s.pc) (if s.takeBranch then s.branchTarget else s.aluResult)
    (s.takeBranch || s.control.jump)

def writeData (s : Top) : Word :=
  mux4x1 s.immExt s.aluResult (pcAdder s.pc) s.memReadData s.control.memToReg

/-- One rising edge of `clk`. The memory unit has no reset. -/
def clock (s : Top) (reset : Bool) : Top where
  pc := programCounter reset true s.pc s.pcNext
  registers := registerFile s.registers reset s.control.regWrite (rdField s.instruction) s.writeData
  memUnit :=
    s.memUnit.clock s.control.memWrite s.memAddress s.rs2Data (funct3Field s.instruction)

/-- What an edge with `reset` low writes to the registers. -/
theorem registers_clock (s : Top) (r : Reg) : (s.clock false).registers r =
    if s.control.regWrite = true ∧ r = rdField s.instruction ∧ r ≠ 0#5 then s.writeData
    else s.registers r := by
  simp only [clock, registerFile, Bool.false_eq_true, if_false]
  by_cases hwrite : s.control.regWrite = true ∧ rdField s.instruction ≠ 0#5
  · rw [if_pos hwrite, Function.update_apply]
    refine if_congr ⟨fun hr => ⟨hwrite.1, hr, hr ▸ hwrite.2⟩, fun h => h.2.1⟩ rfl rfl
  · rw [if_neg hwrite, if_neg]
    rintro ⟨hreg, rfl, hne⟩
    exact hwrite ⟨hreg, hne⟩

theorem takeBranch_of_not_branch {s : Top} (h : s.control.branch = false) :
    s.takeBranch = false := by rw [takeBranch, h, Bool.false_and]

/-- Without a taken branch or a jump the next pc is the following word. -/
theorem pcNext_of_not_taken {s : Top} (htake : s.takeBranch = false)
    (hjump : s.control.jump = false) : s.pcNext = s.pc + 4#32 := by
  rw [pcNext, htake, hjump]
  rfl

/-- Without a data write an edge keeps the RAM and the LED word. -/
theorem ram_clock_of_not_write {s : Top} (h : s.control.memWrite = false) :
    (s.clock false).memUnit.mem = s.memUnit.mem ∧
      (s.clock false).memUnit.leds = s.memUnit.leds := by
  rw [clock, h]
  exact ⟨Memory.clock_mem_of_not_write .., Memory.clock_leds_of_not_write ..⟩

/-- A rising edge of the asynchronous `reset`. -/
def asyncReset (s : Top) : Top :=
  { s with pc := 0#32, registers := fun _ => 0#32 }

/-- `n` rising edges with `reset` low. -/
def run (n : ℕ) (s : Top) : Top := (fun t => t.clock false)^[n] s

/-- What the reference interpreter sees of the processor. -/
def abs (s : Top) : Rv32i.State where
  pc := s.pc
  x := s.registers
  bytes := s.memUnit.dataByte

/-- The byte address of word `i` of the RAM. -/
def ramAddress (i : BitVec 11) : Word := (i ++ 0#2 : BitVec 13).setWidth 32

/-- Word `i` of the RAM and the LED word, read from the byte memory. -/
def ramWord (t : Rv32i.State) (i : BitVec 11) : Word := Rv32i.LoadOp.lw.value t.bytes (ramAddress i)
def ledsWord (t : Rv32i.State) : Word := Rv32i.LoadOp.lw.value t.bytes 0xFFFFFFFC#32

/-- The instruction word of the interpreter: a fetch from `pc` reads word
`pc[12:2]` of the RAM. -/
def fetch (t : Rv32i.State) : Word := ramWord t (t.pc.extractLsb' 2 11)

end Top

end OlinCourses.Processor
