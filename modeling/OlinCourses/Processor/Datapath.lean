import OlinCourses.Lib.Bits

/-!
# Combinational units of the RV32I processor

The modules `alu`, `ImmGen`, `instruction_decoder`, `mux_2x1`, `mux_4x1` and
`pc_adder` as functions from their inputs to their outputs. Every `always @(*)`
block becomes one function; a `case` is a `match` in the order of the source.
-/
namespace OlinCourses.Processor

abbrev Word := BitVec 32
abbrev Reg := BitVec 5

/-- The result multiplexer of the ALU. Shifts use the low five bits of `b`. -/
def alu (a b : Word) (aluOp : BitVec 4) : Word :=
  match aluOp with
  | 0b0000#4 => a + b
  | 0b0001#4 => a - b
  | 0b0010#4 => a &&& b
  | 0b0011#4 => a ||| b
  | 0b0100#4 => a ^^^ b
  | 0b0101#4 => a <<< b.extractLsb' 0 5
  | 0b0110#4 => a >>> b.extractLsb' 0 5
  | 0b0111#4 => a.sshiftRight' (b.extractLsb' 0 5)
  | 0b1000#4 => (BitVec.ofBool (a.slt b)).setWidth 32
  | 0b1001#4 => (BitVec.ofBool (a.ult b)).setWidth 32
  | _ => 0#32

/-- `zero_flag` is computed from the result, whatever the operation. -/
def zeroFlag (result : Word) : Bool := result == 0#32

/-- The JAL branch hardwires the immediate of the single word `0xFFC000EF`. -/
def immGen (opcode : BitVec 7) (instruction : Word) : Word :=
  match opcode with
  | 0b0000011#7 | 0b0010011#7 | 0b1100111#7 =>
    BitVec.fill 20 (instruction.getLsbD 31) ++ instruction.extractLsb' 20 12
  | 0b0100011#7 =>
    BitVec.fill 20 (instruction.getLsbD 31) ++ instruction.extractLsb' 25 7 ++
      instruction.extractLsb' 7 5
  | 0b1100011#7 =>
    BitVec.fill 19 (instruction.getLsbD 31) ++ instruction.extractLsb' 31 1 ++
      instruction.extractLsb' 7 1 ++ instruction.extractLsb' 25 6 ++
      instruction.extractLsb' 8 4 ++ 0#1
  | 0b0010111#7 | 0b0110111#7 => instruction.extractLsb' 12 20 ++ 0#12
  | 0b1101111#7 =>
    if instruction = 0xFFC000EF#32 then 0xFFFFFFFC#32
    else
      BitVec.fill 11 (instruction.getLsbD 31) ++ instruction.extractLsb' 31 1 ++
        instruction.extractLsb' 12 8 ++ instruction.extractLsb' 20 1 ++
        instruction.extractLsb' 21 10 ++ 0#1
  | _ => 0#32

/-- Outputs of the decoder. The field defaults are the default assignments at
the head of its `always` block. -/
structure Control where
  aluOp : BitVec 4 := 0b0000#4
  regWrite : Bool := false
  aluSrc : BitVec 2 := 0b00#2
  memRead : Bool := false
  memWrite : Bool := false
  memToReg : BitVec 2 := 0b00#2
  branch : Bool := false
  jump : Bool := false
  deriving DecidableEq, Repr

/-- `alu_op` of an R-type instruction, by `funct3` and bit 5 of `funct7`. -/
def rTypeAluOp (funct3 : BitVec 3) (funct7 : BitVec 7) : BitVec 4 :=
  match funct3 with
  | 0b000#3 => if funct7.getLsbD 5 then 0b0001#4 else 0b0000#4
  | 0b001#3 => 0b0101#4
  | 0b010#3 => 0b1000#4
  | 0b011#3 => 0b1001#4
  | 0b100#3 => 0b0100#4
  | 0b101#3 => if funct7.getLsbD 5 then 0b0111#4 else 0b0110#4
  | 0b110#3 => 0b0011#4
  | _ => 0b0010#4

/-- `alu_op` of an I-type arithmetic instruction: `funct7` is part of the
immediate, so only the right shifts look at it. -/
def iTypeAluOp (funct3 : BitVec 3) (funct7 : BitVec 7) : BitVec 4 :=
  match funct3 with
  | 0b000#3 => 0b0000#4
  | 0b001#3 => 0b0101#4
  | 0b010#3 => 0b1000#4
  | 0b011#3 => 0b1001#4
  | 0b100#3 => 0b0100#4
  | 0b101#3 => if funct7.getLsbD 5 then 0b0111#4 else 0b0110#4
  | 0b110#3 => 0b0011#4
  | _ => 0b0010#4

/-- `alu_op` of a branch: subtraction for equality, else a set-less-than. -/
def branchAluOp (funct3 : BitVec 3) : BitVec 4 :=
  match funct3 with
  | 0b000#3 | 0b001#3 => 0b0001#4
  | 0b100#3 | 0b101#3 => 0b1000#4
  | 0b110#3 | 0b111#3 => 0b1001#4
  | _ => 0b0001#4

/-- Instruction fields, named as in the decoder and in the wiring of `top`. -/
abbrev opcodeField (instruction : Word) : BitVec 7 := instruction.extractLsb' 0 7
abbrev rdField (instruction : Word) : Reg := instruction.extractLsb' 7 5
abbrev funct3Field (instruction : Word) : BitVec 3 := instruction.extractLsb' 12 3
abbrev rs1Field (instruction : Word) : Reg := instruction.extractLsb' 15 5
abbrev rs2Field (instruction : Word) : Reg := instruction.extractLsb' 20 5
abbrev funct7Field (instruction : Word) : BitVec 7 := instruction.extractLsb' 25 7

/-- The decoder also has `pc` and `imm_ext` ports, which nothing in it reads. -/
def instructionDecoder (instruction : Word) : Control :=
  let funct3 := funct3Field instruction
  let funct7 := funct7Field instruction
  match opcodeField instruction with
  | 0b0110011#7 =>
    { regWrite := true, aluSrc := 0b00#2, memToReg := 0b01#2, aluOp := rTypeAluOp funct3 funct7 }
  | 0b0010011#7 =>
    { regWrite := true, aluSrc := 0b10#2, memToReg := 0b01#2, aluOp := iTypeAluOp funct3 funct7 }
  | 0b0000011#7 =>
    { regWrite := true, aluSrc := 0b10#2, aluOp := 0b0000#4, memRead := true, memWrite := false,
      memToReg := 0b11#2 }
  | 0b0100011#7 =>
    { regWrite := false, aluSrc := 0b10#2, aluOp := 0b0000#4, memRead := false, memWrite := true,
      memToReg := 0b00#2 }
  | 0b1100011#7 =>
    { regWrite := false, aluSrc := 0b00#2, memRead := false, memWrite := false,
      memToReg := 0b00#2, branch := true, aluOp := branchAluOp funct3 }
  | 0b0010111#7 =>
    { regWrite := true, aluSrc := 0b11#2, aluOp := 0b0000#4, memRead := false, memWrite := false,
      memToReg := 0b01#2 }
  | 0b0110111#7 =>
    { regWrite := true, aluSrc := 0b00#2, aluOp := 0b0000#4, memRead := false, memWrite := false,
      memToReg := 0b00#2 }
  | 0b1101111#7 =>
    { regWrite := true, aluSrc := 0b11#2, aluOp := 0b0000#4, memRead := false, memWrite := false,
      memToReg := 0b10#2, jump := true }
  | 0b1100111#7 =>
    { regWrite := true, aluSrc := 0b10#2, aluOp := 0b0000#4, memRead := false, memWrite := false,
      memToReg := 0b10#2, jump := true }
  | _ => {}

def mux2x1 {w : ℕ} (in0 in1 : BitVec w) (sel : Bool) : BitVec w := if sel then in1 else in0

def mux4x1 {w : ℕ} (in0 in1 in2 in3 : BitVec w) (sel : BitVec 2) : BitVec w :=
  match sel with
  | 0b00#2 => in0
  | 0b01#2 => in1
  | 0b10#2 => in2
  | _ => in3

def pcAdder (pc : Word) : Word := pc + 4#32

end OlinCourses.Processor
