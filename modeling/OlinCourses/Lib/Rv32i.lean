import OlinCourses.Lib.Bits

/-!
# The RV32I base instruction set

Instructions, their encodings, a decoder and an interpreter over a flat
little-endian byte memory. Arithmetic is modulo `2 ^ 32`, register `x0` reads
zero, and nothing traps. How an instruction word is fetched is a parameter.
-/
namespace OlinCourses.Rv32i
open Bits

abbrev Word := BitVec 32
abbrev Reg := BitVec 5

inductive AluOp where
  | add | sub | sll | slt | sltu | xor | srl | sra | or | and
  deriving DecidableEq, Repr

inductive ImmOp where
  | addi | slti | sltiu | xori | ori | andi
  deriving DecidableEq, Repr

inductive ShiftOp where
  | slli | srli | srai
  deriving DecidableEq, Repr

inductive Cond where
  | beq | bne | blt | bge | bltu | bgeu
  deriving DecidableEq, Repr

inductive LoadOp where
  | lb | lh | lw | lbu | lhu
  deriving DecidableEq, Repr

inductive StoreOp where
  | sb | sh | sw
  deriving DecidableEq, Repr

/-- Branch and jump offsets are kept without their zero lowest bit. -/
inductive Instr where
  | op (f : AluOp) (rd rs1 rs2 : Reg)
  | opImm (f : ImmOp) (rd rs1 : Reg) (imm : BitVec 12)
  | shiftImm (f : ShiftOp) (rd rs1 : Reg) (shamt : BitVec 5)
  | lui (rd : Reg) (imm : BitVec 20)
  | auipc (rd : Reg) (imm : BitVec 20)
  | jal (rd : Reg) (offset : BitVec 20)
  | jalr (rd rs1 : Reg) (imm : BitVec 12)
  | branch (c : Cond) (rs1 rs2 : Reg) (offset : BitVec 12)
  | load (f : LoadOp) (rd rs1 : Reg) (imm : BitVec 12)
  | store (f : StoreOp) (rs1 rs2 : Reg) (imm : BitVec 12)
  | fence (ordering : BitVec 12) (rd rs1 : Reg)
  deriving DecidableEq, Repr

def AluOp.funct3 : AluOp → BitVec 3
  | add => 0b000#3
  | sub => 0b000#3
  | sll => 0b001#3
  | slt => 0b010#3
  | sltu => 0b011#3
  | xor => 0b100#3
  | srl => 0b101#3
  | sra => 0b101#3
  | or => 0b110#3
  | and => 0b111#3

def AluOp.funct7 : AluOp → BitVec 7
  | sub => 0b0100000#7
  | sra => 0b0100000#7
  | _ => 0b0000000#7

def ImmOp.funct3 : ImmOp → BitVec 3
  | addi => 0b000#3
  | slti => 0b010#3
  | sltiu => 0b011#3
  | xori => 0b100#3
  | ori => 0b110#3
  | andi => 0b111#3

def ShiftOp.funct3 : ShiftOp → BitVec 3
  | slli => 0b001#3
  | srli => 0b101#3
  | srai => 0b101#3

def ShiftOp.funct7 : ShiftOp → BitVec 7
  | srai => 0b0100000#7
  | _ => 0b0000000#7

def Cond.funct3 : Cond → BitVec 3
  | beq => 0b000#3
  | bne => 0b001#3
  | blt => 0b100#3
  | bge => 0b101#3
  | bltu => 0b110#3
  | bgeu => 0b111#3

def LoadOp.funct3 : LoadOp → BitVec 3
  | lb => 0b000#3
  | lh => 0b001#3
  | lw => 0b010#3
  | lbu => 0b100#3
  | lhu => 0b101#3

def StoreOp.funct3 : StoreOp → BitVec 3
  | sb => 0b000#3
  | sh => 0b001#3
  | sw => 0b010#3

/-- The R format. The other formats fill the same six fields. -/
def rType (funct7 : BitVec 7) (rs2 rs1 : Reg) (funct3 : BitVec 3) (rd : Reg)
    (opcode : BitVec 7) : Word :=
  funct7 ++ rs2 ++ rs1 ++ funct3 ++ rd ++ opcode

def iType (imm : BitVec 12) (rs1 : Reg) (funct3 : BitVec 3) (rd : Reg)
    (opcode : BitVec 7) : Word :=
  rType (imm.extractLsb' 5 7) (imm.extractLsb' 0 5) rs1 funct3 rd opcode

def sType (imm : BitVec 12) (rs2 rs1 : Reg) (funct3 : BitVec 3) (opcode : BitVec 7) : Word :=
  rType (imm.extractLsb' 5 7) rs2 rs1 funct3 (imm.extractLsb' 0 5) opcode

/-- `imm[12|10:5]` and `imm[4:1|11]`, with `offset` standing for `imm[12:1]`. -/
def bType (offset : BitVec 12) (rs2 rs1 : Reg) (funct3 : BitVec 3) (opcode : BitVec 7) : Word :=
  rType (offset.extractLsb' 11 1 ++ offset.extractLsb' 4 6) rs2 rs1 funct3
    (offset.extractLsb' 0 4 ++ offset.extractLsb' 10 1) opcode

def uType (imm : BitVec 20) (rd : Reg) (opcode : BitVec 7) : Word :=
  rType (imm.extractLsb' 13 7) (imm.extractLsb' 8 5) (imm.extractLsb' 3 5)
    (imm.extractLsb' 0 3) rd opcode

/-- `imm[20|10:1|11|19:12]`, with `offset` standing for `imm[20:1]`. -/
def jType (offset : BitVec 20) (rd : Reg) (opcode : BitVec 7) : Word :=
  uType (offset.extractLsb' 19 1 ++ offset.extractLsb' 0 10 ++ offset.extractLsb' 10 1 ++
    offset.extractLsb' 11 8) rd opcode

def encode : Instr → Word
  | .op f rd rs1 rs2 => rType f.funct7 rs2 rs1 f.funct3 rd 0b0110011#7
  | .opImm f rd rs1 imm => iType imm rs1 f.funct3 rd 0b0010011#7
  | .shiftImm f rd rs1 shamt => rType f.funct7 shamt rs1 f.funct3 rd 0b0010011#7
  | .lui rd imm => uType imm rd 0b0110111#7
  | .auipc rd imm => uType imm rd 0b0010111#7
  | .jal rd offset => jType offset rd 0b1101111#7
  | .jalr rd rs1 imm => iType imm rs1 0b000#3 rd 0b1100111#7
  | .branch c rs1 rs2 offset => bType offset rs2 rs1 c.funct3 0b1100011#7
  | .load f rd rs1 imm => iType imm rs1 f.funct3 rd 0b0000011#7
  | .store f rs1 rs2 imm => sType imm rs2 rs1 f.funct3 0b0100011#7
  | .fence ordering rd rs1 => iType ordering rs1 0b000#3 rd 0b0001111#7

section Fields

variable (funct7 : BitVec 7) (rs2 rs1 : Reg) (funct3 : BitVec 3) (rd : Reg) (opcode : BitVec 7)

@[simp] theorem rType_opcode :
    (rType funct7 rs2 rs1 funct3 rd opcode).extractLsb' 0 7 = opcode := by
  apply BitVec.eq_of_getLsbD_eq
  intro i hi
  simp [rType]
  grind

@[simp] theorem rType_rd : (rType funct7 rs2 rs1 funct3 rd opcode).extractLsb' 7 5 = rd := by
  apply BitVec.eq_of_getLsbD_eq
  intro i hi
  simp [rType]
  grind

@[simp] theorem rType_funct3 :
    (rType funct7 rs2 rs1 funct3 rd opcode).extractLsb' 12 3 = funct3 := by
  apply BitVec.eq_of_getLsbD_eq
  intro i hi
  simp [rType]
  grind

@[simp] theorem rType_rs1 : (rType funct7 rs2 rs1 funct3 rd opcode).extractLsb' 15 5 = rs1 := by
  apply BitVec.eq_of_getLsbD_eq
  intro i hi
  simp [rType]
  grind

@[simp] theorem rType_rs2 : (rType funct7 rs2 rs1 funct3 rd opcode).extractLsb' 20 5 = rs2 := by
  apply BitVec.eq_of_getLsbD_eq
  intro i hi
  simp [rType]
  grind

@[simp] theorem rType_funct7 :
    (rType funct7 rs2 rs1 funct3 rd opcode).extractLsb' 25 7 = funct7 := by
  apply BitVec.eq_of_getLsbD_eq
  intro i hi
  simp [rType]
  grind

@[simp] theorem iType_opcode (imm : BitVec 12) :
    (iType imm rs1 funct3 rd opcode).extractLsb' 0 7 = opcode := rType_opcode ..

@[simp] theorem iType_rd (imm : BitVec 12) :
    (iType imm rs1 funct3 rd opcode).extractLsb' 7 5 = rd := rType_rd ..

@[simp] theorem iType_funct3 (imm : BitVec 12) :
    (iType imm rs1 funct3 rd opcode).extractLsb' 12 3 = funct3 := rType_funct3 ..

@[simp] theorem iType_rs1 (imm : BitVec 12) :
    (iType imm rs1 funct3 rd opcode).extractLsb' 15 5 = rs1 := rType_rs1 ..

@[simp] theorem sType_opcode (imm : BitVec 12) :
    (sType imm rs2 rs1 funct3 opcode).extractLsb' 0 7 = opcode := rType_opcode ..

@[simp] theorem sType_funct3 (imm : BitVec 12) :
    (sType imm rs2 rs1 funct3 opcode).extractLsb' 12 3 = funct3 := rType_funct3 ..

@[simp] theorem sType_rs1 (imm : BitVec 12) :
    (sType imm rs2 rs1 funct3 opcode).extractLsb' 15 5 = rs1 := rType_rs1 ..

@[simp] theorem sType_rs2 (imm : BitVec 12) :
    (sType imm rs2 rs1 funct3 opcode).extractLsb' 20 5 = rs2 := rType_rs2 ..

@[simp] theorem bType_opcode (offset : BitVec 12) :
    (bType offset rs2 rs1 funct3 opcode).extractLsb' 0 7 = opcode := rType_opcode ..

@[simp] theorem bType_funct3 (offset : BitVec 12) :
    (bType offset rs2 rs1 funct3 opcode).extractLsb' 12 3 = funct3 := rType_funct3 ..

@[simp] theorem bType_rs1 (offset : BitVec 12) :
    (bType offset rs2 rs1 funct3 opcode).extractLsb' 15 5 = rs1 := rType_rs1 ..

@[simp] theorem bType_rs2 (offset : BitVec 12) :
    (bType offset rs2 rs1 funct3 opcode).extractLsb' 20 5 = rs2 := rType_rs2 ..

@[simp] theorem uType_opcode (imm : BitVec 20) :
    (uType imm rd opcode).extractLsb' 0 7 = opcode := rType_opcode ..

@[simp] theorem uType_rd (imm : BitVec 20) :
    (uType imm rd opcode).extractLsb' 7 5 = rd := rType_rd ..

@[simp] theorem jType_opcode (offset : BitVec 20) :
    (jType offset rd opcode).extractLsb' 0 7 = opcode := uType_opcode ..

@[simp] theorem jType_rd (offset : BitVec 20) :
    (jType offset rd opcode).extractLsb' 7 5 = rd := uType_rd ..

end Fields

def immI (w : Word) : BitVec 12 := w.extractLsb' 20 12
def immS (w : Word) : BitVec 12 := w.extractLsb' 25 7 ++ w.extractLsb' 7 5
def immU (w : Word) : BitVec 20 := w.extractLsb' 12 20

/-- `imm[12:1]` of a branch. -/
def immB (w : Word) : BitVec 12 :=
  w.extractLsb' 31 1 ++ w.extractLsb' 7 1 ++ w.extractLsb' 25 6 ++ w.extractLsb' 8 4

/-- `imm[20:1]` of a jump. -/
def immJ (w : Word) : BitVec 20 :=
  w.extractLsb' 31 1 ++ w.extractLsb' 12 8 ++ w.extractLsb' 20 1 ++ w.extractLsb' 21 10

@[simp] theorem immI_iType (imm : BitVec 12) (rs1 : Reg) (funct3 : BitVec 3) (rd : Reg)
    (opcode : BitVec 7) : immI (iType imm rs1 funct3 rd opcode) = imm := by
  apply BitVec.eq_of_getLsbD_eq
  intro i hi
  simp [immI, iType, rType]
  grind

@[simp] theorem immS_sType (imm : BitVec 12) (rs2 rs1 : Reg) (funct3 : BitVec 3)
    (opcode : BitVec 7) : immS (sType imm rs2 rs1 funct3 opcode) = imm := by
  apply BitVec.eq_of_getLsbD_eq
  intro i hi
  simp only [immS, sType, rType_funct7, rType_rd, BitVec.getLsbD_append,
    BitVec.getLsbD_extractLsb']
  grind

@[simp] theorem immU_uType (imm : BitVec 20) (rd : Reg) (opcode : BitVec 7) :
    immU (uType imm rd opcode) = imm := by
  apply BitVec.eq_of_getLsbD_eq
  intro i hi
  simp [immU, uType, rType]
  grind

@[simp] theorem immB_bType (offset : BitVec 12) (rs2 rs1 : Reg) (funct3 : BitVec 3)
    (opcode : BitVec 7) : immB (bType offset rs2 rs1 funct3 opcode) = offset := by
  apply BitVec.eq_of_getLsbD_eq
  intro i hi
  simp only [immB, bType, rType, BitVec.getLsbD_append, BitVec.getLsbD_extractLsb']
  interval_cases i <;> simp

@[simp] theorem immJ_jType (offset : BitVec 20) (rd : Reg) (opcode : BitVec 7) :
    immJ (jType offset rd opcode) = offset := by
  apply BitVec.eq_of_getLsbD_eq
  intro i hi
  simp only [immJ, jType, uType, rType, BitVec.getLsbD_append, BitVec.getLsbD_extractLsb']
  interval_cases i <;> simp

def AluOp.decode (funct3 : BitVec 3) (funct7 : BitVec 7) : Option AluOp :=
  [AluOp.add, .sub, .sll, .slt, .sltu, .xor, .srl, .sra, .or, .and].find?
    fun f => f.funct3 == funct3 && f.funct7 == funct7

def ImmOp.decode (funct3 : BitVec 3) : Option ImmOp :=
  [ImmOp.addi, .slti, .sltiu, .xori, .ori, .andi].find? fun f => f.funct3 == funct3

def ShiftOp.decode (funct3 : BitVec 3) (funct7 : BitVec 7) : Option ShiftOp :=
  [ShiftOp.slli, .srli, .srai].find? fun f => f.funct3 == funct3 && f.funct7 == funct7

def Cond.decode (funct3 : BitVec 3) : Option Cond :=
  [Cond.beq, .bne, .blt, .bge, .bltu, .bgeu].find? fun c => c.funct3 == funct3

def LoadOp.decode (funct3 : BitVec 3) : Option LoadOp :=
  [LoadOp.lb, .lh, .lw, .lbu, .lhu].find? fun f => f.funct3 == funct3

def StoreOp.decode (funct3 : BitVec 3) : Option StoreOp :=
  [StoreOp.sb, .sh, .sw].find? fun f => f.funct3 == funct3

/-- `none` is an encoding the base set does not define (or a system
instruction, which this interpreter leaves out). -/
def decode (w : Word) : Option Instr :=
  let rd := w.extractLsb' 7 5
  let funct3 := w.extractLsb' 12 3
  let rs1 := w.extractLsb' 15 5
  let rs2 := w.extractLsb' 20 5
  let funct7 := w.extractLsb' 25 7
  match w.extractLsb' 0 7 with
  | 0b0110011#7 => (AluOp.decode funct3 funct7).map fun f => .op f rd rs1 rs2
  | 0b0010011#7 =>
    match ImmOp.decode funct3 with
    | some f => some (.opImm f rd rs1 (immI w))
    | none => (ShiftOp.decode funct3 funct7).map fun f => .shiftImm f rd rs1 rs2
  | 0b0110111#7 => some (.lui rd (immU w))
  | 0b0010111#7 => some (.auipc rd (immU w))
  | 0b1101111#7 => some (.jal rd (immJ w))
  | 0b1100111#7 => if funct3 = 0b000#3 then some (.jalr rd rs1 (immI w)) else none
  | 0b1100011#7 => (Cond.decode funct3).map fun c => .branch c rs1 rs2 (immB w)
  | 0b0000011#7 => (LoadOp.decode funct3).map fun f => .load f rd rs1 (immI w)
  | 0b0100011#7 => (StoreOp.decode funct3).map fun f => .store f rs1 rs2 (immS w)
  | 0b0001111#7 => if funct3 = 0b000#3 then some (.fence (immI w) rd rs1) else none
  | _ => none

/-- Every encoded instruction is decoded back. -/
theorem decode_encode (i : Instr) : decode (encode i) = some i := by
  cases i with
  | op f rd rs1 rs2 =>
    have h : AluOp.decode f.funct3 f.funct7 = some f := by cases f <;> rfl
    simp [decode, encode, h]
  | opImm f rd rs1 imm =>
    have h : ImmOp.decode f.funct3 = some f := by cases f <;> rfl
    simp [decode, encode, h]
  | shiftImm f rd rs1 shamt =>
    have h : ImmOp.decode f.funct3 = none := by cases f <;> rfl
    have h' : ShiftOp.decode f.funct3 f.funct7 = some f := by cases f <;> rfl
    simp [decode, encode, h, h']
  | branch c rs1 rs2 offset =>
    have h : Cond.decode c.funct3 = some c := by cases c <;> rfl
    simp [decode, encode, h]
  | load f rd rs1 imm =>
    have h : LoadOp.decode f.funct3 = some f := by cases f <;> rfl
    simp [decode, encode, h]
  | store f rs1 rs2 imm =>
    have h : StoreOp.decode f.funct3 = some f := by cases f <;> rfl
    simp [decode, encode, h]
  | _ => simp [decode, encode]

structure State where
  pc : Word
  x : Reg → Word
  bytes : Word → BitVec 8

namespace State

/-- Register read; `x0` reads zero. -/
def reg (s : State) (r : Reg) : Word := if r = 0#5 then 0#32 else s.x r

/-- Register write; a write to `x0` is dropped. -/
def setReg (s : State) (r : Reg) (v : Word) : State :=
  if r = 0#5 then s else { s with x := Function.update s.x r v }

def next (s : State) : State := { s with pc := s.pc + 4#32 }

end State

def AluOp.eval : AluOp → Word → Word → Word
  | add, a, b => a + b
  | sub, a, b => a - b
  | sll, a, b => a <<< (b.toNat % 32)
  | slt, a, b => if a.toInt < b.toInt then 1#32 else 0#32
  | sltu, a, b => if a.toNat < b.toNat then 1#32 else 0#32
  | xor, a, b => a ^^^ b
  | srl, a, b => a >>> (b.toNat % 32)
  | sra, a, b => a.sshiftRight (b.toNat % 32)
  | or, a, b => a ||| b
  | and, a, b => a &&& b

def ImmOp.aluOp : ImmOp → AluOp
  | addi => .add
  | slti => .slt
  | sltiu => .sltu
  | xori => .xor
  | ori => .or
  | andi => .and

def ShiftOp.aluOp : ShiftOp → AluOp
  | slli => .sll
  | srli => .srl
  | srai => .sra

def Cond.Holds : Cond → Word → Word → Prop
  | beq, a, b => a = b
  | bne, a, b => a ≠ b
  | blt, a, b => a.toInt < b.toInt
  | bge, a, b => b.toInt ≤ a.toInt
  | bltu, a, b => a.toNat < b.toNat
  | bgeu, a, b => b.toNat ≤ a.toNat

instance (c : Cond) (a b : Word) : Decidable (c.Holds a b) :=
  match c with
  | .beq => inferInstanceAs (Decidable (a = b))
  | .bne => inferInstanceAs (Decidable (a ≠ b))
  | .blt => inferInstanceAs (Decidable (a.toInt < b.toInt))
  | .bge => inferInstanceAs (Decidable (b.toInt ≤ a.toInt))
  | .bltu => inferInstanceAs (Decidable (a.toNat < b.toNat))
  | .bgeu => inferInstanceAs (Decidable (b.toNat ≤ a.toNat))

/-- Number of bytes a load or store accesses. -/
def LoadOp.size : LoadOp → ℕ
  | lb | lbu => 1
  | lh | lhu => 2
  | lw => 4

def StoreOp.size : StoreOp → ℕ
  | sb => 1
  | sh => 2
  | sw => 4

/-- The little-endian value at `a`, extended to a word. -/
def LoadOp.value (bytes : Word → BitVec 8) (a : Word) : LoadOp → Word
  | lb => (bytes a).signExtend 32
  | lh => (bytes (a + 1#32) ++ bytes a).signExtend 32
  | lw => ofBytes (bytes (a + 3#32)) (bytes (a + 2#32)) (bytes (a + 1#32)) (bytes a)
  | lbu => (bytes a).setWidth 32
  | lhu => (bytes (a + 1#32) ++ bytes a).setWidth 32

/-- Four consecutive byte lanes of `w` read back as `w`. -/
theorem LoadOp.lw_value_eq {bytes : Word → BitVec 8} {a w : Word}
    (h : ∀ k < 4, bytes (a + BitVec.ofNat 32 k) = byteLane w k) : lw.value bytes a = w := by
  have h0 := h 0 (by omega)
  rw [BitVec.add_zero] at h0
  have h1 : bytes (a + 1#32) = byteLane w 1 := h 1 (by omega)
  have h2 : bytes (a + 2#32) = byteLane w 2 := h 2 (by omega)
  have h3 : bytes (a + 3#32) = byteLane w 3 := h 3 (by omega)
  rw [LoadOp.value, h0, h1, h2, h3, ofBytes_byteLane]

/-- Memory after storing the `size` low bytes of `v` at `a`, little-endian. -/
def storeBytes (bytes : Word → BitVec 8) (a v : Word) (size : ℕ) : Word → BitVec 8 :=
  fun b => if (b - a).toNat < size then byteLane v (b - a).toNat else bytes b

/-- A branch offset in bytes. -/
def branchOffset (offset : BitVec 12) : Word := (offset ++ 0#1).signExtend 32

/-- A jump offset in bytes. -/
def jumpOffset (offset : BitVec 20) : Word := (offset ++ 0#1).signExtend 32

def exec (s : State) : Instr → State
  | .op f rd rs1 rs2 => (s.setReg rd (f.eval (s.reg rs1) (s.reg rs2))).next
  | .opImm f rd rs1 imm => (s.setReg rd (f.aluOp.eval (s.reg rs1) (imm.signExtend 32))).next
  | .shiftImm f rd rs1 shamt => (s.setReg rd (f.aluOp.eval (s.reg rs1) (shamt.setWidth 32))).next
  | .lui rd imm => (s.setReg rd (imm ++ 0#12)).next
  | .auipc rd imm => (s.setReg rd (s.pc + (imm ++ 0#12))).next
  | .jal rd offset => { s.setReg rd (s.pc + 4#32) with pc := s.pc + jumpOffset offset }
  | .jalr rd rs1 imm =>
    { s.setReg rd (s.pc + 4#32) with pc := (s.reg rs1 + imm.signExtend 32) &&& ~~~1#32 }
  | .branch c rs1 rs2 offset =>
    if c.Holds (s.reg rs1) (s.reg rs2) then { s with pc := s.pc + branchOffset offset }
    else s.next
  | .load f rd rs1 imm => (s.setReg rd (f.value s.bytes (s.reg rs1 + imm.signExtend 32))).next
  | .store f rs1 rs2 imm =>
    { s with bytes := storeBytes s.bytes (s.reg rs1 + imm.signExtend 32) (s.reg rs2) f.size }.next
  | .fence _ _ _ => s.next

/-- One step of the interpreter whose instruction words come from `fetch`. -/
def step (fetch : State → Word) (s : State) : Option State :=
  (decode (fetch s)).map (exec s)

theorem step_of_encode {fetch : State → Word} {s : State} {i : Instr} (h : fetch s = encode i) :
    step fetch s = some (exec s i) := by
  rw [step, h, decode_encode, Option.map_some]

/-- The immediate that the format of a word lays out, extended to a word; `none` for the
opcodes without one. -/
def immediate (w : Word) : Option Word :=
  match w.extractLsb' 0 7 with
  | 0b0000011#7 | 0b0010011#7 | 0b1100111#7 => some ((immI w).signExtend 32)
  | 0b0100011#7 => some ((immS w).signExtend 32)
  | 0b1100011#7 => some (branchOffset (immB w))
  | 0b0010111#7 | 0b0110111#7 => some (immU w ++ 0#12)
  | 0b1101111#7 => some (jumpOffset (immJ w))
  | _ => none

/-- The immediate that an instruction is encoded with. -/
def Instr.immediate : Instr → Option Word
  | .opImm _ _ _ imm => some (imm.signExtend 32)
  | .shiftImm f _ _ shamt => some ((f.funct7 ++ shamt).signExtend 32)
  | .lui _ imm => some (imm ++ 0#12)
  | .auipc _ imm => some (imm ++ 0#12)
  | .jal _ offset => some (jumpOffset offset)
  | .jalr _ _ imm => some (imm.signExtend 32)
  | .branch _ _ _ offset => some (branchOffset offset)
  | .load _ _ _ imm => some (imm.signExtend 32)
  | .store _ _ _ imm => some (imm.signExtend 32)
  | .op .. => none
  | .fence .. => none

@[simp] theorem immI_rType (funct7 : BitVec 7) (rs2 rs1 : Reg) (funct3 : BitVec 3) (rd : Reg)
    (opcode : BitVec 7) : immI (rType funct7 rs2 rs1 funct3 rd opcode) = funct7 ++ rs2 := by
  apply BitVec.eq_of_getLsbD_eq
  intro i hi
  simp only [immI, rType, BitVec.getLsbD_append, BitVec.getLsbD_extractLsb']
  grind

/-- The immediate of an encoded instruction is the one it was encoded with. -/
theorem immediate_encode (i : Instr) : immediate (encode i) = i.immediate := by
  cases i <;> simp [immediate, encode, Instr.immediate]

end OlinCourses.Rv32i
