import OlinCourses.Processor.Units
import OlinCourses.Lib.Transition

/-!
# The processor refines the RV32I interpreter

Instructions that neither access data memory nor jump: register-register,
register-immediate, LUI, AUIPC, conditional branches and FENCE. One clock edge
is one interpreter step, and a run is a run of the same length.
-/
namespace OlinCourses.Processor
open Bits

namespace Top

theorem dataByte_of_ram (m : Memory) (idx : BitVec 11) {a : Word} {k : ℕ} (hk : k < 4)
    (ha : a.toNat = 4 * idx.toNat + k) : m.dataByte a = byteLane (m.mem idx) k := by
  have hlt := idx.isLt
  have hram : Memory.inRam a := by rw [Memory.inRam_iff]; omega
  have hidx : a.extractLsb' 2 11 = idx := by
    apply BitVec.eq_of_toNat_eq
    rw [BitVec.extractLsb'_toNat, Nat.shiftRight_eq_div_pow]
    omega
  have hlane : a.toNat % 4 = k := by omega
  rw [Memory.dataByte, if_pos hram, hidx, hlane]

theorem dataByte_of_leds (m : Memory) {a : Word} {k : ℕ} (hk : k < 4)
    (ha : a.toNat = 0xFFFFFFFC + k) : m.dataByte a = byteLane m.leds k := by
  have hram : ¬ Memory.inRam a := by rw [Memory.inRam_iff]; omega
  have hleds : Memory.inLeds a := by rw [Memory.inLeds_iff]; omega
  have hlane : a.toNat % 4 = k := by omega
  rw [Memory.dataByte, if_neg hram, if_pos hleds, hlane]

theorem ramAddress_toNat (i : BitVec 11) : (ramAddress i).toNat = 4 * i.toNat := by
  have h := i.isLt
  simp only [ramAddress, BitVec.toNat_setWidth, BitVec.toNat_append, BitVec.toNat_ofNat,
    Nat.shiftLeft_eq, Nat.zero_mod, Nat.or_zero]
  omega

theorem ramWord_abs (s : Top) (i : BitVec 11) : ramWord s.abs i = s.memUnit.mem i := by
  have h := i.isLt
  have hbase := ramAddress_toNat i
  apply Rv32i.LoadOp.lw_value_eq
  intro k hk
  apply dataByte_of_ram _ _ hk
  rw [BitVec.toNat_add, BitVec.toNat_ofNat]
  omega

theorem ledsWord_abs (s : Top) : ledsWord s.abs = s.memUnit.leds := by
  apply Rv32i.LoadOp.lw_value_eq
  intro k hk
  apply dataByte_of_leds _ hk
  rw [BitVec.toNat_add, BitVec.toNat_ofNat, BitVec.toNat_ofNat]
  omega

/-- The interpreter fetches the word the instruction port shows. -/
theorem fetch_abs (s : Top) : fetch s.abs = s.instruction := ramWord_abs s _

theorem control_of_encode {s : Top} {i : Rv32i.Instr} (h : s.instruction = Rv32i.encode i) :
    s.control = controlOf i := by
  rw [control, h, instructionDecoder_encode]

/-- An instruction that neither branches nor jumps moves the pc to the following word. -/
theorem pc_clock_of_encode {s : Top} {i : Rv32i.Instr} (h : s.instruction = Rv32i.encode i)
    (hb : (controlOf i).branch = false) (hj : (controlOf i).jump = false) :
    (s.clock false).pc = s.pc + 4#32 := by
  rw [← control_of_encode h] at hb hj
  exact pcNext_of_not_taken (takeBranch_of_not_branch hb) hj

/-- Without a data write, an edge moves the architectural state by the next-pc
and write-back multiplexers alone. -/
theorem abs_clock_of_not_write (s : Top) (h : s.control.memWrite = false) :
    (s.clock false).abs =
      { pc := s.pcNext
        x := registerFile s.registers false s.control.regWrite (rdField s.instruction) s.writeData
        bytes := s.abs.bytes } := by
  have hbytes : (s.clock false).memUnit.dataByte = s.memUnit.dataByte := by
    funext b
    simp only [clock, h]
    exact Memory.dataByte_clock_of_not_write ..
  simp only [abs, hbytes]
  rfl

section WriteBack

variable {s : Top} {i : Rv32i.Instr} (h : s.instruction = Rv32i.encode i)

include h

/-- An instruction that only writes a register. -/
theorem abs_clock_writeBack (hm : (controlOf i).memWrite = false)
    (hr : (controlOf i).regWrite = true) (hb : (controlOf i).branch = false)
    (hj : (controlOf i).jump = false) :
    (s.clock false).abs = (s.abs.setReg (rdField s.instruction) s.writeData).next := by
  rw [← control_of_encode h] at hm hr hb hj
  rw [abs_clock_of_not_write s hm, pcNext_of_not_taken (takeBranch_of_not_branch hb) hj, hr]
  by_cases hrd : rdField s.instruction = 0#5
  · simp [registerFile, Rv32i.State.setReg, hrd, Rv32i.State.next, abs]
  · simp [registerFile, Rv32i.State.setReg, hrd, Rv32i.State.next, abs]

/-- An instruction that writes no register and no memory. -/
theorem abs_clock_noWrite (hm : (controlOf i).memWrite = false)
    (hr : (controlOf i).regWrite = false) :
    (s.clock false).abs = { s.abs with pc := s.pcNext } := by
  rw [← control_of_encode h] at hm hr
  rw [abs_clock_of_not_write s hm, hr]
  simp [registerFile, abs]

end WriteBack

theorem immExt_i {s : Top} (opcode : BitVec 7) (ho : opcodeField s.instruction = opcode)
    (h : IsIOpcode opcode) : s.immExt = (Rv32i.immI s.instruction).signExtend 32 := by
  rw [immExt, ho, immGen_i h]

theorem clock_op {s : Top} {f : Rv32i.AluOp} {rd rs1 rs2 : Reg}
    (h : s.instruction = Rv32i.encode (.op f rd rs1 rs2)) :
    (s.clock false).abs = Rv32i.exec s.abs (.op f rd rs1 rs2) := by
  have hc := control_of_encode h
  have hdata : s.writeData = f.eval (s.abs.reg rs1) (s.abs.reg rs2) := by
    simp [writeData, aluResult, op1MuxOut, op2MuxOut, hc, controlOf, mux4x1, mux2x1, alu_aluCode,
      rs1Data, rs2Data, h, Rv32i.encode, readPort, Rv32i.State.reg, abs]
  rw [abs_clock_writeBack h rfl rfl rfl rfl, hdata, h]
  simp [Rv32i.encode, Rv32i.exec]

theorem clock_opImm {s : Top} {f : Rv32i.ImmOp} {rd rs1 : Reg} {imm : BitVec 12}
    (h : s.instruction = Rv32i.encode (.opImm f rd rs1 imm)) :
    (s.clock false).abs = Rv32i.exec s.abs (.opImm f rd rs1 imm) := by
  have hc := control_of_encode h
  have himm : s.immExt = imm.signExtend 32 := by
    rw [immExt_i 0b0010011#7 (by simp [h, Rv32i.encode]) (by simp [IsIOpcode]), h]
    simp [Rv32i.encode]
  have hdata : s.writeData = f.aluOp.eval (s.abs.reg rs1) (imm.signExtend 32) := by
    simp [writeData, aluResult, op1MuxOut, op2MuxOut, hc, controlOf, mux4x1, mux2x1, alu_aluCode,
      himm, rs1Data, h, Rv32i.encode, readPort, Rv32i.State.reg, abs]
  rw [abs_clock_writeBack h rfl rfl rfl rfl, hdata, h]
  simp [Rv32i.encode, Rv32i.exec]

/-- A shift looks at the low five bits of its amount only. -/
theorem shift_eval_congr (f : Rv32i.ShiftOp) (a : Word) {b b' : Word}
    (h : b.toNat % 32 = b'.toNat % 32) : f.aluOp.eval a b = f.aluOp.eval a b' := by
  cases f <;> simp only [Rv32i.ShiftOp.aluOp, Rv32i.AluOp.eval, h]

/-- The low five bits of a shift immediate are its amount. -/
theorem shamt_of_immI (funct7 : BitVec 7) (shamt rs1 : BitVec 5) (funct3 : BitVec 3) (rd : Reg)
    (opcode : BitVec 7) :
    ((Rv32i.immI (Rv32i.rType funct7 shamt rs1 funct3 rd opcode)).signExtend 32).toNat % 32 =
      (shamt.setWidth 32).toNat % 32 := by
  have hbits : ((Rv32i.immI (Rv32i.rType funct7 shamt rs1 funct3 rd opcode)).signExtend 32
      ).extractLsb' 0 5 = (shamt.setWidth 32).extractLsb' 0 5 := by
    apply BitVec.eq_of_getLsbD_eq
    intro i hi
    simp only [Rv32i.immI, Rv32i.rType, BitVec.getLsbD_append, BitVec.getLsbD_extractLsb',
      BitVec.getLsbD_signExtend, BitVec.getLsbD_setWidth]
    grind
  simpa [BitVec.extractLsb'_toNat] using congrArg BitVec.toNat hbits

theorem clock_shiftImm {s : Top} {f : Rv32i.ShiftOp} {rd rs1 : Reg} {shamt : BitVec 5}
    (h : s.instruction = Rv32i.encode (.shiftImm f rd rs1 shamt)) :
    (s.clock false).abs = Rv32i.exec s.abs (.shiftImm f rd rs1 shamt) := by
  have hc := control_of_encode h
  have himm : s.immExt = (Rv32i.immI s.instruction).signExtend 32 :=
    immExt_i 0b0010011#7 (by simp [h, Rv32i.encode]) (by simp [IsIOpcode])
  have hdata : s.writeData = f.aluOp.eval (s.abs.reg rs1) (shamt.setWidth 32) := by
    rw [← shift_eval_congr f _ (shamt_of_immI f.funct7 shamt rs1 f.funct3 rd 0b0010011#7)]
    simp [writeData, aluResult, op1MuxOut, op2MuxOut, hc, controlOf, mux4x1, mux2x1, alu_aluCode,
      himm, rs1Data, h, Rv32i.encode, readPort, Rv32i.State.reg, abs]
  rw [abs_clock_writeBack h rfl rfl rfl rfl, hdata, h]
  simp [Rv32i.encode, Rv32i.exec]

theorem clock_lui {s : Top} {rd : Reg} {imm : BitVec 20}
    (h : s.instruction = Rv32i.encode (.lui rd imm)) :
    (s.clock false).abs = Rv32i.exec s.abs (.lui rd imm) := by
  have hc := control_of_encode h
  have hdata : s.writeData = imm ++ 0#12 := by
    have hop : opcodeField s.instruction = 0b0110111#7 := by simp [h, Rv32i.encode]
    have himm : s.immExt = Rv32i.immU s.instruction ++ 0#12 := by
      rw [immExt, hop, immGen_u (Or.inr rfl)]
    simp [writeData, hc, controlOf, mux4x1, himm, h, Rv32i.encode]
  rw [abs_clock_writeBack h rfl rfl rfl rfl, hdata, h]
  simp [Rv32i.encode, Rv32i.exec]

theorem clock_auipc {s : Top} {rd : Reg} {imm : BitVec 20}
    (h : s.instruction = Rv32i.encode (.auipc rd imm)) :
    (s.clock false).abs = Rv32i.exec s.abs (.auipc rd imm) := by
  have hc := control_of_encode h
  have hdata : s.writeData = s.pc + (imm ++ 0#12) := by
    have hop : opcodeField s.instruction = 0b0010111#7 := by simp [h, Rv32i.encode]
    have himm : s.immExt = Rv32i.immU s.instruction ++ 0#12 := by
      rw [immExt, hop, immGen_u (Or.inl rfl)]
    simp [writeData, aluResult, op1MuxOut, op2MuxOut, hc, controlOf, mux4x1, mux2x1, alu, himm, h,
      Rv32i.encode]
  rw [abs_clock_writeBack h rfl rfl rfl rfl, hdata, h]
  simp [Rv32i.encode, Rv32i.exec, abs]

theorem clock_branch {s : Top} {c : Rv32i.Cond} {rs1 rs2 : Reg} {offset : BitVec 12}
    (h : s.instruction = Rv32i.encode (.branch c rs1 rs2 offset)) :
    (s.clock false).abs = Rv32i.exec s.abs (.branch c rs1 rs2 offset) := by
  have hc := control_of_encode h
  have hop : opcodeField s.instruction = 0b1100011#7 := by simp [h, Rv32i.encode]
  have himm : s.immExt = Rv32i.branchOffset offset := by
    rw [immExt, hop, immGen_b, h]
    simp [Rv32i.encode]
  have halu : s.aluResult = alu (s.abs.reg rs1) (s.abs.reg rs2) (condCode c) := by
    simp [aluResult, op1MuxOut, op2MuxOut, hc, controlOf, mux2x1, rs1Data, rs2Data, h,
      Rv32i.encode, readPort, Rv32i.State.reg, abs]
  have htake : s.takeBranch = true ↔ c.Holds (s.abs.reg rs1) (s.abs.reg rs2) := by
    rw [← branchCondition_iff, takeBranch, halu, hc, h]
    simp [controlOf, Rv32i.encode]
  rw [abs_clock_noWrite h rfl rfl, Rv32i.exec]
  by_cases hh : c.Holds (s.abs.reg rs1) (s.abs.reg rs2)
  · rw [if_pos hh]
    simp [pcNext, mux2x1, htake.mpr hh, branchTarget, himm, abs]
  · have ht : s.takeBranch = false := by simpa using fun ht => hh (htake.mp ht)
    rw [if_neg hh, pcNext_of_not_taken ht (by rw [hc]; rfl)]
    rfl

theorem clock_fence {s : Top} {ordering : BitVec 12} {rd rs1 : Reg}
    (h : s.instruction = Rv32i.encode (.fence ordering rd rs1)) :
    (s.clock false).abs = Rv32i.exec s.abs (.fence ordering rd rs1) := by
  have hc := control_of_encode h
  have hbranch : s.control.branch = false := by rw [hc]; rfl
  rw [abs_clock_noWrite h rfl rfl,
    pcNext_of_not_taken (takeBranch_of_not_branch hbranch) (by rw [hc]; rfl)]
  rfl

/-- The instructions that neither access data memory nor jump. -/
def Computational : Rv32i.Instr → Prop
  | .op .. | .opImm .. | .shiftImm .. | .lui .. | .auipc .. | .branch .. | .fence .. => True
  | _ => False

/-- The fetched word encodes a computational instruction. -/
def Supported (s : Top) : Prop := ∃ i, Computational i ∧ s.instruction = Rv32i.encode i

theorem clock_of_computational {s : Top} {i : Rv32i.Instr} (hi : Computational i)
    (h : s.instruction = Rv32i.encode i) : (s.clock false).abs = Rv32i.exec s.abs i := by
  cases i with
  | op => exact clock_op h
  | opImm => exact clock_opImm h
  | shiftImm => exact clock_shiftImm h
  | lui => exact clock_lui h
  | auipc => exact clock_auipc h
  | branch => exact clock_branch h
  | fence => exact clock_fence h
  | _ => exact hi.elim

theorem step_abs (s : Top) (h : Supported s) :
    Rv32i.step fetch s.abs = some (s.clock false).abs := by
  obtain ⟨i, hi, hw⟩ := h
  rw [Rv32i.step_of_encode ((fetch_abs s).trans hw), clock_of_computational hi hw]

/-- No edge ever writes register 0 of the array. -/
theorem registers_zero_clock (s : Top) (h : s.registers 0#5 = 0#32) :
    (s.clock false).registers 0#5 = 0#32 := by
  rw [registers_clock, if_neg fun hw => hw.2.2 rfl, h]

theorem memUnit_clock_of_supported (s : Top) (h : Supported s) :
    (s.clock false).memUnit.mem = s.memUnit.mem ∧
      (s.clock false).memUnit.leds = s.memUnit.leds := by
  obtain ⟨i, hi, hw⟩ := h
  have hm : s.control.memWrite = false := by
    rw [control_of_encode hw]
    cases i <;> first | rfl | exact hi.elim
  exact ram_clock_of_not_write hm

/-- From reset, a run of `n` edges that fetches supported words is a run of `n`
interpreter steps, with the same pc, registers, RAM and LED register. -/
theorem run_refines_rv32i (s₀ : Top) (n : ℕ) (h : ∀ k < n, Supported (run k s₀.asyncReset)) :
    ∃ t, Transition.iterate (Rv32i.step fetch) n
        { pc := 0#32, x := fun _ => 0#32, bytes := s₀.memUnit.dataByte } = some t ∧
      (run n s₀.asyncReset).pc = t.pc ∧
      (∀ r, (run n s₀.asyncReset).registers r = t.reg r) ∧
      (∀ i, (run n s₀.asyncReset).memUnit.mem i = ramWord t i) ∧
      (run n s₀.asyncReset).memUnit.leds = ledsWord t ∧
      (run n s₀.asyncReset).memUnit.mem = s₀.memUnit.mem ∧
      (run n s₀.asyncReset).memUnit.leds = s₀.memUnit.leds := by
  have hrun := Transition.iterate_simulation step_abs n s₀.asyncReset h
  have hzero : (run n s₀.asyncReset).registers 0#5 = 0#32 :=
    Transition.iterate_invariant (P := fun s => s.registers 0#5 = 0#32)
      (fun s _ => registers_zero_clock s) n s₀.asyncReset rfl h
  have hmem := Transition.iterate_invariant
    (P := fun s => s.memUnit.mem = s₀.memUnit.mem ∧ s.memUnit.leds = s₀.memUnit.leds)
    (fun s hs hP => ⟨(memUnit_clock_of_supported s hs).1.trans hP.1,
      (memUnit_clock_of_supported s hs).2.trans hP.2⟩) n s₀.asyncReset ⟨rfl, rfl⟩ h
  refine ⟨(run n s₀.asyncReset).abs, hrun, rfl, ?_, fun i => (ramWord_abs _ i).symm,
    (ledsWord_abs _).symm, hmem⟩
  intro r
  unfold Rv32i.State.reg
  split_ifs with hr
  · rw [hr, hzero]
  · rfl

/-- A RAM full of `addi x1, x1, 5`. -/
def addiImage : Top where
  pc := 0#32
  registers := fun _ => 0#32
  memUnit := { mem := fun _ => Rv32i.encode (.opImm .addi 1#5 1#5 5#12) }

theorem run_refines_rv32i_addi :
    (run 2 addiImage.asyncReset).pc = 8#32 ∧ (run 2 addiImage.asyncReset).registers 1#5 = 10#32 ∧
    ∃ t, Transition.iterate (Rv32i.step fetch) 2
        { pc := 0#32, x := fun _ => 0#32, bytes := addiImage.memUnit.dataByte } = some t ∧
      (run 2 addiImage.asyncReset).registers 1#5 = t.reg 1#5 := by
  have hs : ∀ k < 2, Supported (run k addiImage.asyncReset) := by
    intro k hk
    refine ⟨.opImm .addi 1#5 1#5 5#12, trivial, ?_⟩
    interval_cases k <;> decide
  obtain ⟨t, ht, _, hx, _⟩ := run_refines_rv32i addiImage 2 hs
  exact ⟨by decide, by decide, t, ht, hx 1#5⟩

end Top

end OlinCourses.Processor
