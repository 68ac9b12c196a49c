import OlinCourses.Processor.Units

/-!
# The immediates of the immediate generator

`ImmGen` decodes the immediate of every instruction word but one: the word that
`imm_gen.sv` singles out is a JAL with another offset.
-/
namespace OlinCourses.Processor
open Bits

theorem immGen_j (w : Word) : immGen 0b1101111#7 w =
    if w = 0xFFC000EF#32 then 0xFFFFFFFC#32 else Rv32i.jumpOffset (Rv32i.immJ w) := by
  by_cases hw : w = 0xFFC000EF#32
  · rw [if_pos hw, immGen, if_pos hw]
  · rw [if_neg hw, immGen, if_neg hw]
    apply BitVec.eq_of_getLsbD_eq
    intro i hi
    simp only [Rv32i.jumpOffset, Rv32i.immJ, BitVec.getLsbD_append, BitVec.getLsbD_fill,
      BitVec.getLsbD_extractLsb', BitVec.getLsbD_signExtend, BitVec.msb_eq_getLsbD_last]
    interval_cases i <;> simp

/-- `ImmExt` is the immediate of the word, if its opcode has one. -/
def DecodesImmediate (w : Word) : Prop :=
  ∀ imm, Rv32i.immediate w = some imm → immGen (opcodeField w) w = imm

theorem ne_of_opcode {w : Word} {opcode : BitVec 7} (h : opcodeField w = opcode)
    (hne : opcode ≠ 0b1101111#7) : w ≠ 0xFFC000EF#32 := by
  rintro rfl
  exact hne (h.symm.trans (by decide))

/-- The value of `ImmExt` for an opcode with an immediate. -/
theorem immGen_of_immediate {w imm : Word} (h : Rv32i.immediate w = some imm) :
    immGen (opcodeField w) w = if w = 0xFFC000EF#32 then 0xFFFFFFFC#32 else imm := by
  unfold Rv32i.immediate at h
  split at h
  case h_1 hop | h_2 hop | h_3 hop =>
    cases h
    rw [if_neg (ne_of_opcode hop (by decide)), opcodeField, hop, immGen_i (by simp [IsIOpcode])]
  case h_4 hop =>
    cases h
    rw [if_neg (ne_of_opcode hop (by decide)), opcodeField, hop, immGen_s]
  case h_5 hop =>
    cases h
    rw [if_neg (ne_of_opcode hop (by decide)), opcodeField, hop, immGen_b]
  case h_6 hop | h_7 hop =>
    cases h
    rw [if_neg (ne_of_opcode hop (by decide)), opcodeField, hop, immGen_u (by simp)]
  case h_8 hop =>
    cases h
    rw [opcodeField, hop, immGen_j]
  case h_9 => cases h

/-- `0xFFC000EF` is `jal x1, -1046532`, not `jal x1, -4`. -/
theorem immediate_special : Rv32i.immediate 0xFFC000EF#32 = some 0xFFF007FC#32 := by decide

theorem immGen_eq_iff {w imm : Word} (h : Rv32i.immediate w = some imm) :
    immGen (opcodeField w) w = imm ↔ w ≠ 0xFFC000EF#32 := by
  rw [immGen_of_immediate h]
  by_cases hw : w = 0xFFC000EF#32
  · rw [hw, immediate_special] at h
    cases h
    rw [if_pos hw]
    exact iff_of_false (by decide) (not_not.mpr hw)
  · rw [if_neg hw]
    exact iff_of_true rfl hw

/-- The generator decodes the immediate of every word but `0xFFC000EF`, and so gives back
every immediate that is encoded in another word. -/
theorem decodesImmediate_iff (w : Word) :
    (DecodesImmediate w ↔ w ≠ 0xFFC000EF#32) ∧
      ∀ (i : Rv32i.Instr) (imm : Word), Rv32i.encode i = w → i.immediate = some imm →
        (immGen (opcodeField w) w = imm ↔ w ≠ 0xFFC000EF#32) := by
  refine ⟨⟨?_, ?_⟩, ?_⟩
  · rintro h rfl
    exact (immGen_eq_iff immediate_special).mp (h _ immediate_special) rfl
  · exact fun hw imm himm => (immGen_eq_iff himm).mpr hw
  · rintro i imm rfl himm
    exact immGen_eq_iff ((Rv32i.immediate_encode i).trans himm)

theorem not_decodesImmediate_special : ¬ DecodesImmediate 0xFFC000EF#32 := by
  intro h
  have himm := h _ (show Rv32i.immediate 0xFFC000EF#32 = some 0xFFF007FC#32 by decide)
  revert himm
  decide

end OlinCourses.Processor
