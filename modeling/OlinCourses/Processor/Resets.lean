import OlinCourses.Processor.MemFile
import OlinCourses.Processor.Refinement

/-!
# A program under any resets

The image of a program in the RAM from power-up, and a `reset` that may rise and fall at
any time. Since the reset never touches the memory unit, every release of it runs the
same program from its first instruction.
-/
namespace OlinCourses.Processor
open Transition

/-- What happens on the inputs of `top`. -/
inductive Edge
  | clk
  | resetRises
  | resetFalls
  deriving DecidableEq

/-- The design with the level of `reset`. -/
structure Board where
  top : Top
  reset : Bool

namespace Board

/-- Both `always_ff` blocks with a reset run at `posedge clk` and at `posedge reset`. -/
def next (board : Board) : Edge → Board
  | .clk => { board with top := board.top.clock board.reset }
  | .resetRises =>
    { top := if board.reset then board.top else board.top.asyncReset, reset := true }
  | .resetFalls => { board with reset := false }

def run (board : Board) (edges : List Edge) : Board := edges.foldl next board

/-- Powered up with `reset` low: the memory is initialized, the other registers are not. -/
def powerUp (pc : Word) (registers : Reg → Word) (memUnit : Memory) : Board where
  top := { pc, registers, memUnit }
  reset := false

end Board

/-- The clock edges since `reset` was last high, and whether it still is. -/
def countEdge : ℕ × Bool → Edge → ℕ × Bool
  | (n, reset), .clk => (if reset then 0 else n + 1, reset)
  | _, .resetRises => (0, true)
  | (n, _), .resetFalls => (n, false)

/-- The clock edges since the last release of a reset that rises first. -/
def edgesSinceReset (edges : List Edge) : ℕ := (edges.foldl countEdge (0, true)).1

/-- The interpreter at the start of a program. -/
def programState (data : List (BitVec 8)) : Rv32i.State where
  pc := 0#32
  x := fun _ => 0#32
  bytes := fun address => data.getD address.toNat 0#8

/-- The interpreter executes `n` instructions of a program, all of them computational. -/
def RunsComputational (data : List (BitVec 8)) (n : ℕ) : Prop :=
  ∀ k < n, ∃ t i, iterate (Rv32i.step Top.fetch) k (programState data) = some t ∧
    Top.Computational i ∧ Top.fetch t = Rv32i.encode i

/-- All data bytes: those of the program, and zero elsewhere. -/
theorem Memory.dataByte_powerUp {data : List (BitVec 8)} (hlen : data.length ≤ 4 * 2048)
    (hzero : ∀ byte ∈ data.drop (4 * (data.length / 4)), byte = 0#8) :
    ∃ m, Memory.initial (some (createMemFile data .hex 2048)) = some m ∧
      ∀ address, m.dataByte address = data.getD address.toNat 0#8 := by
  obtain ⟨m, hm, hram⟩ := Memory.dataByte_initial hlen hzero
  refine ⟨m, hm, fun address => ?_⟩
  by_cases hin : inRam address
  · exact hram address hin
  · have hleds : m.leds = 0#32 := by
      rw [Memory.initial, Option.bind_eq_bind, Option.bind_eq_some_iff] at hm
      obtain ⟨mem, -, hmem⟩ := hm
      rw [← Option.some_inj.mp hmem]
    have hout : data.length ≤ address.toNat := by
      rw [inRam_iff] at hin
      omega
    have hlane : ∀ k < 4, Bits.byteLane 0#32 k = 0#8 := by decide
    rw [dataByte, if_neg hin, hleds, hlane _ (Nat.mod_lt _ (by decide)), ite_self,
      List.getD_eq_getElem?_getD, List.getElem?_eq_none hout, Option.getD_none]

/-- The board agrees with the interpreter `n` steps into the program, and with its start
while `reset` is high. -/
structure Follows (data : List (BitVec 8)) (board : Board) (count : ℕ × Bool) : Prop where
  reset : board.reset = count.2
  start : count.2 = true → count.1 = 0
  abs : iterate (Rv32i.step Top.fetch) count.1 (programState data) = some board.top.abs
  bytes : board.top.memUnit.dataByte = (programState data).bytes
  zero : board.top.registers 0#5 = 0#32

/-- A board in reset is at the start of its program. -/
theorem follows_of_reset {data : List (BitVec 8)} {board : Board} (hreset : board.reset = true)
    (hpc : board.top.pc = 0#32) (hregisters : board.top.registers = fun _ => 0#32)
    (hbytes : board.top.memUnit.dataByte = (programState data).bytes) :
    Follows data board (0, true) where
  reset := hreset
  start := fun _ => rfl
  abs := by rw [iterate, Top.abs, hpc, hregisters, hbytes]; rfl
  bytes := hbytes
  zero := by rw [hregisters]

section Step

variable {data : List (BitVec 8)} {board : Board} {count : ℕ × Bool} {n : ℕ}

theorem Follows.supported (h : Follows data board count) (hprogram : RunsComputational data n)
    (hlt : count.1 < n) : board.top.Supported := by
  obtain ⟨t, i, ht, hi, hfetch⟩ := hprogram _ hlt
  rw [h.abs, Option.some_inj] at ht
  rw [← ht, Top.fetch_abs] at hfetch
  exact ⟨i, hi, hfetch⟩

/-- The bytes after a clock edge, whatever `reset` is. -/
theorem Follows.bytes_clk (h : Follows data board count) (hs : board.top.Supported) :
    (board.next .clk).top.memUnit.dataByte = (programState data).bytes := by
  obtain ⟨hmem, hleds⟩ := Top.memUnit_clock_of_supported board.top hs
  rw [← h.bytes]
  funext address
  rw [Memory.dataByte, Memory.dataByte, ← hmem, ← hleds]
  rfl

theorem Follows.clk (h : Follows data board count) (hs : board.top.Supported) :
    Follows data (board.next .clk) (countEdge count .clk) := by
  have hbytes := h.bytes_clk hs
  obtain ⟨steps, level⟩ := count
  cases level with
  | true =>
    have htop : (board.next .clk).top = board.top.clock true := by rw [Board.next, h.reset]
    exact follows_of_reset h.reset (by rw [htop]; rfl) (by rw [htop]; rfl) hbytes
  | false =>
    have htop : (board.next .clk).top = board.top.clock false := by rw [Board.next, h.reset]
    refine ⟨h.reset, fun hlevel => (nomatch hlevel), ?_, hbytes, ?_⟩
    · rw [htop, ← Top.step_abs _ hs]
      exact (iterate_succ' _ _ _).trans (by rw [h.abs, Option.bind_some])
    · rw [htop]
      exact Top.registers_zero_clock _ h.zero

theorem Follows.resetRises (h : Follows data board count) :
    Follows data (board.next .resetRises) (countEdge count .resetRises) := by
  by_cases hreset : board.reset = true
  · -- the level is high already
    have hcount : (0, true) = count := by
      have hlevel := h.reset.symm.trans hreset
      rw [← hlevel, ← h.start hlevel]
    rw [Board.next, hreset, countEdge, hcount]
    exact ⟨hcount ▸ rfl, h.start, h.abs, h.bytes, h.zero⟩
  · have htop : (board.next .resetRises).top = board.top.asyncReset := if_neg hreset
    exact follows_of_reset rfl (by rw [htop]; rfl) (by rw [htop]; rfl) (by rw [htop]; exact h.bytes)

theorem Follows.resetFalls (h : Follows data board count) :
    Follows data (board.next .resetFalls) (countEdge count .resetFalls) :=
  ⟨rfl, fun hlevel => (nomatch hlevel), h.abs, h.bytes, h.zero⟩

end Step

/-- Every clock edge comes within the computational part of the program. -/
def WithinProgram (n : ℕ) (edges : List Edge) : Prop :=
  ∀ k < edges.length, edges[k]? = some .clk → edgesSinceReset (edges.take k) < n

instance (n : ℕ) (edges : List Edge) : Decidable (WithinProgram n edges) :=
  inferInstanceAs (Decidable (∀ k < edges.length, _))

theorem WithinProgram.of_append {n : ℕ} {edges edges' : List Edge}
    (h : WithinProgram n (edges ++ edges')) : WithinProgram n edges := by
  intro k hk hclk
  have hlt := h k (by rw [List.length_append]; omega) (by rwa [List.getElem?_append_left hk])
  rwa [List.take_append_of_le_length hk.le] at hlt

theorem WithinProgram.last {n : ℕ} {edges : List Edge} (h : WithinProgram n (edges ++ [.clk])) :
    edgesSinceReset edges < n := by
  have hlt := h edges.length (by rw [List.length_append, List.length_singleton]; omega) (by simp)
  rwa [List.take_left] at hlt

theorem follows_run {data : List (BitVec 8)} {n : ℕ} (hprogram : RunsComputational data n)
    {board : Board} (hstart : Follows data board (0, true)) {edges : List Edge}
    (hedges : WithinProgram n edges) :
    Follows data (board.run edges) (edges.foldl countEdge (0, true)) := by
  induction edges using List.reverseRecOn with
  | nil => exact hstart
  | append_singleton edges edge ih =>
    have hfollows := ih hedges.of_append
    rw [Board.run, List.foldl_append, List.foldl_append]
    cases edge with
    | clk => exact hfollows.clk (hfollows.supported hprogram hedges.last)
    | resetRises => exact hfollows.resetRises
    | resetFalls => exact hfollows.resetFalls

/-- A program of at most 8 KiB, written to a memory file and loaded at power-up. After a
first reset, whatever happens on the inputs, the processor is where the interpreter of the
program's bytes is after as many instructions as clock edges since the last reset, and the
memory still holds the program. -/
theorem program_under_resets {data : List (BitVec 8)} (hlen : data.length ≤ 4 * 2048)
    (hzero : ∀ byte ∈ data.drop (4 * (data.length / 4)), byte = 0#8) {n : ℕ}
    (hprogram : RunsComputational data n) (pc : Word) (registers : Reg → Word)
    {edges : List Edge} (hedges : WithinProgram n edges) :
    ∃ m t, Memory.initial (some (createMemFile data .hex 2048)) = some m ∧
      iterate (Rv32i.step Top.fetch) (edgesSinceReset edges) (programState data) = some t ∧
      ∀ top, ((Board.powerUp pc registers m).run (.resetRises :: edges)).top = top →
        top.pc = t.pc ∧ (∀ r, top.registers r = t.reg r) ∧
        ∀ address, top.memUnit.dataByte address = data.getD address.toNat 0#8 := by
  obtain ⟨m, hm, hbytes⟩ := Memory.dataByte_powerUp hlen hzero
  have hstart : Follows data ((Board.powerUp pc registers m).next .resetRises) (0, true) :=
    follows_of_reset rfl rfl rfl (funext hbytes)
  have hrun := follows_run hprogram hstart hedges
  refine ⟨m, _, hm, hrun.abs, ?_⟩
  rintro top rfl
  refine ⟨rfl, fun r => ?_, fun address => congrFun hrun.bytes address⟩
  unfold Rv32i.State.reg
  split_ifs with hr
  · rw [hr]
    exact hrun.zero
  · rfl

/-- `addi x1, x1, 5`, twice. -/
def addiProgram : List (BitVec 8) :=
  [0x93#8, 0x80#8, 0x50#8, 0x00#8, 0x93#8, 0x80#8, 0x50#8, 0x00#8]

/-- A second reset after two instructions, and one more instruction. -/
theorem program_under_resets_addi : ∃ m,
    Memory.initial (some (createMemFile addiProgram .hex 2048)) = some m ∧
    ∀ top, ((Board.powerUp 12#32 (fun _ => 7#32) m).run [.resetRises, .clk, .resetFalls, .clk, .clk,
      .resetRises, .resetFalls, .clk]).top = top → top.pc = 4#32 ∧ top.registers 1#5 = 5#32 := by
  have hfirst : Top.fetch (programState addiProgram) =
      Rv32i.encode (.opImm .addi 1#5 1#5 5#12) := by decide
  have hstep := Rv32i.step_of_encode hfirst
  have hprogram : RunsComputational addiProgram 2 := by
    intro k hk
    interval_cases k
    · exact ⟨_, .opImm .addi 1#5 1#5 5#12, rfl, trivial, hfirst⟩
    · exact ⟨_, .opImm .addi 1#5 1#5 5#12, by rw [iterate, hstep]; rfl, trivial, by decide⟩
  have hedges : WithinProgram 2
      [.clk, .resetFalls, .clk, .clk, .resetRises, .resetFalls, .clk] := by decide
  obtain ⟨m, t, hm, ht, htop⟩ := program_under_resets (by decide) (by decide) hprogram 12#32
    (fun _ => 7#32) hedges
  have hone : edgesSinceReset
      [.clk, .resetFalls, .clk, .clk, .resetRises, .resetFalls, .clk] = 1 := by decide
  rw [hone, iterate, hstep, Option.bind_some, iterate, Option.some_inj] at ht
  subst ht
  refine ⟨m, hm, fun top h => ?_⟩
  obtain ⟨hpc, hregisters, -⟩ := htop top h
  rw [hpc, hregisters]
  decide

end OlinCourses.Processor
