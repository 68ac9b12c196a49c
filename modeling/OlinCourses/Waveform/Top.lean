import Mathlib.Data.BitVec

/-!
# The waveform generator

`top.sv` with `sine_gen.sv` and `memory_quarter.sv`: two synchronised buttons, the
waveform and frequency selectors, the phase accumulator and the output multiplexer.
One rising clock edge is one function of the state before it.
-/
namespace OlinCourses.Waveform

/-- The registers behind one active-low button input. -/
structure Button where
  sync0 : Bool := false
  sync1 : Bool := false
  r : Bool := false

/-- The synchroniser and the edge detector; the source writes them once for each
button. -/
def Button.clock (b : Button) (inputN : Bool) : Button where
  sync0 := !inputN
  sync1 := b.sync0
  r := b.sync1 && !b.r

/-- The samples of `sine_quarter.txt`. -/
abbrev QuarterTable := BitVec 7 → BitVec 9

namespace SineGen

def quarterAddress (phase : BitVec 9) : BitVec 7 :=
  if phase.extractLsb' 7 2 = 0b01#2 ∨ phase.extractLsb' 7 2 = 0b11#2 then
    127#7 - phase.extractLsb' 0 7
  else phase.extractLsb' 0 7

def out (phase : BitVec 9) (quarterData : BitVec 9) : BitVec 10 :=
  match phase.extractLsb' 7 2 with
  | 0b00#2 | 0b01#2 => 512#10 + quarterData.setWidth 10
  | _ => 512#10 - quarterData.setWidth 10

end SineGen

def PH1 : BitVec 32 := 357913#32
def PH2 : BitVec 32 := 715827#32
def PH5 : BitVec 32 := 1789574#32
def PH10 : BitVec 32 := 3578139#32

structure Inputs where
  bootN : Bool
  swN : Bool

/-- The registers of `top`; `readData` is the output register of the quarter table. -/
structure Top where
  boot : Button := {}
  sw : Button := {}
  waveformSel : BitVec 2 := 0#2
  freqSel : BitVec 2 := 0#2
  phaseAcc : BitVec 32 := 0#32
  readData : BitVec 9

namespace Top

def phaseInc (freqSel : BitVec 2) : BitVec 32 :=
  match freqSel with
  | 0#2 => PH1
  | 1#2 => PH2
  | 2#2 => PH5
  | _ => PH10

/-- The phase that `sine_gen` sees. -/
def phase (s : Top) : BitVec 9 := s.phaseAcc.extractLsb' 23 9

def dataSine (s : Top) : BitVec 10 := SineGen.out s.phase s.readData

def dataTri (s : Top) : BitVec 10 :=
  if s.phaseAcc.getLsbD 31 then 1023#10 - s.phaseAcc.extractLsb' 21 10
  else s.phaseAcc.extractLsb' 21 10

def dataSq (s : Top) : Bool := s.phaseAcc.getLsbD 31

def dacOut (s : Top) : BitVec 10 :=
  match s.waveformSel with
  | 0b00#2 => s.dataSine
  | 0b01#2 => s.dataTri
  | 0b10#2 => BitVec.fill 10 s.dataSq
  | _ => s.dataSine

/-- One rising edge of `clk`. -/
def clock (table : QuarterTable) (s : Top) (inputs : Inputs) : Top where
  boot := s.boot.clock inputs.bootN
  sw := s.sw.clock inputs.swN
  waveformSel :=
    if s.boot.r then (if s.waveformSel = 2#2 then 0#2 else s.waveformSel + 1#2)
    else s.waveformSel
  freqSel :=
    if s.sw.r then (if s.freqSel = 3#2 then 0#2 else s.freqSel + 1#2) else s.freqSel
  phaseAcc := s.phaseAcc + phaseInc s.freqSel
  readData := table (SineGen.quarterAddress s.phase)

/-- The state after `n` clock edges with the given inputs at each of them. -/
def trace (table : QuarterTable) (readData : BitVec 9) (inputs : ℕ → Inputs) : ℕ → Top
  | 0 => { readData }
  | n + 1 => (trace table readData inputs n).clock table (inputs n)

end Top

end OlinCourses.Waveform
