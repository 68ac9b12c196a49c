import OlinCourses.Lib.Argmax
import OlinCourses.Lib.Binary64
import OlinCourses.Lib.Bits
import OlinCourses.Lib.Copying
import OlinCourses.Lib.DirectMapped
import OlinCourses.Lib.Doubling
import OlinCourses.Lib.Exchange
import OlinCourses.Lib.Heap
import OlinCourses.Lib.LineGame
import OlinCourses.Lib.LineInput
import OlinCourses.Lib.Loop
import OlinCourses.Lib.Numerals
import OlinCourses.Lib.Pointers
import OlinCourses.Lib.Pulse
import OlinCourses.Lib.Recording
import OlinCourses.Lib.Runs
import OlinCourses.Lib.Rv32i
import OlinCourses.Lib.Search
import OlinCourses.Lib.Trails
import OlinCourses.Lib.Transition
import OlinCourses.Lib.Truncation
import OlinCourses.Processor.Datapath
import OlinCourses.Processor.Memory
import OlinCourses.Processor.Top
import OlinCourses.Processor.Refinement
import OlinCourses.Processor.DataAccess
import OlinCourses.Processor.MemFile
import OlinCourses.Processor.MemoryPorts
import OlinCourses.Processor.Immediates
import OlinCourses.Processor.Jumps
import OlinCourses.Processor.Peripherals
import OlinCourses.Processor.SideEffects
import OlinCourses.Processor.Resets
import OlinCourses.Caching.Cache
import OlinCourses.Caching.Slicing
import OlinCourses.Caching.Access
import OlinCourses.Caching.Run
import OlinCourses.Caching.Transparency
import OlinCourses.Caching.Locality
import OlinCourses.Caching.Shifts
import OlinCourses.Caching.Transpose
import OlinCourses.Weave.Threads
import OlinCourses.Weave.Invariant
import OlinCourses.Weave.Barrier
import OlinCourses.Weave.Transcripts
import OlinCourses.Waveform.Buttons
import OlinCourses.Waveform.Sine
import OlinCourses.Waveform.Triangle
import OlinCourses.Waveform.Frequency
import OlinCourses.HsvWheel.Wheel
import OlinCourses.HsvWheel.Leds
import OlinCourses.RgbCycle.Top
import OlinCourses.SineWave.Top
import OlinCourses.Shell.StringArray
import OlinCourses.Shell.Tokenizer
import OlinCourses.Shell.Operations
import OlinCourses.Shell.HeapArray
import OlinCourses.Shell.ShellLoop
import OlinCourses.IntegerProgramming.BranchAndBound
import OlinCourses.IntegerProgramming.Optimality
import OlinCourses.IntegerProgramming.Soundness
import OlinCourses.IntegerProgramming.Termination
import OlinCourses.LinearProgramming.AllowableIncrease
import OlinCourses.Game2048.Board
import OlinCourses.Game2048.Tiles
import OlinCourses.Game2048.Accounts
import OlinCourses.Game2048.Moves
import OlinCourses.Game2048.Bound
import OlinCourses.Game2048.Score
import OlinCourses.Game2048.Solver
import OlinCourses.Game2048.Rows
import OlinCourses.Game2048.Symmetry
import OlinCourses.Game2048.Turns
import OlinCourses.Game2048.Numpy
import OlinCourses.Game2048.Refinement
import OlinCourses.Game2048.Traps
import OlinCourses.Game2048.Escape
import OlinCourses.TicTacToe.Game
import OlinCourses.TicTacToe.Consistency
import OlinCourses.TicTacToe.Main
import OlinCourses.TicTacToe.Rules
import OlinCourses.NetworkFlow.Paths
import OlinCourses.Genetic.Schedule
import OlinCourses.Genetic.Fitness
import OlinCourses.Genetic.Algorithm
import OlinCourses.Genetic.Population
import OlinCourses.Genetic.Evolution
import OlinCourses.Genetic.Invariants
import OlinCourses.Genetic.Rosters
import OlinCourses.Genetic.Sampling
import OlinCourses.Genetic.Roulette
import OlinCourses.Genetic.SelectionMethods
import OlinCourses.Genetic.MinimumControllers
import OlinCourses.Input.UserInput
import OlinCourses.Input.ReadInt
import OlinCourses.Input.Stdin
import OlinCourses.Sorting.ArraySort
import OlinCourses.Sorting.Accesses
import OlinCourses.Debugging.Mystery
import OlinCourses.Debugging.AddNums
