import OlinCourses.Input.ReadInt
import OlinCourses.Input.UserInput
import OlinCourses.Lib.Transition

/-!
# Calls on standard input

`get_user_input` and `read_int` as consumers of their input: when a call returns, and what
successive calls take off the input.
-/
namespace OlinCourses.Input
open LineInput TicTacToe Transition

def Returns {α : Type*} (call : ℕ → Option α) : Prop := ∃ fuel result, call fuel = some result

theorem returns_map_iff {α β : Type*} (f : α → β) {call : ℕ → Option α} :
    Returns (fun fuel => (call fuel).map f) ↔ Returns call := by
  constructor
  · rintro ⟨fuel, result, hresult⟩
    obtain ⟨value, hvalue, -⟩ := Option.map_eq_some_iff.mp hresult
    exact ⟨fuel, value, hvalue⟩
  · rintro ⟨fuel, value, hvalue⟩
    exact ⟨fuel, f value, Option.map_eq_some_iff.mpr ⟨value, hvalue, rfl⟩⟩

/-- Both functions return exactly if a newline is still to come, or an uninitialised buffer
happens to show one at the end of the input. -/
theorem returns_iff (inputBuffer nullBuffer stdin : List Byte) (space : BoardSpace) (output : ℤ) :
    (Returns (UserInput.getUserInput · inputBuffer nullBuffer space stdin) ↔
      NewlineAhead INPUT_BUFFER_SIZE inputBuffer nullBuffer stdin) ∧
    (Returns (ReadInt.readInt · inputBuffer nullBuffer output stdin) ↔
      NewlineAhead BUFFER_SIZE inputBuffer nullBuffer stdin) := by
  simp only [UserInput.getUserInput_eq, ReadInt.readInt_eq, returns_map_iff]
  exact ⟨readLine_returns_iff (by decide) _ _ _, readLine_returns_iff (by decide) _ _ _⟩

/-- The input `5` without a newline. -/
theorem not_returns_unterminated :
    ¬ Returns (UserInput.getUserInput · [] [] ⟨0, 0⟩ [53#8]) ∧
    ¬ Returns (ReadInt.readInt · [] [] 0 [53#8]) := by
  have hnone : ¬ NewlineAhead 5 [] [] [53#8] := by
    rw [newlineAhead_iff_mem (by decide) (by decide) (by decide) (by decide)]
    decide
  simp only [UserInput.getUserInput_eq, ReadInt.readInt_eq, returns_map_iff]
  exact ⟨mt (readLine_returns_iff (by decide) _ _ _).mp hnone,
    mt (readLine_returns_iff (by decide) _ _ _).mp hnone⟩

/-- A call of either function, with what is in its uninitialised variables. -/
inductive Call
  | getUserInput (inputBuffer nullBuffer : List Byte) (space : BoardSpace)
  | readInt (buffer nullBuffer : List Byte) (output : ℤ)

/-- The input that a call leaves. -/
def Call.consume (fuel : ℕ) (stdin : List Byte) : Call → Option (List Byte)
  | getUserInput inputBuffer nullBuffer space =>
    (UserInput.getUserInput fuel inputBuffer nullBuffer space stdin).map (·.stdin)
  | readInt buffer nullBuffer output =>
    (ReadInt.readInt fuel buffer nullBuffer output stdin).map (·.stdin)

/-- The bytes of lines in sequence. -/
def linesBytes (lines : List TextLine) : List Byte := lines.flatMap TextLine.bytes

theorem consume_line (call : Call) (line : TextLine) {fuel : ℕ}
    (hfuel : line.text.length < fuel) (rest : List Byte) :
    call.consume fuel (line.bytes ++ rest) = some rest := by
  cases call with
  | getUserInput inputBuffer nullBuffer space =>
    rw [Call.consume, UserInput.getUserInput_line line hfuel]
    split_ifs <;> rfl
  | readInt buffer nullBuffer output =>
    rw [Call.consume, ReadInt.readInt_line line hfuel]
    split_ifs <;> rfl

/-- As many calls as lines take exactly these lines off the input. -/
theorem run_lines (calls : ℕ → Call) {fuel : ℕ} (lines : List TextLine)
    (hfuel : ∀ line ∈ lines, line.text.length < fuel) (rest : List Byte) (start : ℕ) :
    run (fun stdin k => (calls k).consume fuel stdin) (linesBytes lines ++ rest)
      (List.range' start lines.length) = some rest := by
  induction lines generalizing start with
  | nil => rfl
  | cons line lines ih =>
    have hfirst := hfuel line List.mem_cons_self
    have hrest := ih (fun line' hline' => hfuel line' (List.mem_cons_of_mem line hline'))
      (start + 1)
    rw [linesBytes, List.flatMap_cons, ← linesBytes, List.append_assoc, List.length_cons,
      List.range'_succ, run_cons, consume_line _ line hfirst, Option.bind_some, hrest]

theorem exists_fuel (lines : List TextLine) : ∃ fuel, ∀ line ∈ lines, line.text.length < fuel := by
  refine ⟨(lines.map fun line => line.text.length).sum + 1, fun line hline => ?_⟩
  exact Nat.lt_succ_of_le (List.single_le_sum (by simp) _ (List.mem_map_of_mem hline))

/-- The calls before leave the input at the line, and the next call takes this line. -/
theorem call_consumes_line (calls : ℕ → Call) (before : List TextLine) (line : TextLine)
    (after : List TextLine) (rest : List Byte) : ∃ fuel,
      run (fun stdin k => (calls k).consume fuel stdin)
          (linesBytes (before ++ line :: after) ++ rest) (List.range before.length) =
        some (line.bytes ++ (linesBytes after ++ rest)) ∧
      (calls before.length).consume fuel (line.bytes ++ (linesBytes after ++ rest)) =
        some (linesBytes after ++ rest) := by
  obtain ⟨fuel, hfuel⟩ := exists_fuel (line :: before)
  have hsplit : linesBytes (before ++ line :: after) ++ rest =
      linesBytes before ++ (line.bytes ++ (linesBytes after ++ rest)) := by
    simp only [linesBytes, List.flatMap_append, List.flatMap_cons, List.append_assoc]
  refine ⟨fuel, ?_, consume_line _ line (hfuel line List.mem_cons_self) _⟩
  rw [hsplit, List.range_eq_range']
  exact run_lines calls before (fun l hl => hfuel l (List.mem_cons_of_mem line hl)) _ 0

end OlinCourses.Input
