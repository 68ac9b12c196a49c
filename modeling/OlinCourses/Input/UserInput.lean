import OlinCourses.Lib.Strtol
import OlinCourses.TicTacToe.Game

/-!
# Reading a move

`get_user_input` of `tic_tac_toe.c`: a line is read into a small buffer, and the row and the
column from the buffer. The prompt is not modelled.
-/
namespace OlinCourses.Input
open LineInput Strtol TicTacToe

def INPUT_BUFFER_SIZE : ℕ := 5

/-- What a call returns, the space as it leaves it, and the input it leaves. -/
structure UserInput where
  returned : ℕ
  space : BoardSpace
  stdin : List Byte

/-- The part of `get_user_input` that parses a line. -/
def parseSpace (inputBuffer : List Byte) (space : BoardSpace) : ℕ × BoardSpace :=
  let (row, readPos) := strtol inputBuffer
  let space := { space with row := toInt row }
  if readPos ≠ 1 then (0, space)
  else
    let (col, _) := strtol (inputBuffer.drop readPos)
    (1, { space with col := toInt col })

namespace UserInput

def flushInputLine (fuel : ℕ) (nullBuffer stdin : List Byte) : Option (List Byte) :=
  drain INPUT_BUFFER_SIZE fuel nullBuffer stdin

/-- The two buffers are uninitialised before they are read into. -/
def getUserInput (fuel : ℕ) (inputBuffer nullBuffer : List Byte) (space : BoardSpace)
    (stdin : List Byte) : Option UserInput :=
  let (inputBuffer, stdin) := fgets INPUT_BUFFER_SIZE inputBuffer stdin
  match strchr inputBuffer newline with
  | none => do
    let stdin ← flushInputLine fuel nullBuffer stdin
    return { returned := 0, space, stdin }
  | some _ =>
    let (returned, space) := parseSpace inputBuffer space
    some { returned, space, stdin }

/-- What the call makes of the line that it read. -/
def deliver (space : BoardSpace) : Option (List Byte) × List Byte → UserInput
  | (none, stdin) => { returned := 0, space, stdin }
  | (some inputBuffer, stdin) =>
    { returned := (parseSpace inputBuffer space).1
      space := (parseSpace inputBuffer space).2
      stdin }

theorem getUserInput_eq (fuel : ℕ) (inputBuffer nullBuffer : List Byte) (space : BoardSpace)
    (stdin : List Byte) : getUserInput fuel inputBuffer nullBuffer space stdin =
      (readLine INPUT_BUFFER_SIZE fuel inputBuffer nullBuffer stdin).map (deliver space) := by
  obtain ⟨⟨buffer, rest⟩, hread⟩ :
      ∃ read, fgets INPUT_BUFFER_SIZE inputBuffer stdin = read := ⟨_, rfl⟩
  rw [readLine_map, getUserInput]
  simp only [hread]
  cases strchr buffer newline with
  | none => rfl
  | some i => rfl

/-- A call takes a line off the input, and parses it if it has at most three characters. -/
theorem getUserInput_line (line : TextLine) {fuel : ℕ} (hfuel : line.text.length < fuel)
    (inputBuffer nullBuffer : List Byte) (space : BoardSpace) (rest : List Byte) :
    getUserInput fuel inputBuffer nullBuffer space (line.bytes ++ rest) =
      some (deliver space (if line.text.length < 4 then some line.bytes else none, rest)) := by
  rw [getUserInput_eq, readLine_line (by decide) line hfuel, Option.map_some]
  rfl

theorem getUserInput_of_fits (line : TextLine) (hfits : line.text.length < 4) (fuel : ℕ)
    (inputBuffer nullBuffer : List Byte) (space : BoardSpace) (rest : List Byte) :
    getUserInput fuel inputBuffer nullBuffer space (line.bytes ++ rest) =
      some (deliver space (some line.bytes, rest)) := by
  rw [getUserInput_eq, readLine_of_fits line hfits, Option.map_some]

end UserInput

/-- The character of a decimal digit. -/
def digit (d : Fin 10) : Byte := BitVec.ofNat 8 (48 + d.val)

/-- A digit, a blank and a digit. -/
def IsMove (text : List Byte) (row col : Fin 10) : Prop := text = [digit row, 32#8, digit col]

/-- The call recognises a move, delivers its space and rejects everything else. -/
def JudgesMove (line : TextLine) : Prop :=
  ∀ inputBuffer nullBuffer space rest, ∃ fuel result,
    UserInput.getUserInput fuel inputBuffer nullBuffer space (line.bytes ++ rest) = some result ∧
    (result.returned = 1 ↔ ∃ row col, IsMove line.text row col) ∧
    (∀ row col, IsMove line.text row col → result.space = ⟨row.val, col.val⟩) ∧
    (¬ (∃ row col, IsMove line.text row col) → result.returned = 0)

/-- One digit first, no further digit after it, in at most three characters, and yet no
move. -/
def RowOnly (text : List Byte) : Prop :=
  ∃ row tail, text = digit row :: tail ∧ tail.length ≤ 2 ∧
    (∀ c ∈ tail.head?, isdigit c = false) ∧ ∀ col, tail ≠ [32#8, digit col]

theorem isdigit_iff {c : Byte} : isdigit c = true ↔ ∃ d, c = digit d := by
  constructor
  · intro h
    refine ⟨⟨c.toNat - 48, digit_lt h⟩, ?_⟩
    revert c
    decide
  · rintro ⟨d, rfl⟩
    revert d
    decide

theorem toNat_digit (d : Fin 10) : (digit d).toNat - 48 = d.val := by
  revert d
  decide

/-- A single digit is read as its number. -/
theorem strtol_digit (spaces : List Byte) (hspaces : ∀ c ∈ spaces, isspace c = true) (d : Fin 10)
    (tail : List Byte) (htail : ∀ c ∈ tail.head?, isdigit c = false) :
    strtol (spaces ++ digit d :: tail) = ((d.val : ℤ), spaces.length + 1) := by
  have hread := strtol_bytes ⟨spaces, .none, [digit d], tail, hspaces, by simp,
    by simpa using isdigit_iff.mpr ⟨d, rfl⟩, htail⟩
  have hvalue : digitsValue [digit d] = d.val := by
    rw [digitsValue, List.foldl_cons, List.foldl_nil, Nat.mul_zero, Nat.zero_add, toNat_digit]
  have hclamp : clamp (d.val : ℤ) = d.val := clamp_eq (by omega) (by omega)
  refine hread.trans ?_
  change (clamp (digitsValue [digit d] : ℕ), spaces.length + 0 + 1) = _
  rw [hvalue, hclamp]

theorem toInt_digit (d : Fin 10) : toInt (d.val : ℤ) = d.val := by
  revert d
  decide

theorem parseSpace_fst (inputBuffer : List Byte) (space : BoardSpace) :
    (parseSpace inputBuffer space).1 = if (strtol inputBuffer).2 = 1 then 1 else 0 := by
  unfold parseSpace
  simp only [ne_eq, ite_not]
  split_ifs <;> rfl

/-- The space of a move. -/
theorem parseSpace_move (row col : Fin 10) (space : BoardSpace) :
    parseSpace [digit row, 32#8, digit col, newline] space = (1, ⟨row.val, col.val⟩) := by
  have hrow := strtol_digit [] (by simp) row [32#8, digit col, newline] (by simp; decide)
  have hcol := strtol_digit [32#8] (by simp; decide) col [newline] (by simp; decide)
  have hfirst : strtol [digit row, 32#8, digit col, newline] = ((row.val : ℤ), 1) := hrow
  have hsecond : strtol [32#8, digit col, newline] = ((col.val : ℤ), 2) := hcol
  simp only [parseSpace, hfirst, List.drop_succ_cons, List.drop_zero, hsecond, toInt_digit, ne_eq,
    not_true_eq_false, if_false]

theorem head?_append_newline (tail : List Byte) :
    (∀ c ∈ (tail ++ [newline]).head?, isdigit c = false) ↔ ∀ c ∈ tail.head?, isdigit c = false := by
  cases tail with
  | nil => simp [newline]; decide
  | cons c tail => simp

/-- A line is accepted if its row is a single digit, whatever follows. -/
theorem parseSpace_eq_one_iff (line : TextLine) (space : BoardSpace) :
    (parseSpace line.bytes space).1 = 1 ↔ ∃ row tail, line.text = digit row :: tail ∧
      ∀ c ∈ tail.head?, isdigit c = false := by
  have hone : (parseSpace line.bytes space).1 = 1 ↔ (strtol line.bytes).2 = 1 := by
    rw [parseSpace_fst]
    split_ifs with hread <;> simp [hread]
  rw [hone, strtol_snd_eq_one_iff, TextLine.bytes]
  constructor
  · rintro ⟨c, tail, hbytes, hc, htail⟩
    cases htext : line.text with
    | nil =>
      rw [htext, List.nil_append, List.cons.injEq] at hbytes
      rw [← hbytes.1] at hc
      cases hc
    | cons c' text =>
      rw [htext, List.cons_append, List.cons.injEq] at hbytes
      obtain ⟨rfl, rfl⟩ := hbytes
      obtain ⟨row, rfl⟩ := isdigit_iff.mp hc
      exact ⟨row, text, rfl, (head?_append_newline text).mp htail⟩
  · rintro ⟨row, tail, htext, htail⟩
    refine ⟨digit row, tail ++ [newline], by rw [htext, List.cons_append],
      isdigit_iff.mpr ⟨row, rfl⟩, (head?_append_newline tail).mpr htail⟩

theorem IsMove.length {text : List Byte} {row col : Fin 10} (h : IsMove text row col) :
    text.length = 3 := by
  rw [h]
  rfl

theorem parseSpace_isMove {line : TextLine} {row col : Fin 10} (h : IsMove line.text row col)
    (space : BoardSpace) : parseSpace line.bytes space = (1, ⟨row.val, col.val⟩) := by
  rw [TextLine.bytes, h]
  exact parseSpace_move row col space

/-- Of the lines that fit, those accepted are the moves and those with a row only. -/
theorem parseSpace_eq_one_iff_isMove {line : TextLine} (hfits : line.text.length < 4)
    (hrow : ¬ RowOnly line.text) (space : BoardSpace) :
    (parseSpace line.bytes space).1 = 1 ↔ ∃ row col, IsMove line.text row col := by
  constructor
  · intro hone
    obtain ⟨row, tail, htext, hhead⟩ := (parseSpace_eq_one_iff line space).mp hone
    by_contra hnot
    refine hrow ⟨row, tail, htext, ?_, hhead, ?_⟩
    · rw [htext, List.length_cons] at hfits
      omega
    · rintro col rfl
      exact hnot ⟨row, col, htext⟩
  · rintro ⟨row, col, hmove⟩
    rw [parseSpace_isMove hmove]

/-- A line with a row only is accepted. -/
theorem not_judgesMove_of_rowOnly {line : TextLine} (h : RowOnly line.text) :
    ¬ JudgesMove line := by
  obtain ⟨row, tail, htext, hlength, hhead, hnot⟩ := h
  intro hjudges
  have hfits : line.text.length < 4 := by
    rw [htext, List.length_cons]
    omega
  have hmove : ¬ ∃ row col, IsMove line.text row col := by
    rintro ⟨row', col, hmove⟩
    rw [IsMove, htext, List.cons.injEq] at hmove
    exact hnot col hmove.2
  obtain ⟨fuel, result, hrun, -, -, hzero⟩ := hjudges [] [] ⟨0, 0⟩ []
  rw [UserInput.getUserInput_of_fits line hfits, Option.some_inj] at hrun
  have hreturned : result.returned = 1 := by
    rw [← hrun]
    exact (parseSpace_eq_one_iff line _).mpr ⟨row, tail, htext, hhead⟩
  rw [hzero hmove] at hreturned
  cases hreturned

/-- Moves are judged right exactly where no line is accepted for its row alone. -/
theorem judgesMove_iff (line : TextLine) : JudgesMove line ↔ ¬ RowOnly line.text := by
  constructor
  · exact fun hjudges hrow => not_judgesMove_of_rowOnly hrow hjudges
  · intro hrow inputBuffer nullBuffer space rest
    refine ⟨line.text.length + 1, _, UserInput.getUserInput_line line (Nat.lt_succ_self _)
      inputBuffer nullBuffer space rest, ?_⟩
    by_cases hfits : line.text.length < 4
    · rw [if_pos hfits]
      have hiff := parseSpace_eq_one_iff_isMove hfits hrow space
      refine ⟨hiff, fun row col h => congrArg Prod.snd (parseSpace_isMove h space), fun hnot => ?_⟩
      have hne := mt hiff.mp hnot
      rw [parseSpace_fst] at hne
      exact (parseSpace_fst _ _).trans (if_neg fun hread => hne (if_pos hread))
    · rw [if_neg hfits]
      have hmove : ∀ row col, ¬ IsMove line.text row col := by
        intro row col h
        rw [h.length] at hfits
        omega
      refine ⟨⟨fun hone => ?_, ?_⟩, fun row col h => absurd h (hmove row col), fun _ => rfl⟩
      · cases hone
      · rintro ⟨row, col, h⟩
        exact absurd h (hmove row col)

/-- The line `1` has no column. -/
theorem not_judgesMove_one : ¬ JudgesMove ⟨[49#8], by decide, by decide⟩ :=
  not_judgesMove_of_rowOnly ⟨⟨1, by decide⟩, [], rfl, by decide, nofun, fun col => nofun⟩

end OlinCourses.Input
