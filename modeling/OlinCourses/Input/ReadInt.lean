import OlinCourses.Lib.Strtol

/-!
# Reading a small integer

`read_int` of `read_int_correct.c`. The digits end where they end: what follows them in the
line is ignored, as is white space before them.
-/
namespace OlinCourses.Input
open LineInput Strtol

def BUFFER_SIZE : ℕ := 5

/-- What a call returns, the output as it leaves it, and the input it leaves. -/
structure ReadInt where
  returned : ℕ
  output : ℤ
  stdin : List Byte

namespace ReadInt

def flushInputLine (fuel : ℕ) (nullBuffer stdin : List Byte) : Option (List Byte) :=
  drain BUFFER_SIZE fuel nullBuffer stdin

/-- The two buffers are uninitialised before they are read into. -/
def readInt (fuel : ℕ) (buffer nullBuffer : List Byte) (output : ℤ) (stdin : List Byte) :
    Option ReadInt :=
  let (buffer, stdin) := fgets BUFFER_SIZE buffer stdin
  match strchr buffer newline with
  | none => do
    let stdin ← flushInputLine fuel nullBuffer stdin
    return { returned := 0, output, stdin }
  | some _ =>
    let output := toInt (strtol buffer).1
    some { returned := if output ≠ 0 ∧ output > -100 ∧ output < 1000 then 1 else 0, output, stdin }

/-- What the call makes of the line that it read. -/
def deliver (output : ℤ) : Option (List Byte) × List Byte → ReadInt
  | (none, stdin) => { returned := 0, output, stdin }
  | (some buffer, stdin) =>
    { returned := if toInt (strtol buffer).1 ≠ 0 ∧ toInt (strtol buffer).1 > -100 ∧
        toInt (strtol buffer).1 < 1000 then 1 else 0
      output := toInt (strtol buffer).1
      stdin }

theorem readInt_eq (fuel : ℕ) (buffer nullBuffer : List Byte) (output : ℤ) (stdin : List Byte) :
    readInt fuel buffer nullBuffer output stdin =
      (readLine BUFFER_SIZE fuel buffer nullBuffer stdin).map (deliver output) := by
  rw [readLine_map]
  rfl

/-- A call takes a line off the input, and parses it if it has at most three characters. -/
theorem readInt_line (line : TextLine) {fuel : ℕ} (hfuel : line.text.length < fuel)
    (buffer nullBuffer : List Byte) (output : ℤ) (rest : List Byte) :
    readInt fuel buffer nullBuffer output (line.bytes ++ rest) =
      some (deliver output (if line.text.length < 4 then some line.bytes else none, rest)) := by
  rw [readInt_eq, readLine_line (by decide) line hfuel, Option.map_some]
  rfl

theorem readInt_of_fits (line : TextLine) (hfits : line.text.length < 4) (fuel : ℕ)
    (buffer nullBuffer : List Byte) (output : ℤ) (rest : List Byte) :
    readInt fuel buffer nullBuffer output (line.bytes ++ rest) =
      some (deliver output (some line.bytes, rest)) := by
  rw [readInt_eq, readLine_of_fits line hfits, Option.map_some]

end ReadInt

/-- In three characters there is room for -99 to 999. -/
theorem value_bounds {n : Numeral} (h : n.bytes.length ≤ 3) : -99 ≤ n.value ∧ n.value ≤ 999 := by
  have hlt := digitsValue_lt n.digits n.digits_digit
  have hlength :
      n.spaces.length + (n.sign.bytes.length + (n.digits.length + n.rest.length)) ≤ 3 := by
    simpa [Numeral.bytes] using h
  have hpow : ∀ k, n.digits.length ≤ k → digitsValue n.digits < 10 ^ k := fun k hk =>
    hlt.trans_le (Nat.pow_le_pow_right (by decide) hk)
  have hthree := hpow 3 (by omega)
  rw [Numeral.value]
  cases hsign : n.sign with
  | none =>
    rw [Sign.apply]
    omega
  | plus =>
    rw [Sign.apply]
    omega
  | minus =>
    have htwo := hpow 2 (by rw [hsign, Sign.bytes, List.length_singleton] at hlength; omega)
    rw [Sign.apply]
    omega

/-- The number that a line which fits is read as. -/
theorem strtol_line {line : TextLine} {n : Numeral} (hfits : line.text.length < 4)
    (h : n.bytes = line.text) : toInt (strtol line.bytes).1 = n.value := by
  obtain ⟨hlow, hhigh⟩ := value_bounds (n := n) (by rw [h]; omega)
  have hclamp : clamp n.value = n.value := clamp_eq (by omega) (by omega)
  rw [TextLine.bytes, ← h, strtol_append n (by decide), hclamp, toInt,
    Int.bmod_eq_of_le (by omega) (by omega)]

/-- A line that is read as another number than zero begins with a numeral. -/
theorem exists_numeral_of_ne_zero {line : TextLine} (h : toInt (strtol line.bytes).1 ≠ 0) :
    ∃ n : Numeral, n.bytes = line.text := by
  obtain ⟨n, hn⟩ | hnone := exists_numeral_or line.bytes
  · obtain ⟨n', hn', -⟩ := n.exists_dropLast (show isdigit newline = false by decide) hn
    exact ⟨n', hn'⟩
  · rw [hnone] at h
    exact absurd rfl h

/-- Of the lines that fit, those accepted begin with a numeral of a number other than zero. -/
theorem returned_eq_one_iff {line : TextLine} (hfits : line.text.length < 4) (output : ℤ)
    (rest : List Byte) : (ReadInt.deliver output (some line.bytes, rest)).returned = 1 ↔
      ∃ n : Numeral, n.bytes = line.text ∧ n.value ≠ 0 := by
  have htest : (ReadInt.deliver output (some line.bytes, rest)).returned = 1 ↔
      toInt (strtol line.bytes).1 ≠ 0 ∧ toInt (strtol line.bytes).1 > -100 ∧
        toInt (strtol line.bytes).1 < 1000 := by
    rw [ReadInt.deliver]
    split_ifs with htest <;> simp [htest]
  rw [htest]
  constructor
  · rintro ⟨hne, -, -⟩
    obtain ⟨n, hn⟩ := exists_numeral_of_ne_zero hne
    exact ⟨n, hn, strtol_line hfits hn ▸ hne⟩
  · rintro ⟨n, hn, hne⟩
    obtain ⟨hlow, hhigh⟩ := value_bounds (n := n) (by rw [hn]; omega)
    rw [strtol_line hfits hn]
    exact ⟨hne, by omega, by omega⟩

/-- A line is accepted exactly if it has at most three characters and begins, after white space,
with a numeral of a number other than zero. The output is then this number, which lies between
-99 and 999. -/
theorem readInt_accepts (line : TextLine) (buffer nullBuffer : List Byte) (output : ℤ)
    (rest : List Byte) : ∃ fuel result,
      ReadInt.readInt fuel buffer nullBuffer output (line.bytes ++ rest) = some result ∧
      (result.returned = 1 ↔
        line.text.length ≤ 3 ∧ ∃ n : Numeral, n.bytes = line.text ∧ n.value ≠ 0) ∧
      (result.returned = 1 → ∀ n : Numeral, n.bytes = line.text →
        result.output = n.value ∧ -99 ≤ n.value ∧ n.value ≤ 999) := by
  refine ⟨line.text.length + 1, _, ReadInt.readInt_line line (Nat.lt_succ_self _) buffer nullBuffer
    output rest, ?_⟩
  by_cases hfits : line.text.length < 4
  · rw [if_pos hfits, returned_eq_one_iff hfits]
    refine ⟨⟨fun h => ⟨by omega, h⟩, And.right⟩, fun _ n hn => ?_⟩
    exact ⟨strtol_line hfits hn, value_bounds (by rw [hn]; omega)⟩
  · rw [if_neg hfits]
    refine ⟨⟨fun h => ?_, fun h => absurd h.1 (by omega)⟩, fun h => ?_⟩
    all_goals cases h

/-- Up to three characters that are a numeral of `v`, which is not zero and between -99 and
999. -/
def IsSmallInt (text : List Byte) (v : ℤ) : Prop :=
  text.length ≤ 3 ∧ v ≠ 0 ∧ -99 ≤ v ∧ v ≤ 999 ∧
    ∃ n : Numeral, n.spaces = [] ∧ n.rest = [] ∧ n.bytes = text ∧ n.value = v

def AcceptsSmallInts (line : TextLine) : Prop :=
  ∀ buffer nullBuffer output rest, ∃ fuel result,
    ReadInt.readInt fuel buffer nullBuffer output (line.bytes ++ rest) = some result ∧
    (result.returned = 1 ↔ ∃ v, IsSmallInt line.text v) ∧
    ∀ v, IsSmallInt line.text v → result.output = v

/-- The line `5a` is read as 5. -/
theorem not_acceptsSmallInts : ¬ AcceptsSmallInts ⟨[53#8, 97#8], by decide, by decide⟩ := by
  intro haccepts
  obtain ⟨fuel, result, hrun, hiff, -⟩ := haccepts [] [] 0 []
  rw [ReadInt.readInt_of_fits _ (by decide), Option.some_inj] at hrun
  have hreturned : result.returned = 1 := by
    rw [← hrun]
    decide
  obtain ⟨v, -, -, -, -, n, -, hrest, hbytes, -⟩ := hiff.mp hreturned
  have hlast : isdigit 97#8 = true := n.isdigit_of_rest_eq_nil hrest (by rw [hbytes]; rfl)
  cases hlast

end OlinCourses.Input
