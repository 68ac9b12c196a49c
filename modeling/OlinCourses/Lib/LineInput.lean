import Mathlib.Data.List.TakeWhile
import Mathlib.Tactic
import OlinCourses.Lib.Loop

/-!
# Reading lines into a buffer

`fgets` on a buffer of fixed size, the loop that discards the rest of a line that did not
fit, and what of the input both consume. A buffer is the list of bytes from its start, with a
NUL after them; what an uninitialised one holds is arbitrary.
-/
namespace OlinCourses.LineInput
open Loop

abbrev Byte := BitVec 8

def newline : Byte := 10#8

/-- The white-space characters of the C locale. -/
def isspace (c : Byte) : Bool := c = 32#8 || (9#8 ≤ c && c ≤ 13#8)

/-- The string in a buffer ends at the first NUL. -/
def cString (buffer : List Byte) : List Byte := buffer.takeWhile (· ≠ 0#8)

/-- The position of a character in the string; `none` is `NULL`. -/
def strchr (buffer : List Byte) (c : Byte) : Option ℕ := (cString buffer).findIdx? (· = c)

/-- At most `n` bytes, up to and including the first newline. -/
def chunk : ℕ → List Byte → List Byte
  | 0, _ => []
  | _ + 1, [] => []
  | n + 1, c :: cs => if c = newline then [c] else c :: chunk n cs

/-- The buffer and the remaining input after `fgets`; at the end of the input the buffer stays
as it is. -/
def fgets (size : ℕ) (buffer stdin : List Byte) : List Byte × List Byte :=
  if stdin = [] then (buffer, [])
  else (chunk (size - 1) stdin, stdin.drop (chunk (size - 1) stdin).length)

/-- Read a chunk, and leave the loop if the newline shows up in the buffer. -/
def drainRound (size : ℕ) : List Byte × List Byte →
    Option ((List Byte × List Byte) ⊕ List Byte)
  | (buffer, stdin) =>
    let (buffer, stdin) := fgets size buffer stdin
    match strchr buffer newline with
    | none => some (.inl (buffer, stdin))
    | some _ => some (.inr stdin)

/-- The remaining input after the loop; `none` if it takes more than `fuel` rounds. -/
def drain (size fuel : ℕ) (buffer stdin : List Byte) : Option (List Byte) :=
  loop (drainRound size) fuel (buffer, stdin)

/-- Read into a buffer; where the newline does not show up, discard a line with a second
buffer. The string is `none` then. -/
def readLine (size fuel : ℕ) (buffer nullBuffer stdin : List Byte) :
    Option (Option (List Byte) × List Byte) :=
  let (buffer, stdin) := fgets size buffer stdin
  match strchr buffer newline with
  | none => (drain size fuel nullBuffer stdin).map fun stdin => (none, stdin)
  | some _ => some (some buffer, stdin)

theorem strchr_eq_none_iff {buffer : List Byte} {c : Byte} :
    strchr buffer c = none ↔ c ∉ cString buffer := by
  rw [strchr, List.findIdx?_eq_none_iff]
  simp only [decide_eq_false_iff_not]
  constructor
  · exact fun h hc => h c hc rfl
  · rintro h x hx rfl
    exact h hx

theorem mem_of_strchr {buffer : List Byte} {c : Byte} {i : ℕ} (h : strchr buffer c = some i) :
    c ∈ cString buffer := by
  by_contra hnot
  rw [strchr_eq_none_iff.mpr hnot] at h
  cases h

theorem cString_of_notMem {buffer : List Byte} (h : 0#8 ∉ buffer) : cString buffer = buffer := by
  rw [cString, List.takeWhile_eq_self_iff]
  intro c hc
  simpa using fun heq : c = 0#8 => h (heq ▸ hc)

theorem prefix_chunk (n : ℕ) (stdin : List Byte) : chunk n stdin <+: stdin := by
  induction n generalizing stdin with
  | zero => exact List.nil_prefix
  | succ n ih =>
    cases stdin with
    | nil => exact List.nil_prefix
    | cons c cs =>
      rw [chunk]
      split_ifs
      · exact List.prefix_append [c] cs
      · exact (List.prefix_cons_inj c).mpr (ih cs)

theorem chunk_ne_nil {n : ℕ} (hn : 0 < n) {stdin : List Byte} (h : stdin ≠ []) :
    chunk n stdin ≠ [] := by
  obtain ⟨n, rfl⟩ := Nat.exists_eq_add_one_of_ne_zero hn.ne'
  obtain ⟨c, cs, rfl⟩ := List.exists_cons_of_ne_nil h
  rw [chunk]
  split_ifs <;> exact List.cons_ne_nil _ _

/-- What a chunk of a line is: all of it if there is room for the newline too. -/
theorem chunk_line {text : List Byte} (h : newline ∉ text) (n : ℕ) (rest : List Byte) :
    chunk n (text ++ newline :: rest) =
      if text.length < n then text ++ [newline] else text.take n := by
  induction text generalizing n with
  | nil => cases n <;> simp [chunk]
  | cons c text ih =>
    cases n with
    | zero => simp [chunk]
    | succ n =>
      rw [List.mem_cons, not_or] at h
      simp only [List.cons_append, chunk, if_neg (Ne.symm h.1), ih h.2, List.length_cons,
        Nat.add_lt_add_iff_right, List.take_succ_cons]
      split_ifs <;> rfl

theorem chunk_of_notMem {text : List Byte} (h : newline ∉ text) (n : ℕ) :
    chunk n text = text.take n := by
  induction text generalizing n with
  | nil => cases n <;> rfl
  | cons c text ih =>
    cases n with
    | zero => rfl
    | succ n =>
      rw [List.mem_cons, not_or] at h
      rw [chunk, if_neg (Ne.symm h.1), ih h.2, List.take_succ_cons]

/-- The pieces that successive calls of `fgets` read. -/
def pieces (size : ℕ) (stdin : List Byte) : List (List Byte) :=
  if chunk (size - 1) stdin = [] then []
  else chunk (size - 1) stdin :: pieces size (stdin.drop (chunk (size - 1) stdin).length)
termination_by stdin.length
decreasing_by
  rename_i hne
  have hpos := List.length_pos_iff.mpr hne
  have hle := (prefix_chunk (size - 1) stdin).length_le
  rw [List.length_drop]
  omega

theorem pieces_nil (size : ℕ) : pieces size [] = [] := by
  rw [pieces, if_pos (by cases size - 1 <;> rfl)]

theorem pieces_of_ne_nil {size : ℕ} (hsize : 2 ≤ size) {stdin : List Byte} (h : stdin ≠ []) :
    pieces size stdin = chunk (size - 1) stdin ::
      pieces size (stdin.drop (chunk (size - 1) stdin).length) := by
  rw [pieces, if_neg (chunk_ne_nil (by omega) h)]

/-- Some piece shows a newline. -/
def ShowsNewline (size : ℕ) (stdin : List Byte) : Prop :=
  ∃ piece ∈ pieces size stdin, newline ∈ cString piece

theorem not_showsNewline_nil (size : ℕ) : ¬ ShowsNewline size [] := by
  simp [ShowsNewline, pieces_nil]

theorem showsNewline_iff {size : ℕ} (hsize : 2 ≤ size) {stdin : List Byte} (h : stdin ≠ []) :
    ShowsNewline size stdin ↔ newline ∈ cString (chunk (size - 1) stdin) ∨
      ShowsNewline size (stdin.drop (chunk (size - 1) stdin).length) := by
  rw [ShowsNewline, pieces_of_ne_nil hsize h, List.exists_mem_cons_iff, ShowsNewline]

theorem drain_succ (size fuel : ℕ) (buffer stdin : List Byte) :
    drain size (fuel + 1) buffer stdin =
      if newline ∈ cString (fgets size buffer stdin).1 then some (fgets size buffer stdin).2
      else drain size fuel (fgets size buffer stdin).1 (fgets size buffer stdin).2 := by
  rw [drain, loop, drainRound]
  cases hfound : strchr (fgets size buffer stdin).1 newline with
  | none =>
    rw [if_neg (strchr_eq_none_iff.mp hfound)]
    simp only [hfound]
    rfl
  | some i =>
    rw [if_pos (mem_of_strchr hfound)]
    simp only [hfound]
    rfl

theorem showsNewline_of_drain {size : ℕ} (hsize : 2 ≤ size) {fuel : ℕ}
    {buffer stdin rest : List Byte} (hdrain : drain size fuel buffer stdin = some rest) :
    ShowsNewline size stdin ∨ (stdin = [] ∧ newline ∈ cString buffer) := by
  induction fuel generalizing buffer stdin with
  | zero => cases hdrain
  | succ fuel ih =>
    rw [drain_succ] at hdrain
    by_cases hnil : stdin = []
    · rw [fgets, if_pos hnil] at hdrain
      by_cases hmem : newline ∈ cString buffer
      · exact Or.inr ⟨hnil, hmem⟩
      · rw [if_neg hmem] at hdrain
        exact Or.inr ⟨hnil, ((ih hdrain).resolve_left (not_showsNewline_nil size)).2⟩
    · rw [fgets, if_neg hnil] at hdrain
      rw [showsNewline_iff hsize hnil]
      by_cases hmem : newline ∈ cString (chunk (size - 1) stdin)
      · exact Or.inl (Or.inl hmem)
      · rw [if_neg hmem] at hdrain
        obtain hlater | ⟨-, hstale⟩ := ih hdrain
        · exact Or.inl (Or.inr hlater)
        · exact absurd hstale hmem

theorem exists_drain {size : ℕ} (hsize : 2 ≤ size) (buffer : List Byte) {stdin : List Byte}
    (hshows : ShowsNewline size stdin) : ∃ fuel rest, drain size fuel buffer stdin = some rest := by
  induction hlen : stdin.length using Nat.strong_induction_on generalizing buffer stdin with
  | _ n ih =>
    have hnil : stdin ≠ [] := by
      rintro rfl
      exact not_showsNewline_nil size hshows
    have hpos := List.length_pos_iff.mpr (chunk_ne_nil (n := size - 1) (by omega) hnil)
    have hle := (prefix_chunk (size - 1) stdin).length_le
    by_cases hmem : newline ∈ cString (chunk (size - 1) stdin)
    · exact ⟨1, _, by rw [drain_succ, fgets, if_neg hnil, if_pos hmem]⟩
    · have hlater := ((showsNewline_iff hsize hnil).mp hshows).resolve_left hmem
      obtain ⟨fuel, rest, hdrain⟩ := ih _ (by rw [List.length_drop, ← hlen]; omega)
        (chunk (size - 1) stdin) hlater rfl
      exact ⟨fuel + 1, rest, by rw [drain_succ, fgets, if_neg hnil, if_neg hmem, hdrain]⟩

/-- The loop ends at a piece that shows a newline, or at the end of the input if the buffer
happens to hold one. -/
theorem drain_returns_iff {size : ℕ} (hsize : 2 ≤ size) (buffer stdin : List Byte) :
    (∃ fuel rest, drain size fuel buffer stdin = some rest) ↔
      ShowsNewline size stdin ∨ (stdin = [] ∧ newline ∈ cString buffer) := by
  constructor
  · rintro ⟨fuel, rest, hdrain⟩
    exact showsNewline_of_drain hsize hdrain
  · rintro (hshows | ⟨rfl, hmem⟩)
    · exact exists_drain hsize buffer hshows
    · exact ⟨1, [], by rw [drain_succ, fgets, if_pos rfl, if_pos hmem]⟩

/-- What keeps a read of a line from waiting forever: a newline to come, or one that an
uninitialised buffer shows when the input is used up. -/
def NewlineAhead (size : ℕ) (buffer nullBuffer stdin : List Byte) : Prop :=
  ShowsNewline size stdin ∨ (stdin = [] ∧ newline ∈ cString buffer) ∨
    ((pieces size stdin).length ≤ 1 ∧ newline ∈ cString nullBuffer)

theorem readLine_eq (size fuel : ℕ) (buffer nullBuffer stdin : List Byte) :
    readLine size fuel buffer nullBuffer stdin =
      if newline ∈ cString (fgets size buffer stdin).1 then
        some (some (fgets size buffer stdin).1, (fgets size buffer stdin).2)
      else (drain size fuel nullBuffer (fgets size buffer stdin).2).map fun stdin =>
        (none, stdin) := by
  have hunfold : readLine size fuel buffer nullBuffer stdin =
      match strchr (fgets size buffer stdin).1 newline with
      | none => (drain size fuel nullBuffer (fgets size buffer stdin).2).map fun stdin =>
          (none, stdin)
      | some _ => some (some (fgets size buffer stdin).1, (fgets size buffer stdin).2) := rfl
  rw [hunfold]
  cases hfound : strchr (fgets size buffer stdin).1 newline with
  | none => rw [if_neg (strchr_eq_none_iff.mp hfound)]
  | some i => rw [if_pos (mem_of_strchr hfound)]

/-- What a caller makes of a line, written as the two outcomes of the first read. -/
theorem readLine_map {β : Type*} (deliver : Option (List Byte) × List Byte → β) (size fuel : ℕ)
    (buffer nullBuffer stdin : List Byte) :
    (readLine size fuel buffer nullBuffer stdin).map deliver =
      match strchr (fgets size buffer stdin).1 newline with
      | none => (drain size fuel nullBuffer (fgets size buffer stdin).2).bind fun stdin =>
          some (deliver (none, stdin))
      | some _ =>
        some (deliver (some (fgets size buffer stdin).1, (fgets size buffer stdin).2)) := by
  unfold readLine
  cases hfound : strchr (fgets size buffer stdin).1 newline with
  | none =>
    simp only [hfound]
    cases drain size fuel nullBuffer (fgets size buffer stdin).2 with
    | none => rfl
    | some stdin => rfl
  | some i =>
    simp only [hfound]
    rfl

theorem pieces_length_le_one_iff {size : ℕ} (hsize : 2 ≤ size) {stdin : List Byte}
    (h : stdin ≠ []) :
    (pieces size stdin).length ≤ 1 ↔ stdin.drop (chunk (size - 1) stdin).length = [] := by
  rw [pieces_of_ne_nil hsize h, List.length_cons]
  by_cases hrest : stdin.drop (chunk (size - 1) stdin).length = []
  · simp [hrest, pieces_nil]
  · simp [hrest, pieces_of_ne_nil hsize hrest]

theorem readLine_returns_iff {size : ℕ} (hsize : 2 ≤ size) (buffer nullBuffer stdin : List Byte) :
    (∃ fuel result, readLine size fuel buffer nullBuffer stdin = some result) ↔
      NewlineAhead size buffer nullBuffer stdin := by
  have hdrain : ∀ stdin', (∃ fuel result, (drain size fuel nullBuffer stdin').map (fun stdin =>
      ((none : Option (List Byte)), stdin)) = some result) ↔
      ShowsNewline size stdin' ∨ (stdin' = [] ∧ newline ∈ cString nullBuffer) := by
    intro stdin'
    rw [← drain_returns_iff hsize]
    constructor
    · rintro ⟨fuel, result, hresult⟩
      obtain ⟨rest, hrest, -⟩ := Option.map_eq_some_iff.mp hresult
      exact ⟨fuel, rest, hrest⟩
    · rintro ⟨fuel, rest, hrest⟩
      exact ⟨fuel, (none, rest), by rw [hrest, Option.map_some]⟩
  simp only [readLine_eq, NewlineAhead]
  by_cases hnil : stdin = []
  · subst hnil
    have hfgets : fgets size buffer [] = (buffer, []) := rfl
    simp only [hfgets]
    by_cases hmem : newline ∈ cString buffer
    · simp [hmem]
    · simp only [hmem, if_false, hdrain, pieces_nil]
      simp
  · simp only [fgets, if_neg hnil, showsNewline_iff hsize hnil, pieces_length_le_one_iff hsize hnil]
    by_cases hmem : newline ∈ cString (chunk (size - 1) stdin)
    · simp [hmem]
    · simp only [hmem, if_false, hdrain, hnil, false_and, false_or]

/-- Without NULs a newline shows up exactly if there is one. -/
theorem showsNewline_iff_mem {size : ℕ} (hsize : 2 ≤ size) {stdin : List Byte}
    (hnul : 0#8 ∉ stdin) : ShowsNewline size stdin ↔ newline ∈ stdin := by
  induction hlen : stdin.length using Nat.strong_induction_on generalizing stdin with
  | _ n ih =>
    by_cases hnil : stdin = []
    · simp [hnil, not_showsNewline_nil]
    · have hpos := List.length_pos_iff.mpr (chunk_ne_nil (n := size - 1) (by omega) hnil)
      have hsplit := List.prefix_append_drop (prefix_chunk (size - 1) stdin)
      have hmem : ∀ c, c ∈ stdin ↔ c ∈ chunk (size - 1) stdin ∨
          c ∈ stdin.drop (chunk (size - 1) stdin).length := by
        intro c
        conv_lhs => rw [hsplit]
        rw [List.mem_append]
      rw [hmem, not_or] at hnul
      have hle := (prefix_chunk (size - 1) stdin).length_le
      rw [showsNewline_iff hsize hnil, cString_of_notMem hnul.1,
        ih _ (by rw [List.length_drop]; omega) hnul.2 rfl, hmem]

theorem newlineAhead_iff_mem {size : ℕ} (hsize : 2 ≤ size) {stdin : List Byte}
    (hnul : 0#8 ∉ stdin) (hne : stdin ≠ []) {nullBuffer : List Byte}
    (hnull : newline ∉ cString nullBuffer) (buffer : List Byte) :
    NewlineAhead size buffer nullBuffer stdin ↔ newline ∈ stdin := by
  rw [NewlineAhead, showsNewline_iff_mem hsize hnul]
  simp [hne, hnull]

/-- A line of text, without its newline. -/
structure TextLine where
  text : List Byte
  noNul : 0#8 ∉ text
  noNewline : newline ∉ text

def TextLine.bytes (line : TextLine) : List Byte := line.text ++ [newline]

theorem TextLine.bytes_append (line : TextLine) (rest : List Byte) :
    line.bytes ++ rest = line.text ++ newline :: rest := by
  rw [TextLine.bytes, List.append_assoc, List.singleton_append]

theorem TextLine.newline_mem_bytes (line : TextLine) : newline ∈ cString line.bytes := by
  have hnul : 0#8 ∉ line.bytes := by
    simpa [TextLine.bytes, newline] using line.noNul
  rw [cString_of_notMem hnul, TextLine.bytes]
  simp

theorem TextLine.newline_notMem_take (line : TextLine) (n : ℕ) :
    newline ∉ cString (line.text.take n) := fun hmem =>
  line.noNewline (List.mem_of_mem_take (List.takeWhile_subset _ hmem))

/-- What is left of a line after `n` characters. -/
def TextLine.drop (line : TextLine) (n : ℕ) : TextLine where
  text := line.text.drop n
  noNul := fun hmem => line.noNul (List.mem_of_mem_drop hmem)
  noNewline := fun hmem => line.noNewline (List.mem_of_mem_drop hmem)

theorem fgets_line (line : TextLine) (size : ℕ) (buffer rest : List Byte) :
    fgets size buffer (line.bytes ++ rest) =
      if line.text.length < size - 1 then (line.bytes, rest)
      else (line.text.take (size - 1), (line.drop (size - 1)).bytes ++ rest) := by
  have hne : line.text ++ newline :: rest ≠ [] := by simp
  rw [line.bytes_append, fgets, if_neg hne, chunk_line line.noNewline]
  by_cases hfits : line.text.length < size - 1
  · simp [hfits, TextLine.bytes]
  · have hle : size - 1 ≤ line.text.length := not_lt.mp hfits
    rw [if_neg hfits, if_neg hfits, List.length_take, min_eq_left hle,
      List.drop_append_of_le_length hle, TextLine.bytes_append, TextLine.drop]

/-- The loop discards the rest of a line, however many pieces it takes. -/
theorem drain_line {size : ℕ} (hsize : 2 ≤ size) {fuel : ℕ} (line : TextLine)
    (hfuel : line.text.length < fuel) (buffer rest : List Byte) :
    drain size fuel buffer (line.bytes ++ rest) = some rest := by
  induction fuel generalizing line buffer with
  | zero => omega
  | succ fuel ih =>
    rw [drain_succ, fgets_line]
    by_cases hfits : line.text.length < size - 1
    · rw [if_pos hfits, if_pos line.newline_mem_bytes]
    · have hshort : (line.drop (size - 1)).text.length < fuel := by
        rw [TextLine.drop, List.length_drop]
        omega
      rw [if_neg hfits, if_neg (line.newline_notMem_take _), ih _ hshort]

/-- A line that fits is read at once. -/
theorem readLine_of_fits {size : ℕ} (line : TextLine) (hfits : line.text.length < size - 1)
    (fuel : ℕ) (buffer nullBuffer rest : List Byte) :
    readLine size fuel buffer nullBuffer (line.bytes ++ rest) = some (some line.bytes, rest) := by
  rw [readLine_eq, fgets_line, if_pos hfits, if_pos line.newline_mem_bytes]

/-- One read takes one line off the input, and gets to see it if it fits. -/
theorem readLine_line {size : ℕ} (hsize : 2 ≤ size) (line : TextLine) {fuel : ℕ}
    (hfuel : line.text.length < fuel) (buffer nullBuffer rest : List Byte) :
    readLine size fuel buffer nullBuffer (line.bytes ++ rest) =
      some (if line.text.length < size - 1 then some line.bytes else none, rest) := by
  by_cases hfits : line.text.length < size - 1
  · rw [readLine_of_fits line hfits, if_pos hfits]
  · have hshort : (line.drop (size - 1)).text.length < fuel := by
      rw [TextLine.drop, List.length_drop]
      omega
    rw [readLine_eq, fgets_line, if_neg hfits, if_neg hfits,
      if_neg (line.newline_notMem_take _), drain_line hsize _ hshort, Option.map_some]

end OlinCourses.LineInput
