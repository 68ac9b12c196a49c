import OlinCourses.Lib.LineInput
import OlinCourses.Shell.HeapArray
import OlinCourses.Shell.Tokenizer

/-!
# The loop of the shell

`softshell.c` and the functions of `shell.c` that it calls, on the heap. The bodies of
`process_tokens` and `process_command` are placeholders in the source; the loop is given
for any two functions in their place.
-/
namespace OlinCourses.Shell.Memory
open LineInput (chunk newline)
open Runs

def INITIAL_LINE_SIZE : ℕ := 64

/-- `"> "` -/
def PROMPT : List Byte := [62#8, 32#8]

def commandFields (m : Memory) (command : Pointer) : Option (Pointer × Pointer × Pointer) :=
  match object m command with
  | some (.command tokens inputFile outputFile) => some (tokens, inputFile, outputFile)
  | _ => none

def makeCommand (m : Memory) (tokenCapacity : ℕ) : Option (Pointer × Memory) := do
  let (command, m) := m.malloc (.command .garbage .garbage .garbage)
  let (tokens, m) ← makeStringArray m tokenCapacity
  let m ← setObject m (.ref command) (.command tokens .null .null)
  return (.ref command, m)

def freeCommand (m : Memory) (command : Pointer) : Option Memory := do
  let (tokens, _) ← commandFields m command
  let m ← freeStringArray m tokens
  let (_, inputFile, _) ← commandFields m command
  let m ← freePointer m inputFile
  let (_, _, outputFile) ← commandFields m command
  let m ← freePointer m outputFile
  freePointer m command

/-- What is left to read, and whether a read met the end of the input. -/
structure Stdin where
  rest : List Byte
  eof : Bool

/-- `getline` into the buffer `line` of `size` characters: the characters up to a newline and
a NUL behind them, in a new buffer if they do not fit; `none` inside is the return value -1. -/
def getline (m : Memory) (line : Pointer) (size : ℕ) (stdin : Stdin) :
    Option (Option Pointer × Memory × Stdin) :=
  if stdin.rest = [] then some (none, m, { stdin with eof := true })
  else do
    let text := chunk stdin.rest.length stdin.rest
    let stdin :=
      { rest := stdin.rest.drop text.length, eof := stdin.eof || !(newline ∈ text) }
    let contents := text.map some ++ [some 0#8]
    if contents.length ≤ size then
      let old ← chars m line
      let m ← setObject m line (.chars (contents ++ old.drop contents.length))
      return (some line, m, stdin)
    else
      let m ← freePointer m line
      let (p, m) := m.malloc (.chars contents)
      return (some (.ref p), m, stdin)

def readLine (m : Memory) (stdin : Stdin) : Option (Pointer × Memory × Stdin) := do
  let (p, m) := m.malloc (.chars (List.replicate INITIAL_LINE_SIZE none))
  let (line, m, stdin) ← getline m (.ref p) INITIAL_LINE_SIZE stdin
  match line with
  | none => return (.null, ← freePointer m (.ref p), stdin)
  | some line => return (line, m, stdin)

/-- The characters that may be read from `string + offset` on. -/
def readable (m : Memory) (string : Pointer) (offset : ℕ) : Option (List Byte) := do
  return ((← chars m string).drop offset).takeWhile Option.isSome |>.reduceOption

/-- The loop over the line at position `pos`, with `n` positions to the end of its block. -/
def tokenizeFrom (isspace : Byte → Bool) (line tokens : Pointer) :
    (pos start size : ℕ) → ℕ → Memory → Option Memory
  | _, _, _, 0, _ => none
  | pos, start, size, n + 1, m => do
    let c ← (← readable m line pos)[0]?
    if c = 0#8 then some m
    else if isspace c then
      if size ≠ 0 then do
        let m ← addString m tokens (← readable m line start) size
        tokenizeFrom isspace line tokens (pos + 1) start 0 n m
      else tokenizeFrom isspace line tokens (pos + 1) start size n m
    else
      tokenizeFrom isspace line tokens (pos + 1) (if size = 0 then pos else start) (size + 1) n m

def tokenizeLine (isspace : Byte → Bool) (m : Memory) (line : Pointer) :
    Option (Pointer × Memory) := do
  let (tokens, m) ← makeStringArray m INITIAL_TOKENS_CAPACITY
  let m ← tokenizeFrom isspace line tokens 0 0 0 (← chars m line).length m
  return (tokens, m)

/-- The state of the loop, and what `process_tokens` has been called with: the memory and the
array. -/
structure State where
  memory : Memory
  stdin : Stdin
  stdout : List Byte
  calls : List (Memory × Pointer)

section Loop

variable (isspace : Byte → Bool) (processTokens : Memory → Pointer → Option (Pointer × Memory))
  (processCommand : Memory → Pointer → Option Memory)

/-- The body of the loop. -/
def shellRound (s : State) : Option State := do
  let (line, m, stdin) ← readLine s.memory s.stdin
  match line with
  | .null => return ⟨← freePointer m .null, stdin, s.stdout ++ PROMPT ++ [newline], s.calls⟩
  | _ =>
    let (tokens, m) ← tokenizeLine isspace m line
    let calls := s.calls ++ [(m, tokens)]
    let (command, m) ← processTokens m tokens
    let m ← processCommand m command
    let m ← freePointer m line
    let m ← freeStringArray m tokens
    let m ← freeCommand m command
    return ⟨m, stdin, s.stdout ++ PROMPT, calls⟩

/-- At most `fuel` rounds. -/
def shellLoop : ℕ → State → Option State
  | 0, _ => none
  | fuel + 1, s =>
    if s.stdin.eof then some s
    else (shellRound isspace processTokens processCommand s).bind (shellLoop fuel)

end Loop

/-- The placeholder of `process_tokens`. -/
def processTokens (m : Memory) (_tokens : Pointer) : Option (Pointer × Memory) := some (.null, m)

/-- The placeholder of `process_command`. -/
def processCommand (m : Memory) (_command : Pointer) : Option Memory := some m

/-- The initialised characters at the start of a block. -/
theorem reduceOption_takeWhile (text : List Byte) (tail : List (Option Byte)) :
    ((text.map some ++ some 0#8 :: tail).takeWhile Option.isSome).reduceOption =
      text ++ 0#8 :: (tail.takeWhile Option.isSome).reduceOption := by
  induction text with
  | nil => rfl
  | cons c text ih => exact congrArg (c :: ·) ih

/-- From any position up to its NUL, a string can be read on. -/
theorem readable_eq {m : Memory} {l : ℕ} {text : List Byte} {tail : List (Option Byte)}
    (hline : m.block l = some (.chars (text.map some ++ some 0#8 :: tail))) {pos : ℕ}
    (hpos : pos ≤ text.length) : readable m (.ref l) pos =
      some ((text ++ 0#8 :: (tail.takeWhile Option.isSome).reduceOption).drop pos) := by
  have hdrop : (text.map some ++ some 0#8 :: tail).drop pos =
      (text.drop pos).map some ++ some 0#8 :: tail := by
    rw [List.drop_append_of_le_length (by simpa using hpos), List.map_drop]
  simp only [readable, chars, object, hline, hdrop, reduceOption_takeWhile, Option.bind_eq_bind,
    Option.bind_some, Option.pure_def, List.drop_append_of_le_length hpos]

theorem readable_length {m : Memory} {l : ℕ} {before rest : List Byte}
    {tail : List (Option Byte)}
    (hline : m.block l = some (.chars ((before ++ rest).map some ++ some 0#8 :: tail))) :
    ∃ more, readable m (.ref l) before.length = some (rest ++ 0#8 :: more) := by
  refine ⟨(tail.takeWhile Option.isSome).reduceOption, ?_⟩
  rw [readable_eq hline (by simp), List.append_assoc, List.drop_left]

section Tokenize

variable {isspace : Byte → Bool} {frame : ℕ → Option Object} {l : ℕ} {tail : List (Option Byte)}
  {tokens : Pointer}

section Step

variable {line : Pointer} {m : Memory} {pos start size : ℕ} {c : Byte} {more : List Byte}
  (hread : readable m line pos = some (c :: more)) (hc : c ≠ 0#8)

include hread hc

theorem tokenizeFrom_of_not_space (hspace : ¬ isspace c = true) (n : ℕ) :
    tokenizeFrom isspace line tokens pos start size (n + 1) m =
      tokenizeFrom isspace line tokens (pos + 1) (if size = 0 then pos else start) (size + 1) n
        m := by
  simp only [tokenizeFrom, hread, List.getElem?_cons_zero, if_neg hc, if_neg hspace,
    Option.bind_eq_bind, Option.bind_some]

theorem tokenizeFrom_of_space (hspace : isspace c = true) {m' : Memory}
    (hadd : (if size ≠ 0 then
        (readable m line start).bind fun string => addString m tokens string size
      else some m) = some m') (n : ℕ) :
    tokenizeFrom isspace line tokens pos start size (n + 1) m =
      tokenizeFrom isspace line tokens (pos + 1) start 0 n m' := by
  simp only [tokenizeFrom, hread, List.getElem?_cons_zero, if_neg hc, if_pos hspace,
    Option.bind_eq_bind, Option.bind_some]
  by_cases hsize : size ≠ 0
  · rw [if_pos hsize] at hadd ⊢
    rw [← Option.bind_assoc, hadd, Option.bind_some]
  · rw [if_neg hsize, Option.some_inj] at hadd
    rw [if_neg hsize, hadd, not_not.mp hsize]

end Step

/-- White space adds the pending token, if there is one. -/
theorem addPending_owns {done cur rest : List Byte} (hnul : 0#8 ∉ cur)
    (hline : frame l = some (.chars ((done ++ cur ++ rest).map some ++ some 0#8 :: tail)))
    {start : ℕ} (hstart : cur ≠ [] → start = done.length) {m : Memory} {ts : List (List Byte)}
    {capacity : ℕ} (h : OwnsArray m frame tokens ts capacity) :
    ∃ m' capacity', (if cur.length ≠ 0 then
        (readable m (.ref l) start).bind fun string => addString m tokens string cur.length
      else some m) = some m' ∧
      OwnsArray m' frame tokens (ts ++ nonempty [cur]) capacity' := by
  by_cases hempty : cur = []
  · subst hempty
    exact ⟨m, capacity, rfl, by simpa [nonempty] using h⟩
  · have hlen : start ≤ (done ++ cur ++ rest).length := by
      rw [hstart hempty]
      simp
    rw [if_pos (by simpa using hempty), readable_eq (h.block_frame hline) hlen, Option.bind_some,
      List.append_assoc (done ++ cur)]
    obtain ⟨m', capacity', hadd, h'⟩ := addString_owns h
      ((done ++ cur ++ (rest ++ 0#8 :: (tail.takeWhile Option.isSome).reduceOption)).drop start)
      cur.length (by simp [hstart hempty])
    rw [cut_pending hnul (hstart hempty)] at h'
    exact ⟨m', capacity', hadd, by simpa [nonempty_cons hempty] using h'⟩

variable (isspace) in
/-- The scan adds the runs that whitespace ends, as on the array of values. -/
theorem tokenizeFrom_owns (rest done cur : List Byte) (hcur : ∀ c ∈ cur, isspace c = false)
    (hnul : 0#8 ∉ done ++ cur ++ rest)
    (hline : frame l = some (.chars ((done ++ cur ++ rest).map some ++ some 0#8 :: tail)))
    (start : ℕ) (hstart : cur ≠ [] → start = done.length) {n : ℕ} (hn : rest.length < n)
    {m : Memory} {ts : List (List Byte)} {capacity : ℕ} (h : OwnsArray m frame tokens ts capacity) :
    ∃ m' capacity', tokenizeFrom isspace (.ref l) tokens (done ++ cur).length start cur.length n m =
        some m' ∧ OwnsArray m' frame tokens (ts ++ ended isspace (cur ++ rest)) capacity' := by
  induction rest generalizing done cur start n m ts capacity with
  | nil =>
    obtain ⟨n, rfl⟩ := Nat.exists_eq_add_one_of_ne_zero (Nat.ne_zero_of_lt hn)
    obtain ⟨more, hread⟩ := readable_length (h.block_frame hline)
    refine ⟨m, capacity, ?_, by simpa [ended_of_forall hcur] using h⟩
    simp only [tokenizeFrom, hread, Option.bind_eq_bind, Option.bind_some]
    rfl
  | cons c rest ih =>
    obtain ⟨n, rfl⟩ := Nat.exists_eq_add_one_of_ne_zero (Nat.ne_zero_of_lt hn)
    rw [List.length_cons, Nat.add_lt_add_iff_right] at hn
    obtain ⟨more, hread⟩ := readable_length (h.block_frame hline)
    have hc : c ≠ 0#8 := fun heq => hnul (by simp [heq])
    by_cases hspace : isspace c = true
    · obtain ⟨m₁, capacity₁, hadd, h₁⟩ :=
        addPending_owns (fun hmem => hnul (by simp [hmem])) hline hstart h
      obtain ⟨m', capacity', hrun, h'⟩ := ih (done ++ cur ++ [c]) [] (by simp)
        (by simpa using hnul) (by simpa using hline) start (by simp) hn h₁
      rw [tokenizeFrom_of_space hread hc hspace hadd, ended_append_cons hcur hspace]
      refine ⟨m', capacity', ?_, by simpa using h'⟩
      simpa [Nat.add_assoc] using hrun
    · have hcur' : ∀ other ∈ cur ++ [c], isspace other = false := by
        simpa [or_imp, forall_and] using ⟨hcur, by simpa using hspace⟩
      have hstart' : cur ++ [c] ≠ [] →
          (if cur.length = 0 then (done ++ cur).length else start) = done.length := by
        intro _
        by_cases hempty : cur = []
        · simp [hempty]
        · simp [hempty, hstart hempty]
      obtain ⟨m', capacity', hrun, h'⟩ := ih done (cur ++ [c]) hcur' (by simpa using hnul)
        (by simpa using hline) _ hstart' hn h
      rw [tokenizeFrom_of_not_space hread hc hspace]
      refine ⟨m', capacity', ?_, by simpa using h'⟩
      simpa [Nat.add_assoc] using hrun

end Tokenize

theorem tokenizeLine_owns (isspace : Byte → Bool) {m : Memory} {l : ℕ} {text : List Byte}
    {tail : List (Option Byte)} (hnul : 0#8 ∉ text)
    (hline : m.block l = some (.chars (text.map some ++ some 0#8 :: tail))) :
    ∃ tokens m' capacity, tokenizeLine isspace m (.ref l) = some (tokens, m') ∧
      OwnsArray m' m.block tokens (ended isspace text) capacity := by
  obtain ⟨tokens, m₁, hmake, h₁⟩ := makeStringArray_owns m INITIAL_TOKENS_CAPACITY
  have hchars : chars m₁ (.ref l) = some (text.map some ++ some 0#8 :: tail) := by
    simp only [chars, object, h₁.block_frame hline]
  obtain ⟨m', capacity, hrun, h'⟩ := tokenizeFrom_owns isspace text [] [] (by simp)
    (by simpa using hnul) (by simpa using hline) 0 (by simp)
    (n := (text.map some ++ some 0#8 :: tail).length) (by simp) h₁
  refine ⟨tokens, m', capacity, ?_, by simpa using h'⟩
  simp only [List.append_nil, List.length_nil] at hrun
  simp only [tokenizeLine, hmake, hchars, hrun, Option.bind_eq_bind, Option.bind_some,
    Option.pure_def]

/-- The cells are those of a string array. -/
def IsArray (array : Pointer) (cells : List (ℕ × Object)) : Prop :=
  ∃ ts capacity, ∀ m frame, Heap.Owns m frame cells → OwnsArray m frame array ts capacity

/-- The cells are those of a string that may be absent. -/
def IsFile : Pointer → List (ℕ × Object) → Prop
  | .garbage, _ => False
  | .null, cells => cells = []
  | .ref p, cells => ∃ bytes, cells = [(p, .chars bytes)]

/-- The cells are those of a command. -/
def IsCommand (command : Pointer) (cells : List (ℕ × Object)) : Prop :=
  ∃ c tokens inputFile outputFile arrays ins outs, command = .ref c ∧ IsArray tokens arrays ∧
    IsFile inputFile ins ∧ IsFile outputFile outs ∧
    cells = (c, .command tokens inputFile outputFile) :: (arrays ++ (ins ++ outs))

theorem OwnsArray.exists_cells {m : Memory} {frame : ℕ → Option Object} {array : Pointer}
    {ts : List (List Byte)} {capacity : ℕ} (h : OwnsArray m frame array ts capacity) :
    ∃ cells, m.Owns frame cells ∧ IsArray array cells := by
  obtain ⟨a, s, owned, room, harray, hts, hcap, ho⟩ := h
  exact ⟨_, ho, ts, capacity, fun m' frame' ho' => ⟨a, s, owned, room, harray, hts, hcap, ho'⟩⟩

section Release

variable {m : Memory} {frame : ℕ → Option Object} {cells more : List (ℕ × Object)}

theorem IsArray.free {array : Pointer} (harray : IsArray array cells)
    (ho : m.Owns frame (cells ++ more)) :
    ∃ m', freeStringArray m array = some m' ∧ m'.Owns frame more := by
  obtain ⟨ts, capacity, howns⟩ := harray
  apply ho.frame_rule (fun m => freeStringArray m array) []
  intro frame' ho'
  obtain ⟨m', hfree, hblock⟩ := freeStringArray_owns (howns m frame' ho')
  exact ⟨m', hfree, .of_eq hblock⟩

theorem IsFile.free {file : Pointer} (hfile : IsFile file cells)
    (ho : m.Owns frame (cells ++ more)) :
    ∃ m', freePointer m file = some m' ∧ m'.Owns frame more := by
  cases file with
  | garbage => exact hfile.elim
  | null =>
    cases hfile
    exact ⟨m, rfl, ho⟩
  | ref p =>
    obtain ⟨bytes, rfl⟩ := hfile
    exact ho.free

/-- A command is released with all that it owns, whatever else there is. -/
theorem IsCommand.free {command : Pointer} (hcommand : IsCommand command cells)
    (ho : m.Owns frame (cells ++ more)) :
    ∃ m', freeCommand m command = some m' ∧ m'.Owns frame more := by
  obtain ⟨c, tokens, inputFile, outputFile, arrays, ins, outs, rfl, htokens, hins, houts, rfl⟩ :=
    hcommand
  have hfields : ∀ {m : Memory} {cells}, m.Owns frame
      ((c, .command tokens inputFile outputFile) :: cells) →
      commandFields m (.ref c) = some (tokens, inputFile, outputFile) := by
    intro m cells ho
    simp only [commandFields, object, ho.head]
  rw [List.cons_append, List.append_assoc, List.append_assoc] at ho
  obtain ⟨m₁, hfree, ho₁⟩ := htokens.free (ho.perm List.perm_middle.symm)
  obtain ⟨m₂, hfree', ho₂⟩ := hins.free (ho₁.perm List.perm_middle.symm)
  obtain ⟨m₃, hfree'', ho₃⟩ := houts.free (ho₂.perm List.perm_middle.symm)
  obtain ⟨m₄, hcell, ho₄⟩ := Heap.Owns.free ho₃
  refine ⟨m₄, ?_, ho₄⟩
  simp only [freeCommand, hfields ho, hfree, hfields ho₁, hfree', hfields ho₂, hfree'',
    Option.bind_eq_bind, Option.bind_some]
  exact hcell

end Release

theorem makeCommand_owns (m : Memory) (tokenCapacity : ℕ) :
    ∃ command m' cells, makeCommand m tokenCapacity = some (command, m') ∧
      IsCommand command cells ∧ m'.Owns m.block cells := by
  have ho := (Heap.Owns.nil m).malloc (.command .garbage .garbage .garbage)
  obtain ⟨c, m₁, hmalloc⟩ : ∃ c m₁, m.malloc (.command .garbage .garbage .garbage) = (c, m₁) :=
    ⟨_, _, rfl⟩
  rw [hmalloc] at ho
  obtain ⟨tokens, m₂, hmake, h₂⟩ := makeStringArray_owns m₁ tokenCapacity
  obtain ⟨cells, ho₂, htokens⟩ := h₂.exists_cells
  obtain ⟨m₃, hset, ho₃⟩ := (ho.trans ho₂).set_mid cells (.command tokens .null .null)
  refine ⟨.ref c, m₃, _, ?_, ⟨c, tokens, .null, .null, cells, [], [], rfl, htokens, rfl, rfl, rfl⟩,
    ?_⟩
  · simp only [makeCommand, hmalloc, hmake, setObject, Option.bind_eq_bind, Option.bind_some,
      Option.pure_def]
    rw [hset, Option.bind_some]
  · simpa using ho₃.perm List.perm_middle

/-- The lines of an input, each with its newline. -/
def lines (stdin : List Byte) : List (List Byte) :=
  if stdin = [] then []
  else chunk stdin.length stdin :: lines (stdin.drop (chunk stdin.length stdin).length)
termination_by stdin.length
decreasing_by
  have hne : chunk stdin.length stdin ≠ [] :=
    LineInput.chunk_ne_nil (List.length_pos_iff.mpr (by assumption)) (by assumption)
  have hpos := List.length_pos_iff.mpr hne
  have hlen := List.length_pos_iff.mpr (by assumption : stdin ≠ [])
  rw [List.length_drop]
  omega

/-- The block of a line ends its string at the first NUL. -/
theorem exists_tail (line : List Byte) (rest : List (Option Byte)) :
    ∃ tail, line.map some ++ some 0#8 :: rest =
      (LineInput.cString line).map some ++ some 0#8 :: tail := by
  induction line with
  | nil => exact ⟨rest, rfl⟩
  | cons c line ih =>
    by_cases hc : c = 0#8
    · subst hc
      exact ⟨line.map some ++ some 0#8 :: rest, rfl⟩
    · obtain ⟨tail, htail⟩ := ih
      refine ⟨tail, ?_⟩
      rw [LineInput.cString, List.takeWhile_cons_of_pos (by simpa using hc)]
      simpa [LineInput.cString] using htail

/-- At the end of the input nothing is left allocated. -/
theorem readLine_nil (m : Memory) (eof : Bool) :
    ∃ m', readLine m ⟨[], eof⟩ = some (.null, m', ⟨[], true⟩) ∧ m'.block = m.block := by
  have ho := (Heap.Owns.nil m).malloc (.chars (List.replicate INITIAL_LINE_SIZE none))
  obtain ⟨m', hfree, ho'⟩ := ho.free
  refine ⟨m', ?_, ho'.eq_frame⟩
  simp only [readLine, getline, if_true, freePointer, hfree, Option.bind_eq_bind,
    Option.bind_some, Option.pure_def]

theorem readLine_of_ne_nil (m : Memory) {stdin : List Byte} (h : stdin ≠ []) (eof : Bool) :
    let text := chunk stdin.length stdin
    ∃ l rest m', readLine m ⟨stdin, eof⟩ =
        some (.ref l, m', ⟨stdin.drop text.length, eof || !(newline ∈ text)⟩) ∧
      m'.Owns m.block [(l, .chars (text.map some ++ some 0#8 :: rest))] := by
  intro text
  have ho := (Heap.Owns.nil m).malloc (.chars (List.replicate INITIAL_LINE_SIZE none))
  obtain ⟨l, m₁, hmalloc⟩ : ∃ l m₁,
      m.malloc (.chars (List.replicate INITIAL_LINE_SIZE none)) = (l, m₁) := ⟨_, _, rfl⟩
  simp only [hmalloc] at ho
  by_cases hfits : (text.map some ++ [some 0#8]).length ≤ INITIAL_LINE_SIZE
  · obtain ⟨m₂, hset, ho₂⟩ := ho.set (.chars (text.map some ++ [some 0#8] ++
      (List.replicate INITIAL_LINE_SIZE none).drop (text.map some ++ [some 0#8]).length))
    have hchars : chars m₁ (.ref l) = some (List.replicate INITIAL_LINE_SIZE none) := by
      simp only [chars, object, ho.head]
    have hset : setObject m₁ (.ref l) _ = some m₂ := hset
    refine ⟨l, _, m₂, ?_, by simpa using ho₂⟩
    simp only [readLine, getline, hmalloc, if_neg h, Option.bind_eq_bind, Option.pure_def]
    rw [if_pos hfits, hchars, Option.bind_some, hset]
    rfl
  · obtain ⟨m₂, hfree, ho₂⟩ := ho.free
    have ho₃ := ho₂.malloc (.chars (text.map some ++ [some 0#8]))
    refine ⟨_, [], _, ?_, ho₃⟩
    simp only [readLine, getline, hmalloc, if_neg h, freePointer, hfree, Option.bind_eq_bind,
      Option.bind_some, Option.pure_def]
    rw [if_neg hfits]
    rfl

theorem chunk_of_line {text : List Byte} (h : newline ∉ text) (rest : List Byte) :
    chunk (text ++ newline :: rest).length (text ++ newline :: rest) = text ++ [newline] := by
  rw [LineInput.chunk_line h, if_pos (by simp)]

theorem lines_of_line {text : List Byte} (h : newline ∉ text) (rest : List Byte) :
    lines (text ++ newline :: rest) = (text ++ [newline]) :: lines rest := by
  rw [lines, if_neg (by simp), chunk_of_line h]
  simp

theorem lines_of_notMem {text : List Byte} (hne : text ≠ []) (h : newline ∉ text) :
    lines text = [text] := by
  rw [lines, if_neg hne, LineInput.chunk_of_notMem h, List.take_length, List.drop_length, lines,
    if_pos rfl]

/-- What the header asks of `process_tokens` for an array of the strings `ts`: a new command
of its own, and nothing else changed. -/
def Processes (processTokens : Memory → Pointer → Option (Pointer × Memory))
    (ts : List (List Byte)) : Prop :=
  ∀ m frame tokens capacity, OwnsArray m frame tokens ts capacity →
    ∃ command m' cells, processTokens m tokens = some (command, m') ∧ IsCommand command cells ∧
      Heap.Owns m' m.block cells

/-- The memory and the array of a call hold the strings `ts`. -/
def Holds (call : Memory × Pointer) (ts : List (List Byte)) : Prop :=
  ∃ frame capacity, OwnsArray call.1 frame call.2 ts capacity

/-- And of `process_command`: it changes no memory. -/
def Runs (processCommand : Memory → Pointer → Option Memory) : Prop :=
  ∀ m frame command cells, IsCommand command cells → Heap.Owns m frame cells →
    ∃ m', processCommand m command = some m' ∧ m'.block = m.block

section Loop

variable {isspace : Byte → Bool} {processTokens : Memory → Pointer → Option (Pointer × Memory)}
  {processCommand : Memory → Pointer → Option Memory}

variable (isspace) in
/-- A line and the array of its tokens. -/
theorem exists_tokens {stdin : List Byte} (h : stdin ≠ []) (m : Memory) (eof : Bool) :
    let text := chunk stdin.length stdin
    ∃ l block tokens m₁ m₂ capacity, readLine m ⟨stdin, eof⟩ =
        some (.ref l, m₁, ⟨stdin.drop text.length, eof || !(newline ∈ text)⟩) ∧
      tokenizeLine isspace m₁ (.ref l) = some (tokens, m₂) ∧ m₁.Owns m.block [(l, block)] ∧
      OwnsArray m₂ m₁.block tokens (ended isspace (LineInput.cString text)) capacity := by
  intro text
  obtain ⟨l, rest, m₁, hread, ho₁⟩ := readLine_of_ne_nil m h eof
  obtain ⟨tail, htail⟩ := exists_tail text rest
  rw [htail] at ho₁
  have hnul : 0#8 ∉ LineInput.cString text := by
    intro hmem
    simpa using List.mem_takeWhile_imp hmem
  obtain ⟨tokens, m₂, capacity, htokens, h₂⟩ := tokenizeLine_owns isspace hnul ho₁.head
  exact ⟨l, _, tokens, m₁, m₂, capacity, hread, htokens, ho₁, h₂⟩

variable (isspace processTokens processCommand) in
theorem shellRound_nil (m : Memory) (eof : Bool) (stdout : List Byte)
    (calls : List (Memory × Pointer)) :
    ∃ m', shellRound isspace processTokens processCommand ⟨m, ⟨[], eof⟩, stdout, calls⟩ =
      some ⟨m', ⟨[], true⟩, stdout ++ PROMPT ++ [newline], calls⟩ ∧ m'.block = m.block := by
  obtain ⟨m', hread, hblock⟩ := readLine_nil m eof
  refine ⟨m', ?_, hblock⟩
  simp only [shellRound, hread, freePointer, Option.bind_eq_bind, Option.bind_some,
    Option.pure_def]

/-- A round on a line gives back all the memory it takes. -/
theorem shellRound_of_ne_nil {stdin : List Byte} (h : stdin ≠ [])
    (hprocess : Processes processTokens
      (ended isspace (LineInput.cString (chunk stdin.length stdin))))
    (hrun : Runs processCommand) (m : Memory) (eof : Bool) (stdout : List Byte)
    (calls : List (Memory × Pointer)) :
    let text := chunk stdin.length stdin
    ∃ m' call, shellRound isspace processTokens processCommand ⟨m, ⟨stdin, eof⟩, stdout, calls⟩ =
        some ⟨m', ⟨stdin.drop text.length, eof || !(newline ∈ text)⟩, stdout ++ PROMPT,
          calls ++ [call]⟩ ∧
      m'.block = m.block ∧ Holds call (ended isspace (LineInput.cString text)) := by
  intro text
  obtain ⟨l, block, tokens, m₁, m₂, capacity, hread, htokens, ho₁, h₂⟩ :=
    exists_tokens isspace h m eof
  obtain ⟨arrays, ho₂, harray⟩ := h₂.exists_cells
  obtain ⟨command, m₃, cells, hcommand, hcells, ho₃⟩ := hprocess m₂ m₁.block tokens capacity h₂
  obtain ⟨m₄, hrun₄, hblock₄⟩ := hrun m₃ m₂.block command cells hcells ho₃
  have ho₄ : m₄.Owns m.block ((l, block) :: (arrays ++ cells)) := by
    refine ((ho₁.trans ho₂).trans (ho₃.congr hblock₄)).perm (List.perm_append_comm.trans ?_)
    simp
  obtain ⟨m₅, hline, ho₅⟩ := ho₄.free
  obtain ⟨m₆, hfree, ho₆⟩ := harray.free ho₅
  obtain ⟨m₇, hfree', ho₇⟩ := hcells.free (List.append_nil cells ▸ ho₆)
  have hline : freePointer m₄ (.ref l) = some m₅ := hline
  refine ⟨m₇, (m₂, tokens), ?_, ho₇.eq_frame, m₁.block, capacity, h₂⟩
  simp only [shellRound, hread, htokens, hcommand, hrun₄, hline, hfree, hfree',
    Option.bind_eq_bind, Option.bind_some, Option.pure_def]
  rfl

/-- What the loop prints: a prompt for each line, and one more, with a newline behind it,
unless the input ends within a line. -/
def transcript (stdin : List Byte) : List Byte :=
  (List.replicate (lines stdin).length PROMPT).flatten ++
    if stdin.getLast?.all (· = newline) then PROMPT ++ [newline] else []

theorem transcript_of_line {text : List Byte} (h : newline ∉ text) (rest : List Byte) :
    transcript (text ++ newline :: rest) = PROMPT ++ transcript rest := by
  have hlast : (text ++ newline :: rest).getLast?.all (· = newline) =
      rest.getLast?.all (· = newline) := by
    cases rest with
    | nil => simp
    | cons c rest =>
      rw [List.append_cons, List.getLast?_append_of_ne_nil _ (List.cons_ne_nil c rest)]
  simp only [transcript, lines_of_line h, hlast, List.length_cons, List.replicate_succ,
    List.flatten_cons, List.append_assoc]

theorem transcript_of_notMem {text : List Byte} (hne : text ≠ []) (h : newline ∉ text) :
    transcript text = PROMPT := by
  have hlast : text.getLast?.all (· = newline) = false := by
    rw [List.getLast?_eq_some_getLast hne, Option.all_some, decide_eq_false_iff_not]
    exact fun heq => h (heq ▸ List.getLast_mem hne)
  simp [transcript, lines_of_notMem hne h, hlast]

theorem shellLoop_eq {stdin : List Byte}
    (hprocess : ∀ line ∈ lines stdin,
      Processes processTokens (ended isspace (LineInput.cString line)))
    (hrun : Runs processCommand) {fuel : ℕ} (hfuel : stdin.length + 1 < fuel) (m : Memory)
    (stdout : List Byte) (calls : List (Memory × Pointer)) :
    ∃ m' more,
      shellLoop isspace processTokens processCommand fuel ⟨m, ⟨stdin, false⟩, stdout, calls⟩ =
        some ⟨m', ⟨[], true⟩, stdout ++ transcript stdin, calls ++ more⟩ ∧ m'.block = m.block ∧
      List.Forall₂ (fun call line => Holds call (ended isspace (LineInput.cString line))) more
        (lines stdin) := by
  induction hlen : stdin.length using Nat.strong_induction_on
    generalizing stdin fuel m stdout calls with
  | _ n ih =>
    obtain ⟨fuel, rfl⟩ : ∃ k, fuel = k + 2 := ⟨fuel - 2, by omega⟩
    by_cases hnil : stdin = []
    · subst hnil
      obtain ⟨m', hround, hblock⟩ :=
        shellRound_nil isspace processTokens processCommand m false stdout calls
      have hlines : lines [] = [] := by rw [lines, if_pos rfl]
      refine ⟨m', [], ?_, hblock, hlines ▸ .nil⟩
      simp [shellLoop, hround, transcript, hlines]
    · by_cases hline : newline ∈ stdin
      · obtain ⟨text, rest, rfl, htext⟩ := List.eq_append_cons_of_mem hline
        rw [lines_of_line htext] at hprocess
        have hchunk := chunk_of_line htext rest
        have hfuel' : rest.length + 1 < fuel + 1 := by
          rw [List.length_append, List.length_cons] at hfuel
          omega
        have hdrop : (text ++ newline :: rest).drop (text ++ [newline]).length = rest := by simp
        obtain ⟨m₁, call, hround, hblock, hcall⟩ := shellRound_of_ne_nil hnil
          (hchunk ▸ hprocess _ List.mem_cons_self) hrun m false stdout calls
        rw [hchunk] at hcall
        rw [hchunk, hdrop] at hround
        obtain ⟨m', more, hloop, hblock', hcalls⟩ := ih rest.length (by rw [← hlen]; simp; omega)
          (fun line hmem => hprocess line (List.mem_cons_of_mem _ hmem)) hfuel' m₁
          (stdout ++ PROMPT) (calls ++ [call]) rfl
        refine ⟨m', call :: more, ?_, hblock'.trans hblock, ?_⟩
        · rw [transcript_of_line htext, ← List.append_assoc, List.append_cons calls, ← hloop]
          simp [shellLoop, hround]
        · rw [lines_of_line htext]
          exact .cons hcall hcalls
      · rw [lines_of_notMem hnil hline] at hprocess
        have hchunk : chunk stdin.length stdin = stdin := by
          rw [LineInput.chunk_of_notMem hline, List.take_length]
        obtain ⟨m', call, hround, hblock, hcall⟩ := shellRound_of_ne_nil hnil
          (hchunk ▸ hprocess _ List.mem_cons_self) hrun m false stdout calls
        rw [hchunk] at hcall
        rw [hchunk, List.drop_length] at hround
        refine ⟨m', [call], ?_, hblock, ?_⟩
        · rw [transcript_of_notMem hnil hline]
          simp [shellLoop, hround, hline]
        · rw [lines_of_notMem hnil hline]
          exact .cons hcall .nil

end Loop

/-- The shell reads any input to its end, prints a prompt for each line, and neither uses
memory that is not allocated nor keeps any, for every `process_tokens` that makes a new
command and every `process_command` that leaves memory alone. It calls `process_tokens` once
for each line, with an array of the line's runs that whitespace ends. -/
theorem shellLoop_safe (isspace : Byte → Bool)
    (processTokens : Memory → Pointer → Option (Pointer × Memory))
    (processCommand : Memory → Pointer → Option Memory) (stdin : List Byte)
    (hprocess : ∀ line ∈ lines stdin,
      Processes processTokens (ended isspace (LineInput.cString line)))
    (hrun : Runs processCommand) (m : Memory) :
    ∃ fuel m' calls,
      shellLoop isspace processTokens processCommand fuel ⟨m, ⟨stdin, false⟩, [], []⟩ =
        some ⟨m', ⟨[], true⟩, transcript stdin, calls⟩ ∧ m'.block = m.block ∧
      List.Forall₂ (fun call line => Holds call (ended isspace (LineInput.cString line))) calls
        (lines stdin) := by
  obtain ⟨m', calls, hloop, hblock, hcalls⟩ :=
    shellLoop_eq hprocess hrun (Nat.lt_succ_self (stdin.length + 1)) m [] []
  exact ⟨stdin.length + 2, m', calls, hloop, hblock, hcalls⟩

/-- A `process_tokens` that makes an empty command, on two lines of which the second is not
ended. -/
theorem shellLoop_safe_two_lines :
    ∃ fuel m' first second,
      shellLoop LineInput.isspace (fun m _ => makeCommand m 1) (fun m _ => some m) fuel
        ⟨⟨fun _ => none, 0, fun _ _ => rfl⟩, ⟨[108#8, 115#8, 10#8, 97#8], false⟩, [], []⟩ =
          some ⟨m', ⟨[], true⟩, PROMPT ++ PROMPT, [first, second]⟩ ∧
      m'.block = (fun _ => none) ∧ Holds first [[108#8, 115#8]] ∧ Holds second [] := by
  have hprocess : ∀ ts, Processes (fun m _ => makeCommand m 1) ts := by
    intro ts m frame tokens capacity _
    exact makeCommand_owns m 1
  have hrun : Runs (fun m _ => some m) := fun m frame command cells _ _ => ⟨m, rfl, rfl⟩
  have hfirst : newline ∉ [108#8, 115#8] := by decide
  have hsecond : newline ∉ [97#8] := by decide
  have hlines : lines [108#8, 115#8, 10#8, 97#8] = [[108#8, 115#8, 10#8], [97#8]] :=
    (lines_of_line hfirst _).trans (congrArg _ (lines_of_notMem (by decide) hsecond))
  have htranscript : transcript [108#8, 115#8, 10#8, 97#8] = PROMPT ++ PROMPT :=
    (transcript_of_line hfirst _).trans
      (congrArg _ (transcript_of_notMem (by decide) hsecond))
  obtain ⟨fuel, m', calls, hloop, hblock, hcalls⟩ :=
    shellLoop_safe LineInput.isspace _ _ [108#8, 115#8, 10#8, 97#8] (fun line _ => hprocess _) hrun
      ⟨fun _ => none, 0, fun _ _ => rfl⟩
  rw [hlines] at hcalls
  cases hcalls with
  | cons hholds hcalls =>
    cases hcalls with
    | cons hholds' hcalls =>
      cases hcalls
      exact ⟨fuel, m', _, _, htranscript ▸ hloop, hblock, hholds, hholds'⟩

/-- With the placeholders, every input that is not empty has its first line split and released
with its tokens, and then ends in `free_command` of a null pointer. -/
theorem shellLoop_placeholders (isspace : Byte → Bool) {stdin : List Byte} (h : stdin ≠ [])
    (m : Memory) :
    (∃ line tokens m₁ m₂ m₃ m₄ stdin',
      readLine m ⟨stdin, false⟩ = some (.ref line, m₁, stdin') ∧
      tokenizeLine isspace m₁ (.ref line) = some (tokens, m₂) ∧
      Holds (m₂, tokens) (ended isspace (LineInput.cString (chunk stdin.length stdin))) ∧
      processTokens m₂ tokens = some (.null, m₂) ∧ processCommand m₂ .null = some m₂ ∧
      freePointer m₂ (.ref line) = some m₃ ∧ freeStringArray m₃ tokens = some m₄ ∧
      m₄.block = m.block ∧ freeCommand m₄ .null = none) ∧
    shellRound isspace processTokens processCommand ⟨m, ⟨stdin, false⟩, [], []⟩ = none ∧
    ∀ fuel, shellLoop isspace processTokens processCommand fuel ⟨m, ⟨stdin, false⟩, [], []⟩ =
      none := by
  obtain ⟨l, block, tokens, m₁, m₂, capacity, hread, htokens, ho₁, h₂⟩ :=
    exists_tokens isspace h m false
  obtain ⟨arrays, ho₂, harray⟩ := h₂.exists_cells
  obtain ⟨m₃, hline, ho₃⟩ := ((ho₁.trans ho₂).perm List.perm_append_comm).free
  obtain ⟨m₄, hfree, ho₄⟩ := harray.free ((List.append_nil arrays).symm ▸ ho₃)
  have hline : freePointer m₂ (.ref l) = some m₃ := hline
  have hnull : freeCommand m₄ .null = none := rfl
  have hround : shellRound isspace processTokens processCommand ⟨m, ⟨stdin, false⟩, [], []⟩ =
      none := by
    simp only [shellRound, hread, htokens, processTokens, processCommand, hline, hfree, hnull,
      Option.bind_eq_bind, Option.bind_some, Option.bind_none]
  refine ⟨⟨l, tokens, m₁, m₂, m₃, m₄, _, hread, htokens, ⟨m₁.block, capacity, h₂⟩, rfl, rfl, hline,
    hfree, ho₄.eq_frame, hnull⟩, hround, fun fuel => ?_⟩
  cases fuel with
  | zero => rfl
  | succ fuel => simp [shellLoop, hround]

theorem shellLoop_placeholders_newline :
    shellRound LineInput.isspace processTokens processCommand
      ⟨⟨fun _ => none, 0, fun _ _ => rfl⟩, ⟨[newline], false⟩, [], []⟩ = none :=
  (shellLoop_placeholders LineInput.isspace (List.cons_ne_nil _ _) _).2.1

end OlinCourses.Shell.Memory
