import OlinCourses.Lib.LineInput
import OlinCourses.Lib.Runs
import OlinCourses.Shell.StringArray

/-!
# The tokenizer

`tokenize_line` of `shell.c`. A token is added when whitespace follows it, so the
scan yields the runs of the line that whitespace ends.
-/
namespace OlinCourses.Shell
open Runs

def INITIAL_TOKENS_CAPACITY : ℕ := 8

/-- The loop over the line at `currentPos`, where the memory `rest` is still ahead. -/
def tokenizeFrom (isspace : Byte → Bool) (line : List Byte) :
    List Byte → ℕ → ℕ → ℕ → StringArray → Option StringArray
  | [], _, _, _, _ => none
  | c :: rest, currentPos, tokenStart, tokenSize, tokens =>
    if c = 0#8 then some tokens
    else if isspace c then
      if tokenSize ≠ 0 then do
        let tokens ← addString tokens (line.drop tokenStart) tokenSize
        tokenizeFrom isspace line rest (currentPos + 1) tokenStart 0 tokens
      else tokenizeFrom isspace line rest (currentPos + 1) tokenStart tokenSize tokens
    else
      tokenizeFrom isspace line rest (currentPos + 1)
        (if tokenSize = 0 then currentPos else tokenStart) (tokenSize + 1) tokens

def tokenizeLine (isspace : Byte → Bool) (line : List Byte) : Option StringArray :=
  tokenizeFrom isspace line line 0 0 0 (makeStringArray INITIAL_TOKENS_CAPACITY)

/-- A line of text, kept in memory with its NUL. -/
structure Line where
  text : List Byte
  noNul : 0#8 ∉ text

def Line.memory (line : Line) : List Byte := line.text ++ [0#8]

/-- The string that is added is the pending token. -/
theorem cut_pending {done cur rest : List Byte} (hnul : 0#8 ∉ cur) {tokenStart : ℕ}
    (hstart : tokenStart = done.length) :
    cut ((done ++ cur ++ rest).drop tokenStart) cur.length = cur := by
  have htake : ((done ++ cur ++ rest).drop tokenStart).take cur.length = cur := by
    simp [hstart]
  rw [cut_of_notMem (by rwa [htake]), htake]

section Step

variable {isspace : Byte → Bool} {c : Byte} (hc : c ≠ 0#8) {line rest : List Byte}
variable {currentPos tokenStart tokenSize : ℕ} {tokens : StringArray}

include hc

theorem tokenizeFrom_of_not_space (hspace : ¬ isspace c = true) :
    tokenizeFrom isspace line (c :: rest) currentPos tokenStart tokenSize tokens =
      tokenizeFrom isspace line rest (currentPos + 1)
        (if tokenSize = 0 then currentPos else tokenStart) (tokenSize + 1) tokens := by
  rw [tokenizeFrom, if_neg hc, if_neg hspace]

/-- White space ends the pending token, if there is one. -/
theorem tokenizeFrom_of_space (hspace : isspace c = true) {added : StringArray}
    (hadd : (if tokenSize ≠ 0 then addString tokens (line.drop tokenStart) tokenSize
      else some tokens) = some added) :
    tokenizeFrom isspace line (c :: rest) currentPos tokenStart tokenSize tokens =
      tokenizeFrom isspace line rest (currentPos + 1) tokenStart 0 added := by
  rw [tokenizeFrom, if_neg hc, if_pos hspace]
  by_cases hsize : tokenSize ≠ 0
  · rw [if_pos hsize] at hadd ⊢
    rw [hadd]
    rfl
  · rw [if_neg hsize] at hadd ⊢
    cases hadd
    rw [not_not.mp hsize]

end Step

theorem addPending_spec {done cur : List Byte} (rest : List Byte) (hnul : 0#8 ∉ cur)
    {tokenStart : ℕ} (hstart : cur ≠ [] → tokenStart = done.length) {tokens : StringArray}
    {ts : List (List Byte)} (h : Holds tokens ts) :
    ∃ added, (if cur.length ≠ 0 then
        addString tokens ((done ++ cur ++ rest).drop tokenStart) cur.length
      else some tokens) = some added ∧ Holds added (ts ++ nonempty [cur]) := by
  by_cases hempty : cur = []
  · subst hempty
    exact ⟨tokens, rfl, by simpa [nonempty] using h⟩
  · obtain ⟨added, hadd, hholds, -⟩ := addString_spec h ((done ++ cur ++ rest).drop tokenStart)
      cur.length (by simp [hstart hempty])
    rw [cut_pending hnul (hstart hempty)] at hholds
    rw [if_pos (by simpa using hempty)]
    exact ⟨added, hadd, by simpa [nonempty_cons hempty] using hholds⟩

/-- The scan, with `done` behind the pending token `cur`, adds the runs that
whitespace ends. -/
theorem tokenizeFrom_spec (isspace : Byte → Bool) (rest done cur : List Byte)
    (hcur : ∀ c ∈ cur, isspace c = false) (hnul : 0#8 ∉ done ++ cur ++ rest) (tokenStart : ℕ)
    (hstart : cur ≠ [] → tokenStart = done.length) {tokens : StringArray}
    {ts : List (List Byte)} (h : Holds tokens ts) :
    ∃ tokens', tokenizeFrom isspace (done ++ cur ++ rest ++ [0#8]) (rest ++ [0#8])
        (done ++ cur).length tokenStart cur.length tokens = some tokens' ∧
      Holds tokens' (ts ++ ended isspace (cur ++ rest)) := by
  induction rest generalizing done cur tokenStart tokens ts with
  | nil => exact ⟨tokens, by simp [tokenizeFrom], by simpa [ended_of_forall hcur] using h⟩
  | cons c rest ih =>
    have hc : c ≠ 0#8 := fun heq => hnul (by simp [heq])
    rw [List.cons_append]
    by_cases hspace : isspace c = true
    · obtain ⟨added, hadd, hadded⟩ := addPending_spec (c :: rest ++ [0#8])
        (fun hmem => hnul (by simp [hmem])) hstart h
      rw [← List.append_assoc (done ++ cur)] at hadd
      obtain ⟨tokens', hrun, hholds⟩ := ih (done ++ cur ++ [c]) [] (by simp) (by simpa using hnul)
        tokenStart (by simp) hadded
      rw [tokenizeFrom_of_space hc hspace hadd, ended_append_cons hcur hspace]
      refine ⟨tokens', ?_, by simpa using hholds⟩
      simpa [Nat.add_assoc] using hrun
    · have hcur' : ∀ other ∈ cur ++ [c], isspace other = false := by
        simpa [or_imp, forall_and] using ⟨hcur, by simpa using hspace⟩
      have hstart' : cur ++ [c] ≠ [] →
          (if cur.length = 0 then (done ++ cur).length else tokenStart) = done.length := by
        intro _
        by_cases hempty : cur = []
        · simp [hempty]
        · simp [hempty, hstart hempty]
      obtain ⟨tokens', hrun, hholds⟩ := ih done (cur ++ [c]) hcur' (by simpa using hnul) _ hstart' h
      rw [tokenizeFrom_of_not_space hc hspace]
      refine ⟨tokens', ?_, by simpa using hholds⟩
      simpa [Nat.add_assoc] using hrun

/-- The tokens are the runs of the line that whitespace ends. -/
theorem tokenizeLine_eq (isspace : Byte → Bool) (line : Line) :
    ∃ tokens, tokenizeLine isspace line.memory = some tokens ∧
      Holds tokens (ended isspace line.text) := by
  obtain ⟨tokens, hrun, hholds⟩ := tokenizeFrom_spec isspace line.text [] [] (by simp)
    (by simpa using line.noNul) 0 (by simp) (holds_makeStringArray INITIAL_TOKENS_CAPACITY)
  exact ⟨tokens, by simpa [tokenizeLine, Line.memory] using hrun, by simpa using hholds⟩

/-- The strings of the returned array are the maximal runs of non-whitespace
characters of the line, in order. -/
def SplitsByWhitespace (isspace : Byte → Bool) (line : Line) : Prop :=
  ∃ tokens rs, tokenizeLine isspace line.memory = some tokens ∧ tokens.contents = some rs ∧
    MaxRuns isspace line.text rs

/-- The line is split by whitespace exactly when it is empty or ends in whitespace. -/
theorem splitsByWhitespace_iff (isspace : Byte → Bool) (line : Line) :
    SplitsByWhitespace isspace line ↔ ∀ c ∈ line.text.getLast?, isspace c = true := by
  obtain ⟨tokens, hrun, hholds⟩ := tokenizeLine_eq isspace line
  rw [← maxRuns_ended_iff]
  constructor
  · rintro ⟨tokens', rs, hrun', hcontents, hruns⟩
    rw [hrun, Option.some_inj] at hrun'
    rw [← hrun', hholds.contents, Option.some_inj] at hcontents
    exact hcontents ▸ hruns
  · intro hruns
    exact ⟨tokens, _, hrun, hholds.contents, hruns⟩

/-- The line `a`, without a newline, loses its only token. -/
theorem not_splitsByWhitespace_a : ¬ SplitsByWhitespace LineInput.isspace ⟨[97#8], by decide⟩ := by
  rintro ⟨tokens, rs, hrun, hcontents, hruns⟩
  have hnone : (tokenizeLine LineInput.isspace [97#8, 0#8]).bind StringArray.contents =
      some [] := by decide
  rw [show tokenizeLine LineInput.isspace [97#8, 0#8] = some tokens from hrun, Option.bind_some,
    hcontents, Option.some_inj] at hnone
  rw [maxRuns_iff, hnone] at hruns
  exact absurd hruns (by decide)

/-- The strings of the array that `tokenize_line` returns. -/
def tokenList (isspace : Byte → Bool) (line : Line) : Option (List (List Byte)) := do
  (← tokenizeLine isspace line.memory).contents

theorem tokenList_eq (isspace : Byte → Bool) (line : Line) :
    tokenList isspace line = some (ended isspace line.text) := by
  obtain ⟨tokens, hrun, hholds⟩ := tokenizeLine_eq isspace line
  rw [tokenList, hrun, Option.bind_eq_bind, Option.bind_some, hholds.contents]

def Line.append (a b : Line) : Line where
  text := a.text ++ b.text
  noNul := by
    rw [List.mem_append, not_or]
    exact ⟨a.noNul, b.noNul⟩

/-- A non-empty string of white space. -/
structure Gap (isspace : Byte → Bool) extends Line where
  ne_nil : text ≠ []
  space : ∀ c ∈ text, isspace c = true

/-- The tokens before a gap and those after it are found independently, and the gap itself
leaves no trace. -/
theorem tokenList_append (isspace : Byte → Bool) (a b : Line) (w v : Gap isspace) :
    ∃ before after, tokenList isspace (a.append w.toLine) = some before ∧
      tokenList isspace b = some after ∧
      tokenList isspace (a.append (w.toLine.append b)) = some (before ++ after) ∧
      tokenList isspace (a.append (v.toLine.append b)) = some (before ++ after) := by
  have hgap : ∀ u : Gap isspace, ended isspace (a.text ++ (u.text ++ b.text)) =
      nonempty (a.text.splitOnP isspace) ++ ended isspace b.text :=
    fun u => ended_append_separators u.space u.ne_nil a.text b.text
  have hfirst : ended isspace (a.text ++ w.text) = nonempty (a.text.splitOnP isspace) := by
    have hend := ended_append_separators w.space w.ne_nil a.text []
    have hnone : ended isspace ([] : List Byte) = [] := ended_of_forall (by simp)
    rwa [hnone, List.append_nil, List.append_nil] at hend
  simp only [tokenList_eq, Line.append, hgap, hfirst]
  exact ⟨_, _, rfl, rfl, rfl, rfl⟩

/-- `ls` and `-l`, with a space or with two tabs between them. -/
theorem tokenList_append_ls :
    tokenList LineInput.isspace ⟨[108#8, 115#8, 32#8, 45#8, 108#8, 10#8], by decide⟩ =
        some [[108#8, 115#8], [45#8, 108#8]] ∧
      tokenList LineInput.isspace ⟨[108#8, 115#8, 9#8, 9#8, 45#8, 108#8, 10#8], by decide⟩ =
        some [[108#8, 115#8], [45#8, 108#8]] := by
  obtain ⟨before, after, hbefore, hafter, hspace, htabs⟩ := tokenList_append LineInput.isspace
    ⟨[108#8, 115#8], by decide⟩ ⟨[45#8, 108#8, 10#8], by decide⟩
    ⟨⟨[32#8], by decide⟩, by decide, by decide⟩ ⟨⟨[9#8, 9#8], by decide⟩, by decide, by decide⟩
  obtain rfl : [[108#8, 115#8]] = before := Option.some_injective _ (.trans (by decide) hbefore)
  obtain rfl : [[45#8, 108#8]] = after := Option.some_injective _ (.trans (by decide) hafter)
  exact ⟨hspace, htabs⟩

end OlinCourses.Shell
