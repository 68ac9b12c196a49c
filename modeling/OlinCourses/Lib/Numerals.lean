import Mathlib.Data.List.Count
import Mathlib.Tactic

/-!
# Files of numerals

Natural numbers written one a line in a base up to 16, padded with zeros, and read back
as numerals in either case that white space separates.
-/
namespace OlinCourses.Numerals

def charValue (c : Char) : Option ℕ :=
  if '0' ≤ c ∧ c ≤ '9' then some (c.toNat - '0'.toNat)
  else if 'a' ≤ c ∧ c ≤ 'f' then some (10 + (c.toNat - 'a'.toNat))
  else if 'A' ≤ c ∧ c ≤ 'F' then some (10 + (c.toNat - 'A'.toNat))
  else none

/-- The value of a digit character in base `b`. -/
def digitValue (b : ℕ) (c : Char) : Option ℕ := (charValue c).filter (· < b)

/-- Read numerals; `pending` is the value of the digits since the last white space. -/
def readNumbers (b : ℕ) (pending : Option ℕ) : List Char → Option (List ℕ)
  | [] => some pending.toList
  | c :: cs =>
    if c.isWhitespace then (readNumbers b none cs).map (pending.toList ++ ·)
    else do
      let d ← digitValue b c
      readNumbers b (some (b * pending.getD 0 + d)) cs

/-- A numeral of at least `width` digits. -/
def padded (b width n : ℕ) : List Char :=
  List.replicate (width - (Nat.toDigits b n).length) '0' ++ Nat.toDigits b n

def writeNumbers (b width : ℕ) (ns : List ℕ) : List Char :=
  ns.flatMap fun n => padded b width n ++ ['\n']

variable {b : ℕ}

theorem charValue_digitChar {d : ℕ} (hd : d < 16) :
    charValue d.digitChar = some d ∧ d.digitChar.isWhitespace = false := by
  have hall : ∀ e ∈ List.range 16, charValue e.digitChar = some e ∧
      e.digitChar.isWhitespace = false := by decide
  exact hall d (List.mem_range.mpr hd)

theorem digitValue_digitChar (hb : b ≤ 16) {d : ℕ} (hd : d < b) :
    digitValue b d.digitChar = some d := by
  rw [digitValue, (charValue_digitChar (hd.trans_le hb)).1]
  simp [Option.filter, hd]

theorem readNumbers_digitChar (hb : b ≤ 16) {d : ℕ} (hd : d < b) (pending : Option ℕ)
    (cs : List Char) : readNumbers b pending (d.digitChar :: cs) =
      readNumbers b (some (b * pending.getD 0 + d)) cs := by
  have hspace := (charValue_digitChar (hd.trans_le hb)).2
  rw [readNumbers, hspace, digitValue_digitChar hb hd]
  rfl

/-- The digits of a number are read as the number. -/
theorem readNumbers_toDigits (hb : 1 < b) (hb' : b ≤ 16) (n : ℕ) {pending : Option ℕ}
    (hpending : pending.getD 0 = 0) (cs : List Char) :
    readNumbers b pending (Nat.toDigits b n ++ cs) = readNumbers b (some n) cs := by
  induction n using Nat.base_induction b hb generalizing cs with
  | single m hm =>
    rw [Nat.toDigits_of_lt_base hm, List.singleton_append, readNumbers_digitChar hb' hm, hpending,
      Nat.mul_zero, Nat.zero_add]
  | digit m k hk hm ih =>
    rw [← Nat.toDigits_append_toDigits hb hm hk, List.append_assoc, ih,
      Nat.toDigits_of_lt_base hk, List.singleton_append, readNumbers_digitChar hb' hk,
      Option.getD_some]

theorem readNumbers_padded (hb : 1 < b) (hb' : b ≤ 16) (width n : ℕ) (cs : List Char) :
    readNumbers b none (padded b width n ++ cs) = readNumbers b (some n) cs := by
  have hzeros : ∀ k (pending : Option ℕ), pending.getD 0 = 0 →
      readNumbers b pending (List.replicate k '0' ++ (Nat.toDigits b n ++ cs)) =
        readNumbers b (some n) cs := by
    intro k
    induction k with
    | zero => exact fun pending hpending => readNumbers_toDigits hb hb' n hpending cs
    | succ k ih =>
      intro pending hpending
      have hzero : '0' = Nat.digitChar 0 := rfl
      rw [List.replicate_succ, List.cons_append]
      nth_rewrite 1 [hzero]
      rw [readNumbers_digitChar hb' (by omega), hpending]
      exact ih (some (b * 0 + 0)) (by simp)
  rw [padded, List.append_assoc]
  exact hzeros _ none rfl

/-- What was written is read back. -/
theorem readNumbers_writeNumbers (hb : 1 < b) (hb' : b ≤ 16) (width : ℕ) (ns : List ℕ) :
    readNumbers b none (writeNumbers b width ns) = some ns := by
  induction ns with
  | nil => rfl
  | cons n ns ih =>
    have hline : writeNumbers b width (n :: ns) =
        padded b width n ++ '\n' :: writeNumbers b width ns := by
      rw [writeNumbers, List.flatMap_cons, List.append_assoc]
      rfl
    have hnewline : '\n'.isWhitespace = true := by decide
    rw [hline, readNumbers_padded hb hb', readNumbers, if_pos hnewline, ih]
    rfl

theorem notMem_toDigits (hb : 1 < b) (hb' : b ≤ 16) (n : ℕ) : '\n' ∉ Nat.toDigits b n := by
  have hdigit : ∀ d < b, '\n' ≠ d.digitChar := by
    intro d hd heq
    have hspace := (charValue_digitChar (hd.trans_le hb')).2
    rw [← heq] at hspace
    exact absurd hspace (by decide)
  induction n using Nat.base_induction b hb with
  | single m hm =>
    rw [Nat.toDigits_of_lt_base hm, List.mem_singleton]
    exact hdigit m hm
  | digit m k hk hm ih =>
    rw [← Nat.toDigits_append_toDigits hb hm hk, Nat.toDigits_of_lt_base hk, List.mem_append,
      List.mem_singleton]
    exact not_or.mpr ⟨ih, hdigit k hk⟩

/-- One line for each number. -/
theorem count_newline_writeNumbers (hb : 1 < b) (hb' : b ≤ 16) (width : ℕ) (ns : List ℕ) :
    (writeNumbers b width ns).count '\n' = ns.length := by
  induction ns with
  | nil => rfl
  | cons n ns ih =>
    have hpadded : (padded b width n).count '\n' = 0 := by
      rw [List.count_eq_zero, padded, List.mem_append, List.mem_replicate]
      exact not_or.mpr ⟨fun h => absurd h.2 (by decide), notMem_toDigits hb hb' n⟩
    rw [writeNumbers, List.flatMap_cons, List.count_append, List.count_append, hpadded,
      ← writeNumbers, ih, List.length_cons]
    simp
    omega

end OlinCourses.Numerals
