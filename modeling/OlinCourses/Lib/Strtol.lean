import Mathlib.Data.List.TakeWhile
import Mathlib.Tactic
import OlinCourses.Lib.LineInput

/-!
# Reading a decimal integer

`strtol` in base ten and the C locale: white space, a sign, and as many digits as there are.
What follows the digits is ignored, and without digits nothing is read.
-/
namespace OlinCourses.Strtol
open LineInput (Byte isspace)

def isdigit (c : Byte) : Bool := 48#8 ≤ c && c ≤ 57#8

/-- The number that digits denote. -/
def digitsValue (digits : List Byte) : ℕ := digits.foldl (fun n c => 10 * n + (c.toNat - 48)) 0

inductive Sign
  | none
  | plus
  | minus
  deriving DecidableEq

def Sign.bytes : Sign → List Byte
  | none => []
  | plus => [43#8]
  | minus => [45#8]

def Sign.apply : Sign → ℕ → ℤ
  | none, n => n
  | plus, n => n
  | minus, n => -n

def readSign : List Byte → Sign
  | c :: _ => if c = 45#8 then .minus else if c = 43#8 then .plus else .none
  | [] => .none

/-- A `long` has 64 bits; a number out of range becomes the nearest one. -/
def clamp (n : ℤ) : ℤ := max (-2 ^ 63) (min (2 ^ 63 - 1) n)

/-- Conversion to a 32-bit `int`. -/
def toInt (n : ℤ) : ℤ := n.bmod (2 ^ 32)

/-- The number, and how many characters were read: where `endptr` points. -/
def strtol (s : List Byte) : ℤ × ℕ :=
  let spaces := s.takeWhile isspace
  let rest := s.drop spaces.length
  let sign := readSign rest
  let digits := (rest.drop sign.bytes.length).takeWhile isdigit
  if digits = [] then (0, 0)
  else (clamp (sign.apply (digitsValue digits)),
    spaces.length + sign.bytes.length + digits.length)

/-- A text that begins with a numeral, after white space. -/
structure Numeral where
  spaces : List Byte
  sign : Sign
  digits : List Byte
  rest : List Byte
  spaces_space : ∀ c ∈ spaces, isspace c = true
  digits_ne_nil : digits ≠ []
  digits_digit : ∀ c ∈ digits, isdigit c = true
  rest_head : ∀ c ∈ rest.head?, isdigit c = false

namespace Numeral

def bytes (n : Numeral) : List Byte := n.spaces ++ (n.sign.bytes ++ (n.digits ++ n.rest))

def value (n : Numeral) : ℤ := n.sign.apply (digitsValue n.digits)

/-- The characters up to the last digit. -/
def length (n : Numeral) : ℕ := n.spaces.length + n.sign.bytes.length + n.digits.length

end Numeral

theorem isspace_of_isdigit {c : Byte} (h : isdigit c = true) : isspace c = false := by
  revert c
  decide

theorem takeWhile_append {p : Byte → Bool} {before after : List Byte}
    (hbefore : ∀ c ∈ before, p c = true) (hafter : ∀ c ∈ after.head?, p c = false) :
    (before ++ after).takeWhile p = before := by
  rw [List.takeWhile_append_of_pos hbefore]
  cases after with
  | nil => rw [List.takeWhile_nil, List.append_nil]
  | cons c after =>
    rw [List.takeWhile_cons_of_neg (by simpa using hafter c rfl), List.append_nil]

theorem readSign_append (sign : Sign) {rest : List Byte}
    (h : ∀ c ∈ rest.head?, isdigit c = true) : readSign (sign.bytes ++ rest) = sign := by
  cases sign with
  | none =>
    cases rest with
    | nil => rfl
    | cons c rest =>
      have hdigit := h c rfl
      have hminus : c ≠ 45#8 := by
        rintro rfl
        cases hdigit
      have hplus : c ≠ 43#8 := by
        rintro rfl
        cases hdigit
      simp [Sign.bytes, readSign, hminus, hplus]
  | plus => rfl
  | minus => rfl

/-- `strtol` reads the numeral. -/
theorem strtol_bytes (n : Numeral) : strtol n.bytes = (clamp n.value, n.length) := by
  obtain ⟨d, ds, hdigits⟩ := List.exists_cons_of_ne_nil n.digits_ne_nil
  have hdigit : isdigit d = true := n.digits_digit d (by rw [hdigits]; exact List.mem_cons_self)
  have hhead : ∀ c ∈ (n.digits ++ n.rest).head?, isdigit c = true := by
    rw [hdigits]
    rintro c ⟨⟩
    exact hdigit
  have hstop : ∀ c ∈ (n.sign.bytes ++ (n.digits ++ n.rest)).head?, isspace c = false := by
    cases hsign : n.sign with
    | none => exact fun c hc => isspace_of_isdigit (hhead c hc)
    | plus =>
      rintro c ⟨⟩
      decide
    | minus =>
      rintro c ⟨⟩
      decide
  have hspaces : n.bytes.takeWhile isspace = n.spaces := takeWhile_append n.spaces_space hstop
  have hrest : n.bytes.drop n.spaces.length = n.sign.bytes ++ (n.digits ++ n.rest) :=
    List.drop_left
  have hnumber : (n.digits ++ n.rest).takeWhile isdigit = n.digits :=
    takeWhile_append n.digits_digit n.rest_head
  simp only [strtol, hspaces, hrest, readSign_append n.sign hhead, List.drop_left, hnumber,
    n.digits_ne_nil, if_false]
  rfl

theorem prefix_readSign (s : List Byte) : (readSign s).bytes <+: s := by
  cases s with
  | nil => exact List.nil_prefix
  | cons c s =>
    rw [readSign]
    split_ifs with hminus hplus
    · rw [hminus]
      exact ⟨s, rfl⟩
    · rw [hplus]
      exact ⟨s, rfl⟩
    · exact List.nil_prefix

theorem head_dropWhile {p : Byte → Bool} (s : List Byte) :
    ∀ c ∈ (s.dropWhile p).head?, p c = false := by
  intro c hc
  have hnot := List.head?_dropWhile_not p s
  rw [Option.mem_def.mp hc] at hnot
  simpa using hnot

/-- A text begins with a numeral, or nothing is read. -/
theorem exists_numeral_or (s : List Byte) : (∃ n : Numeral, n.bytes = s) ∨ strtol s = (0, 0) := by
  obtain ⟨rest, hrest⟩ : ∃ rest, rest = s.drop (s.takeWhile isspace).length := ⟨_, rfl⟩
  obtain ⟨tail, htail⟩ := prefix_readSign rest
  have hdrop : rest.drop (readSign rest).bytes.length = tail := by
    have hsign := congrArg (List.drop (readSign rest).bytes.length) htail
    rwa [List.drop_left, eq_comm] at hsign
  by_cases hdigits : tail.takeWhile isdigit = []
  · refine Or.inr ?_
    simp only [strtol, ← hrest, hdrop, hdigits, if_true]
  · refine Or.inl ⟨⟨s.takeWhile isspace, readSign rest, tail.takeWhile isdigit,
      tail.dropWhile isdigit, fun c hc => List.mem_takeWhile_imp hc, hdigits,
      fun c hc => List.mem_takeWhile_imp hc, head_dropWhile tail⟩, ?_⟩
    rw [Numeral.bytes, List.takeWhile_append_dropWhile, htail, hrest]
    exact (List.prefix_append_drop (List.takeWhile_prefix isspace)).symm

/-- A numeral with nothing after it ends in a digit. -/
theorem Numeral.isdigit_of_rest_eq_nil (n : Numeral) (h : n.rest = []) {c : Byte}
    (hc : n.bytes.getLast? = some c) : isdigit c = true := by
  rw [Numeral.bytes, h, List.append_nil, ← List.append_assoc,
    List.getLast?_append_of_ne_nil _ n.digits_ne_nil] at hc
  exact n.digits_digit c (List.mem_of_getLast? hc)

/-- A numeral does not need the character after it. -/
theorem Numeral.exists_dropLast (n : Numeral) {s : List Byte} {c : Byte}
    (hc : isdigit c = false) (h : n.bytes = s ++ [c]) :
    ∃ n' : Numeral, n'.bytes = s ∧ n'.value = n.value := by
  obtain hnil | ⟨rest, c', hrest⟩ := List.eq_nil_or_concat' n.rest
  · -- the last character would be a digit
    rw [n.isdigit_of_rest_eq_nil hnil (by rw [h, List.getLast?_concat])] at hc
    cases hc
  · have hbytes : n.bytes = n.spaces ++ (n.sign.bytes ++ (n.digits ++ rest)) ++ [c'] := by
      rw [Numeral.bytes, hrest]
      simp only [List.append_assoc]
    rw [hbytes, List.append_singleton_inj] at h
    have hhead : ∀ d ∈ rest.head?, isdigit d = false := by
      intro d hd
      refine n.rest_head d ?_
      rw [hrest, List.head?_append, Option.mem_def.mp hd]
      rfl
    exact ⟨{ n with rest, rest_head := hhead }, h.1, rfl⟩

/-- Nor does it change with it. -/
theorem strtol_append (n : Numeral) {c : Byte} (hc : isdigit c = false) :
    strtol (n.bytes ++ [c]) = (clamp n.value, n.length) := by
  have hhead : ∀ d ∈ (n.rest ++ [c]).head?, isdigit d = false := by
    cases hrest : n.rest with
    | nil =>
      rintro d ⟨⟩
      exact hc
    | cons d rest =>
      rintro d' ⟨⟩
      exact n.rest_head d (by rw [hrest]; rfl)
  have hbytes : n.bytes ++ [c] =
      Numeral.bytes { n with rest := n.rest ++ [c], rest_head := hhead } := by
    simp only [Numeral.bytes, List.append_assoc]
  rw [hbytes, strtol_bytes]
  rfl

/-- One character is read where a single digit stands at the start. -/
theorem strtol_snd_eq_one_iff (s : List Byte) : (strtol s).2 = 1 ↔
    ∃ c tail, s = c :: tail ∧ isdigit c = true ∧ ∀ c' ∈ tail.head?, isdigit c' = false := by
  constructor
  · intro h
    obtain ⟨n, rfl⟩ | hnone := exists_numeral_or s
    · have hlength : n.spaces.length + n.sign.bytes.length + n.digits.length = 1 := by
        rwa [strtol_bytes] at h
      have hpos := List.length_pos_iff.mpr n.digits_ne_nil
      obtain ⟨c, hc⟩ := List.length_eq_one_iff.mp (show n.digits.length = 1 by omega)
      have hspaces : n.spaces = [] := List.length_eq_zero_iff.mp (by omega)
      have hsign : n.sign.bytes = [] := List.length_eq_zero_iff.mp (by omega)
      refine ⟨c, n.rest, ?_, n.digits_digit c (by rw [hc]; exact List.mem_cons_self), n.rest_head⟩
      rw [Numeral.bytes, hspaces, hsign, hc]
      rfl
    · rw [hnone] at h
      cases h
  · rintro ⟨c, tail, rfl, hc, htail⟩
    exact congrArg Prod.snd (strtol_bytes ⟨[], .none, [c], tail, nofun, by simp,
      by simpa using hc, htail⟩)

theorem digit_lt {c : Byte} (h : isdigit c = true) : c.toNat - 48 < 10 := by
  revert c
  decide

theorem digitsValue_lt (digits : List Byte) (h : ∀ c ∈ digits, isdigit c = true) :
    digitsValue digits < 10 ^ digits.length := by
  induction digits using List.reverseRecOn with
  | nil => decide
  | append_singleton digits c ih =>
    have hvalue := ih fun c' hc' => h c' (by simp [hc'])
    have hc := digit_lt (h c (by simp))
    rw [digitsValue, List.foldl_concat, ← digitsValue, List.length_append, List.length_singleton,
      pow_succ]
    omega

theorem clamp_eq {n : ℤ} (hlow : -2 ^ 63 ≤ n) (hhigh : n < 2 ^ 63) : clamp n = n := by
  unfold clamp
  omega

end OlinCourses.Strtol
