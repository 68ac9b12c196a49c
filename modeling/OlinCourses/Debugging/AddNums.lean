import OlinCourses.Lib.Recording

/-!
# Sums of squares

`add_nums.c`: the elements of an array are replaced by their squares, and added. The loop
advances its index and its pointer before it uses them, so that it replaces the elements after
the first one.
-/
namespace OlinCourses.Debugging
open Recording

def FitsInt (x : ℤ) : Prop := -2 ^ 31 ≤ x ∧ x < 2 ^ 31

instance (x : ℤ) : Decidable (FitsInt x) := inferInstanceAs (Decidable (_ ∧ _))

/-- The program runs on the array and records the indices that it reads or writes. An index out
of bounds and an overflow are undefined, written `none`. -/
def checked (x : ℤ) : Program (List ℤ) ℤ ℤ :=
  act fun numArray => if FitsInt x then some (x, numArray) else none

def read (index : ℤ) : Program (List ℤ) ℤ ℤ := do
  record index
  act fun numArray =>
    if 0 ≤ index then numArray[index.toNat]?.map fun num => (num, numArray) else none

/-- An address is given by its index. -/
def rewriteArrayValue (numAddr newValue : ℤ) : Program (List ℤ) ℤ Unit := do
  record numAddr
  act fun numArray =>
    if 0 ≤ numAddr ∧ numAddr.toNat < numArray.length then
      some ((), numArray.set numAddr.toNat newValue)
    else none

def arraySumFrom (numArrayLen i sum : ℤ) : Program (List ℤ) ℤ ℤ := do
  if i < numArrayLen then
    let num ← read i
    let sum ← checked (sum + num)
    arraySumFrom numArrayLen (i + 1) sum
  else return sum
termination_by (numArrayLen - i).toNat

def arraySum (numArrayLen : ℤ) : Program (List ℤ) ℤ ℤ := arraySumFrom numArrayLen 0 0

def square (num : ℤ) : Program (List ℤ) ℤ ℤ := checked (num * num)

/-- The `while` loop. Both increments come before the accesses. -/
def squareFrom (numArrayLen index currentPosition : ℤ) : Program (List ℤ) ℤ Unit := do
  if index < numArrayLen then
    let currentPosition := currentPosition + 1
    let index := index + 1
    let num ← read index
    let newValue ← square num
    rewriteArrayValue currentPosition newValue
    squareFrom numArrayLen index currentPosition
  else pure ()
termination_by (numArrayLen - index).toNat

def squareSum (numArrayLen : ℤ) : Program (List ℤ) ℤ ℤ := do
  squareFrom numArrayLen 0 0
  arraySum numArrayLen

section Access

variable {front rest : List ℤ} {num index : ℤ} (hindex : index = front.length)

include hindex

theorem run_read : (read index).run (front ++ num :: rest) = some (num, front ++ num :: rest) := by
  subst hindex
  simp [read]

theorem run_rewriteArrayValue (newValue : ℤ) :
    (rewriteArrayValue index newValue).run (front ++ num :: rest) =
      some ((), front ++ newValue :: rest) := by
  subst hindex
  simp [rewriteArrayValue]

end Access

theorem run_checked {x : ℤ} (hx : FitsInt x) (numArray : List ℤ) :
    (checked x).run numArray = some (x, numArray) := by
  rw [checked, run_act, if_pos hx]

def squares (nums : List ℤ) : List ℤ := nums.map fun num => num * num

/-- Index and pointer are equal and one short of the next element to be squared. -/
theorem run_squareFrom {front todo : List ℤ} (rest : List ℤ)
    (hfits : ∀ num ∈ todo, FitsInt (num * num)) {index : ℤ} (hindex : index + 1 = front.length) :
    (squareFrom (index + todo.length) index index).run (front ++ todo ++ rest) =
      some ((), front ++ squares todo ++ rest) := by
  induction todo generalizing front index with
  | nil =>
    rw [squareFrom, if_neg (by simp)]
    rfl
  | cons num todo ih =>
    have hlt : index < index + (num :: todo).length := by simp
    have hlen : index + (num :: todo).length = index + 1 + todo.length := by
      rw [List.length_cons]
      omega
    have hnext : index + 1 + 1 = (front ++ [num * num]).length := by simp [hindex]
    have hrest := ih (fun other hmem => hfits other (List.mem_cons_of_mem _ hmem)) hnext
    simp only [List.append_assoc, List.cons_append, List.nil_append] at hrest
    rw [squareFrom, if_pos hlt]
    simp only [run_bind, square, List.append_assoc, List.cons_append, run_read hindex,
      run_checked (hfits num List.mem_cons_self), run_rewriteArrayValue hindex,
      Option.bind_some]
    rw [hlen, hrest]
    rfl

/-- The sums only grow, so it is enough that the last one fits. -/
theorem run_arraySumFrom {front todo : List ℤ} (rest : List ℤ) (hnonneg : ∀ num ∈ todo, 0 ≤ num)
    {i sum : ℤ} (hi : i = front.length) (hlow : -2 ^ 31 ≤ sum)
    (hhigh : sum + todo.sum < 2 ^ 31) :
    (arraySumFrom (i + todo.length) i sum).run (front ++ todo ++ rest) =
      some (sum + todo.sum, front ++ todo ++ rest) := by
  induction todo generalizing front i sum with
  | nil =>
    rw [arraySumFrom, if_neg (by simp)]
    simp
  | cons num todo ih =>
    have hnum : 0 ≤ num := hnonneg num List.mem_cons_self
    have htodo : ∀ other ∈ todo, 0 ≤ other := fun other hmem =>
      hnonneg other (List.mem_cons_of_mem _ hmem)
    have hsum : 0 ≤ todo.sum := List.sum_nonneg htodo
    have hlt : i < i + (num :: todo).length := by simp
    have hlen : i + (num :: todo).length = i + 1 + todo.length := by
      rw [List.length_cons]
      omega
    rw [List.sum_cons] at hhigh
    have hfits : FitsInt (sum + num) := ⟨by omega, by omega⟩
    have hnext : i + 1 = (front ++ [num]).length := by simp [hi]
    have hrest := ih htodo hnext hfits.1 (by omega)
    simp only [List.append_assoc, List.cons_append, List.nil_append] at hrest
    rw [arraySumFrom, if_pos hlt]
    simp only [run_bind, List.append_assoc, List.cons_append, run_read hi, run_checked hfits,
      Option.bind_some]
    rw [hlen, hrest, List.sum_cons, add_assoc]

theorem squares_nonneg (nums : List ℤ) : ∀ num ∈ squares nums, 0 ≤ num :=
  List.forall_mem_map.mpr fun num _ => mul_self_nonneg num

theorem run_arraySum {first : ℤ} {todo : List ℤ} (rest : List ℤ)
    (hnonneg : ∀ num ∈ todo, 0 ≤ num) (hlow : -2 ^ 31 ≤ first)
    (hhigh : first + todo.sum < 2 ^ 31) :
    (arraySum (1 + todo.length)).run (first :: (todo ++ rest)) =
      some (first + todo.sum, first :: (todo ++ rest)) := by
  have hsum : 0 ≤ todo.sum := List.sum_nonneg hnonneg
  have hpos : (0 : ℤ) < 1 + todo.length := by omega
  have hfits : FitsInt (0 + first) := ⟨by omega, by omega⟩
  have hread : (read 0).run (first :: (todo ++ rest)) = some (first, first :: (todo ++ rest)) :=
    run_read (show (0 : ℤ) = ([] : List ℤ).length from rfl)
  have hsecond : (1 : ℤ) = [first].length := rfl
  have hrest := run_arraySumFrom rest hnonneg hsecond hlow hhigh
  rw [List.append_assoc, List.singleton_append] at hrest
  rw [arraySum, arraySumFrom, if_pos hpos, run_bind, hread, Option.bind_some, run_bind,
    run_checked hfits, Option.bind_some, zero_add, zero_add, hrest]

/-- The first element is added as it is, and the last one is squared but not added. -/
theorem run_squareSum (first last : ℤ) (mid rest : List ℤ)
    (hfits : ∀ num ∈ mid ++ [last], FitsInt (num * num)) (hlow : -2 ^ 31 ≤ first)
    (hhigh : first + (squares mid).sum < 2 ^ 31) :
    (squareSum (1 + mid.length)).run (first :: (mid ++ [last] ++ rest)) =
      some (first + (squares mid).sum, first :: (squares (mid ++ [last]) ++ rest)) := by
  have hlen : (0 : ℤ) + (mid ++ [last]).length = 1 + mid.length := by
    rw [List.length_append, List.length_singleton]
    omega
  have hmid : (squares mid).length = mid.length := List.length_map _
  have hlast : squares (mid ++ [last]) ++ rest = squares mid ++ (last * last :: rest) := by
    simp [squares]
  have hsquare : (squareFrom (1 + mid.length) 0 0).run (first :: (mid ++ [last] ++ rest)) =
      some ((), first :: (squares (mid ++ [last]) ++ rest)) := by
    rw [← hlen]
    have hsecond : (0 : ℤ) + 1 = [first].length := rfl
    exact run_squareFrom rest hfits hsecond
  have hadd := run_arraySum (last * last :: rest) (squares_nonneg mid) hlow hhigh
  rw [hmid] at hadd
  rw [squareSum, run_bind, hsquare, Option.bind_some, hlast, hadd]

theorem run_squareFrom_length {front todo : List ℤ} {index : ℤ}
    (hindex : index + 1 = front.length) :
    (squareFrom (index + 1 + todo.length) index index).run (front ++ todo) = none := by
  induction todo generalizing front index with
  | nil =>
    have hread : (read (index + 1)).run (front ++ []) = none := by
      simp [read, hindex]
    rw [squareFrom, if_pos (by simp), run_bind, hread]
    rfl
  | cons num todo ih =>
    have hlen : index + 1 + (num :: todo).length = index + 1 + 1 + todo.length := by
      rw [List.length_cons]
      omega
    have hnext : index + 1 + 1 = (front ++ [num * num]).length := by simp [hindex]
    have hrest := ih hnext
    rw [List.append_assoc, List.singleton_append] at hrest
    rw [squareFrom, if_pos (by omega), run_bind, run_read hindex, Option.bind_some, run_bind]
    by_cases hfits : FitsInt (num * num)
    · rw [square, run_checked hfits, Option.bind_some, run_bind, run_rewriteArrayValue hindex,
        Option.bind_some, hlen, hrest]
    · rw [square, checked, run_act, if_neg hfits]
      rfl

/-- For a whole array, the loop reads beyond its end. -/
theorem run_squareSum_length (first : ℤ) (todo : List ℤ) :
    (squareSum (first :: todo).length).run (first :: todo) = none := by
  have hsecond : (0 : ℤ) + 1 = [first].length := rfl
  have hloop : (squareFrom (0 + 1 + todo.length) 0 0).run (first :: todo) = none :=
    run_squareFrom_length hsecond
  have hlen : ((first :: todo).length : ℤ) = 0 + 1 + todo.length := by
    rw [List.length_cons]
    omega
  rw [squareSum, run_bind, hlen, hloop]
  rfl

/-- The loop reaches the index `numArrayLen`. -/
theorem emits_squareFrom {numArrayLen index : ℤ} (hlt : index < numArrayLen)
    (currentPosition : ℤ) : (squareFrom numArrayLen index currentPosition).Emits
      (numArrayLen ∈ ·) := by
  induction hn : (numArrayLen - index).toNat generalizing index currentPosition with
  | zero => omega
  | succ n ih =>
    rw [squareFrom, if_pos hlt]
    obtain heq | hne : index + 1 = numArrayLen ∨ index + 1 < numArrayLen := by omega
    · have hread : (read (index + 1)).Emits (numArrayLen ∈ ·) :=
        Program.Emits.mem_left (emits_record (by rw [heq]; exact List.mem_cons_self))
      exact hread.mem_left
    · exact Program.Emits.mem_right fun num => Program.Emits.mem_right fun newValue =>
        Program.Emits.mem_right fun _ => ih hne _ (by omega)

/-- The call returns the sum of the first `n` squares, and only the first `n` elements are read
or written. -/
def SumsSquares (numArray : List ℤ) (n : ℤ) : Prop :=
  ∃ r, squareSum n numArray = some r ∧ r.value = (squares (numArray.take n.toNat)).sum ∧
    ∀ index ∈ r.events, 0 ≤ index ∧ index < n

variable {numArray : List ℤ} {n : ℤ}

theorem sumsSquares_of_nonpos (hn : n ≤ 0) : SumsSquares numArray n := by
  have hcall : squareSum n numArray = some ⟨0, numArray, []⟩ := by
    rw [squareSum, squareFrom, if_neg (by omega), arraySum, arraySumFrom, if_neg (by omega)]
    rfl
  have htake : numArray.take n.toNat = [] := by
    rw [Int.toNat_of_nonpos hn, List.take_zero]
  refine ⟨_, hcall, ?_, ?_⟩
  · rw [htake]
    rfl
  · simp

theorem not_sumsSquares_of_pos (hn : 0 < n) : ¬ SumsSquares numArray n := by
  rintro ⟨r, hr, -, hbelow⟩
  have hreach : (squareSum n).Emits (n ∈ ·) := (emits_squareFrom hn 0).mem_left
  exact lt_irrefl n (hbelow n (hreach numArray r hr)).2

/-- Only the empty sum is right. -/
theorem sumsSquares_iff (numArray : List ℤ) (n : ℤ) : SumsSquares numArray n ↔ n ≤ 0 := by
  constructor
  · intro h
    by_contra hpos
    exact not_sumsSquares_of_pos (by omega) h
  · exact sumsSquares_of_nonpos

/-- The first square is 4, and the call returns 2 and squares the second element. -/
theorem not_sumsSquares_two_three : ¬ SumsSquares [2, 3] 1 ∧
    (squareSum 1).run [2, 3] = some (2, [2, 9]) :=
  ⟨not_sumsSquares_of_pos (by decide),
    run_squareSum 2 3 [] [] (by decide) (by decide) (by decide)⟩

end OlinCourses.Debugging
