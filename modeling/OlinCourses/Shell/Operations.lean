import OlinCourses.Lib.Transition
import OlinCourses.Shell.StringArray

/-!
# Sequences of operations on a string array

An array made by `make_string_array` represents a list of strings through every
sequence of `add_string` and `resize`. Capacities are natural numbers: below `2^60`
neither the doubling nor an allocation size wraps in `size_t`.
-/
namespace OlinCourses.Shell
open Transition

/-- A call on an array. The memory that may be read from a string on is given as a list. -/
inductive Operation
  | add (string : List Byte) (size : ℕ)
  | resize (capacity : ℕ)

namespace Operation

/-- The size of an added string does not exceed its readable length. -/
def Readable : Operation → Prop
  | add string size => size ≤ string.length
  | resize _ => True

def exec (array : StringArray) : Operation → Option StringArray
  | add string size => addString array string size
  | resize capacity => Shell.resize array capacity

/-- What the call does to a list of strings. -/
def apply (strings : List (List Byte)) : Operation → List (List Byte)
  | add string size => strings ++ [cut string size]
  | resize capacity => strings.take capacity

/-- The capacity after the call. -/
def capacityAfter (array : StringArray) : Operation → ℕ
  | add _ _ => nextCapacity array
  | resize capacity => capacity

theorem exec_spec {array : StringArray} {strings : List (List Byte)} (h : Holds array strings)
    {op : Operation} (hop : op.Readable) :
    ∃ array', op.exec array = some array' ∧ Holds array' (op.apply strings) ∧
      array'.capacity = op.capacityAfter array := by
  cases op with
  | add string size => exact addString_spec h string size hop
  | resize capacity => exact resize_spec h capacity

end Operation

/-- The array with its sentinel: `strings` are its entries as C strings. -/
structure Represents (array : StringArray) (strings : List (List Byte)) : Prop where
  size_le : array.size ≤ array.capacity
  slots : array.strings.length = array.capacity + 1
  nonNull : ∀ i < array.size, ∃ bytes, array.strings[i]? = some (.block bytes)
  sentinel : array.strings[array.size]? = some .null
  contents : array.contents = some strings

theorem Holds.represents {array : StringArray} {strings : List (List Byte)}
    (h : Holds array strings) : Represents array strings := by
  obtain ⟨used, rest, heq, hused⟩ := h.strings
  have hlen : used.length = array.size := (used_length hused).trans h.size.symm
  refine ⟨h.size_le, h.slots, fun i hi => ?_, ?_, h.contents⟩
  · have hi' : i < used.length := by omega
    have hit : i < strings.length := h.size ▸ hi
    have hentry : Slot.cString used[i] = some strings[i] := by
      have hmap := congrArg (·[i]?) hused
      simpa [hi', hit] using hmap
    obtain ⟨bytes, hbytes⟩ := exists_block_of_cString hentry
    exact ⟨bytes, by rw [heq, List.getElem?_append_left hi', List.getElem?_eq_getElem hi', hbytes]⟩
  · rw [heq, ← hlen]
    simp

/-- Every sequence of operations succeeds, and the array represents the list model. -/
theorem run_holds {array : StringArray} {strings : List (List Byte)} (h : Holds array strings)
    (ops : List Operation) (hops : ∀ op ∈ ops, op.Readable) :
    ∃ array', run Operation.exec array ops = some array' ∧
      Holds array' (ops.foldl Operation.apply strings) := by
  induction ops generalizing array strings with
  | nil => exact ⟨array, rfl, h⟩
  | cons op ops ih =>
    obtain ⟨mid, hexec, hmid, -⟩ := Operation.exec_spec h (hops op List.mem_cons_self)
    obtain ⟨array', hrun, hholds⟩ := ih hmid fun op' hop' => hops op' (List.mem_cons_of_mem op hop')
    exact ⟨array', by rw [run_cons, hexec, Option.bind_some, hrun], hholds⟩

/-- After every sequence of operations the array represents the list model, and the
capacity changes in the next `add_string` only when the array is full. -/
theorem operations_represent (capacity : ℕ) (ops : List Operation)
    (hops : ∀ op ∈ ops, op.Readable) :
    ∃ array, run Operation.exec (makeStringArray capacity) ops = some array ∧
      Represents array (ops.foldl Operation.apply []) ∧
      ∀ string size, size ≤ string.length →
        ∃ array', addString array string size = some array' ∧
          (array.size < array.capacity → array'.capacity = array.capacity) ∧
          (array.size = array.capacity → array'.capacity =
            if array.capacity = 0 then 1 else array.capacity * 2) := by
  obtain ⟨array, hrun, hholds⟩ := run_holds (holds_makeStringArray capacity) ops hops
  refine ⟨array, hrun, hholds.represents, fun string size hsize => ?_⟩
  obtain ⟨array', hadd, -, hcap⟩ := addString_spec hholds string size hsize
  refine ⟨array', hadd, fun hroom => ?_, fun hfull => ?_⟩
  · rw [hcap, nextCapacity, if_neg (by omega)]
  · rw [hcap, nextCapacity, if_pos hfull]

/-- An array without capacity: `"a\0b"` is cut at its NUL, and a `resize` drops it again. -/
theorem operations_represent_zero :
    ∃ array, run Operation.exec (makeStringArray 0)
        [.add [97#8, 0#8, 98#8] 3, .add [99#8, 100#8] 1, .resize 1] = some array ∧
      Represents array [[97#8]] := by
  obtain ⟨array, hrun, hrep, -⟩ := operations_represent 0
    [.add [97#8, 0#8, 98#8] 3, .add [99#8, 100#8] 1, .resize 1]
    (by simp [Operation.Readable])
  exact ⟨array, hrun, hrep⟩

end OlinCourses.Shell
