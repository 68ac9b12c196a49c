import Mathlib.Data.List.TakeWhile
import Mathlib.Tactic
import OlinCourses.Lib.Loop

/-!
# String arrays

`string_array.c`: a growable array of C strings that ends in a null pointer. Memory
from `malloc` and `realloc` is uninitialised; reading it, or touching a slot outside
the allocation, is undefined behaviour, written `none`.
-/
namespace OlinCourses.Shell
open Loop

abbrev Byte := BitVec 8

/-- A `char*` in the array: uninitialised or freed, null, or a block of its own. -/
inductive Slot
  | garbage
  | null
  | block (bytes : List (Option Byte))

/-- The C string at the start of a block. -/
def cString : List (Option Byte) → Option (List Byte)
  | some c :: rest => if c = 0#8 then some [] else (cString rest).map (c :: ·)
  | _ => none

def Slot.cString : Slot → Option (List Byte)
  | .block bytes => Shell.cString bytes
  | _ => none

structure StringArray where
  strings : List Slot
  size : ℕ
  capacity : ℕ

/-- `xs[i] = x` within the allocation. -/
def assign {α : Type} (xs : List α) (i : ℕ) (x : α) : Option (List α) :=
  if i < xs.length then some (xs.set i x) else none

/-- `free` of a pointer; it may be null but not uninitialised. -/
def free : Slot → Option Slot
  | .garbage => none
  | .null => some .null
  | .block _ => some .garbage

/-- `realloc` to `n` slots. -/
def reallocSlots (strings : List Slot) (n : ℕ) : List Slot :=
  strings.take n ++ List.replicate (n - strings.length) .garbage

def makeStringArray (capacity : ℕ) : StringArray where
  strings := (List.replicate (capacity + 1) Slot.garbage).set 0 .null
  size := 0
  capacity := capacity

/-- The loop that frees the strings from `i` on, `n` of them. -/
def freeFrom (strings : List Slot) (i : ℕ) : ℕ → Option (List Slot)
  | 0 => some strings
  | n + 1 => do
    let freed ← free (← strings[i]?)
    freeFrom (strings.set i freed) (i + 1) n

def resize (array : StringArray) (capacity : ℕ) : Option StringArray := do
  let array ←
    if capacity < array.size then do
      let strings ← freeFrom array.strings capacity (array.size - capacity)
      pure { array with strings, size := capacity }
    else pure array
  let strings ← assign (reallocSlots array.strings (capacity + 1)) capacity .null
  return { array with strings, capacity }

/-- The copying loop of `add_string` from position `i`, with `n` positions to go;
`string` is the memory that may be read from the pointer on. -/
def copyFrom (string : List Byte) (i : ℕ) : ℕ → List (Option Byte) → Option (List (Option Byte))
  | 0, block => some block
  | n + 1, block => do
    let c ← string[i]?
    let block ← assign block i (some c)
    if c = 0#8 then some block else copyFrom string (i + 1) n block

def addString (array : StringArray) (string : List Byte) (size : ℕ) : Option StringArray := do
  let array ←
    if array.size = array.capacity then
      resize array (if array.capacity = 0 then 1 else array.capacity * 2)
    else pure array
  let block ← copyFrom string 0 size (List.replicate (size + 1) none)
  let block ← assign block size (some 0#8)
  let strings ← assign array.strings array.size (.block block)
  let strings ← assign strings (array.size + 1) .null
  return { array with strings, size := array.size + 1 }

/-- The strings of the array, in order. -/
def StringArray.contents (array : StringArray) : Option (List (List Byte)) :=
  (array.strings.take array.size).mapM Slot.cString

/-- The array holds the strings `ts`, followed by the sentinel. -/
structure Holds (array : StringArray) (ts : List (List Byte)) : Prop where
  size : array.size = ts.length
  slots : array.strings.length = array.capacity + 1
  strings : ∃ used rest, array.strings = used ++ .null :: rest ∧
    used.map Slot.cString = ts.map some

namespace Holds

variable {array : StringArray} {ts : List (List Byte)}

theorem used_length {used : List Slot} (h : used.map Slot.cString = ts.map some) :
    used.length = ts.length := by
  simpa using congrArg List.length h

theorem size_le (h : Holds array ts) : array.size ≤ array.capacity := by
  obtain ⟨used, rest, heq, hused⟩ := h.strings
  have hslots := h.slots
  have hlen := used_length hused
  rw [heq, List.length_append, List.length_cons] at hslots
  rw [h.size]
  omega

theorem contents (h : Holds array ts) : array.contents = some ts := by
  obtain ⟨used, rest, heq, hused⟩ := h.strings
  rw [StringArray.contents, heq, h.size, ← used_length hused, List.take_left' rfl,
    mapM_eq_some_iff]
  rwa [← List.forall₂_eq_eq_eq, List.forall₂_map_left_iff, List.forall₂_map_right_iff] at hused

end Holds

theorem holds_makeStringArray (capacity : ℕ) : Holds (makeStringArray capacity) [] where
  size := rfl
  slots := by simp [makeStringArray]
  strings := ⟨[], List.replicate capacity .garbage, rfl, rfl⟩

theorem exists_block_of_cString {slot : Slot} {t : List Byte} (h : slot.cString = some t) :
    ∃ bytes, slot = .block bytes := by
  cases slot with
  | garbage => cases h
  | null => cases h
  | block bytes => exact ⟨bytes, rfl⟩

/-- The loop frees the blocks it passes. -/
theorem freeFrom_spec (before after : List Slot) (ts : List (List Byte)) (blocks : List Slot)
    (hblocks : blocks.map Slot.cString = ts.map some) :
    freeFrom (before ++ blocks ++ after) before.length blocks.length =
      some (before ++ List.replicate blocks.length .garbage ++ after) := by
  induction blocks generalizing before ts with
  | nil => simp [freeFrom]
  | cons slot blocks ih =>
    cases ts with
    | nil => cases hblocks
    | cons t ts =>
      rw [List.map_cons, List.map_cons, List.cons.injEq] at hblocks
      obtain ⟨bytes, rfl⟩ := exists_block_of_cString hblocks.1
      have hslot : (before ++ Slot.block bytes :: blocks ++ after)[before.length]? =
          some (.block bytes) := by simp
      have hset : (before ++ Slot.block bytes :: blocks ++ after).set before.length .garbage =
          before ++ [Slot.garbage] ++ blocks ++ after := by simp
      have hrest := ih (before ++ [.garbage]) ts hblocks.2
      rw [List.length_append, List.length_singleton] at hrest
      rw [List.length_cons, freeFrom]
      simp only [hslot, free, hset, hrest, Option.bind_eq_bind, Option.bind_some]
      simp [List.replicate_succ]

/-- Room for the strings: the slots up to the sentinel stay, and the last slot is null. -/
theorem Holds.realloc {array : StringArray} {ts : List (List Byte)} (h : Holds array ts)
    (capacity : ℕ) (hcap : array.size ≤ capacity) :
    ∃ strings, assign (reallocSlots array.strings (capacity + 1)) capacity .null =
      some strings ∧ Holds { array with strings, capacity } ts := by
  obtain ⟨used, rest, heq, hused⟩ := h.strings
  have hlen : used.length = array.size := (used_length hused).trans h.size.symm
  obtain ⟨room, hroom, hrealloc⟩ : ∃ room : List Slot, room.length = capacity - array.size ∧
      reallocSlots array.strings (capacity + 1) = used ++ .null :: room := by
    refine ⟨rest.take (capacity - array.size) ++
      List.replicate (capacity + 1 - array.strings.length) .garbage, ?_, ?_⟩
    · rw [heq]
      simp
      omega
    · rw [reallocSlots, heq, List.take_append, List.take_of_length_le (by omega), hlen,
        show capacity + 1 - array.size = capacity - array.size + 1 by omega, List.take_succ_cons]
      simp
  rw [hrealloc, assign, if_pos (by simp; omega), List.set_append_right _ _ (by omega)]
  by_cases hsize : capacity = array.size
  · refine ⟨_, rfl, h.size, by simp; omega, used, room, ?_, hused⟩
    rw [hlen, hsize, Nat.sub_self, List.set_cons_zero]
  · obtain ⟨k, hk⟩ : ∃ k, capacity - used.length = k + 1 :=
      ⟨capacity - used.length - 1, by omega⟩
    refine ⟨_, rfl, h.size, by simp; omega, used, room.set k .null, ?_, hused⟩
    rw [hk, List.set_cons_succ]

/-- Shrinking frees the strings beyond the capacity, and leaves one slot after those kept. -/
theorem Holds.freeFrom {array : StringArray} {ts : List (List Byte)} (h : Holds array ts)
    {capacity : ℕ} (hshrink : capacity < array.size) :
    ∃ freed kept, freeFrom array.strings capacity (array.size - capacity) = some freed ∧
      reallocSlots freed (capacity + 1) = kept ++ [.garbage] ∧ kept.length = capacity ∧
      kept.map Slot.cString = (ts.take capacity).map some := by
  obtain ⟨used, rest, heq, hused⟩ := h.strings
  have hlen : used.length = array.size := (Holds.used_length hused).trans h.size.symm
  have htake : (used.take capacity).length = capacity := by simp; omega
  have hfree := freeFrom_spec (used.take capacity) (.null :: rest) (ts.drop capacity)
    (used.drop capacity) (by rw [List.map_drop, hused, List.map_drop])
  rw [List.take_append_drop, ← heq, htake, List.length_drop, hlen] at hfree
  refine ⟨_, used.take capacity, hfree, ?_, htake, by rw [List.map_take, hused, List.map_take]⟩
  obtain ⟨k, hk⟩ : ∃ k, array.size - capacity = k + 1 :=
    ⟨array.size - capacity - 1, by omega⟩
  rw [reallocSlots, hk, List.replicate_succ, List.append_assoc, List.take_append, htake,
    List.take_of_length_le (by omega)]
  simp
  omega

/-- `resize` keeps the strings that fit. -/
theorem resize_spec {array : StringArray} {ts : List (List Byte)} (h : Holds array ts)
    (capacity : ℕ) :
    ∃ array', resize array capacity = some array' ∧ Holds array' (ts.take capacity) ∧
      array'.capacity = capacity := by
  by_cases hshrink : capacity < array.size
  · obtain ⟨freed, kept, hfreed, hrealloc, hlen, hkept⟩ := h.freeFrom hshrink
    refine ⟨{ array with strings := kept ++ [.null], size := capacity, capacity }, ?_, ?_, rfl⟩
    · have hassign : assign (kept ++ [Slot.garbage]) capacity .null = some (kept ++ [.null]) := by
        rw [assign, if_pos (by simp; omega), List.set_append_right _ _ (by omega), hlen,
          Nat.sub_self, List.set_cons_zero]
      simp only [resize, hshrink, if_true, hfreed, hrealloc, hassign, Option.pure_def,
        Option.bind_eq_bind, Option.bind_some]
    · refine ⟨?_, by simp; omega, kept, [], rfl, hkept⟩
      have hsize := h.size
      have hlength : (ts.take capacity).length = min capacity ts.length := List.length_take
      rw [hlength, ← hsize]
      exact (min_eq_left hshrink.le).symm
  · obtain ⟨strings, hassign, hholds⟩ := h.realloc capacity (by omega)
    refine ⟨{ array with strings, capacity }, ?_, ?_, rfl⟩
    · simp only [resize, hshrink, if_false, hassign, Option.pure_def, Option.bind_eq_bind,
        Option.bind_some]
    · rwa [List.take_of_length_le (by rw [← h.size]; omega)]

theorem cString_append {cs : List Byte} (hcs : ∀ c ∈ cs, c ≠ 0#8) (rest : List (Option Byte)) :
    cString (cs.map some ++ some 0#8 :: rest) = some cs := by
  induction cs with
  | nil => rfl
  | cons c cs ih =>
    have hc := hcs c List.mem_cons_self
    have hrest := ih fun c' hc' => hcs c' (List.mem_cons_of_mem c hc')
    simp [cString, hc, hrest]

/-- What `add_string` copies: up to `n` characters, up to the first NUL. -/
def cut (string : List Byte) (n : ℕ) : List Byte := (string.take n).takeWhile (· ≠ 0#8)

theorem cut_length_le (string : List Byte) (n : ℕ) : (cut string n).length ≤ n :=
  (List.takeWhile_sublist _).length_le.trans (List.length_take_le _ _)

theorem cut_of_notMem {string : List Byte} {n : ℕ} (h : 0#8 ∉ string.take n) :
    cut string n = string.take n := by
  rw [cut, List.takeWhile_eq_self_iff]
  intro c hc
  simpa using fun heq : c = 0#8 => h (heq ▸ hc)

theorem cut_zero_cons (string : List Byte) (n : ℕ) : cut (0#8 :: string) (n + 1) = [] := by
  simp [cut]

theorem cut_cons_of_ne {c : Byte} (hc : c ≠ 0#8) (string : List Byte) (n : ℕ) :
    cut (c :: string) (n + 1) = c :: cut string n := by
  rw [cut, List.take_succ_cons, List.takeWhile_cons_of_pos (by simpa using hc)]
  rfl

/-- One round of the loop. -/
theorem copyFrom_succ {string : List Byte} {done : List (Option Byte)}
    (hlt : done.length < string.length) (n : ℕ) :
    copyFrom string done.length (n + 1) (done ++ List.replicate (n + 1 + 1) none) =
      if string[done.length] = 0#8 then
        some (done ++ [some string[done.length]] ++ List.replicate (n + 1) none)
      else copyFrom string (done.length + 1) n
        (done ++ [some string[done.length]] ++ List.replicate (n + 1) none) := by
  have hassign : assign (done ++ List.replicate (n + 1 + 1) none) done.length
      (some string[done.length]) =
      some (done ++ [some string[done.length]] ++ List.replicate (n + 1) none) := by
    simp [assign, List.replicate_succ]
  rw [copyFrom, List.getElem?_eq_getElem hlt, Option.bind_eq_bind, Option.bind_some, hassign]
  rfl

/-- The loop leaves the copied characters, followed by a NUL if it met one. -/
theorem copyFrom_spec (string : List Byte) (n : ℕ) (done : List (Option Byte))
    (hn : done.length + n ≤ string.length) :
    ∃ tail, copyFrom string done.length n (done ++ List.replicate (n + 1) none) =
        some (done ++ (cut (string.drop done.length) n).map some ++ tail) ∧
      (cut (string.drop done.length) n).length + tail.length = n + 1 ∧
      ((cut (string.drop done.length) n).length < n → ∃ rest, tail = some 0#8 :: rest) := by
  induction n generalizing done with
  | zero => exact ⟨[none], by simp [copyFrom, cut], by simp [cut], by simp⟩
  | succ n ih =>
    have hlt : done.length < string.length := by omega
    rw [copyFrom_succ hlt, List.drop_eq_getElem_cons hlt]
    by_cases hc : string[done.length] = 0#8
    · rw [if_pos hc, hc, cut_zero_cons]
      exact ⟨some 0#8 :: List.replicate (n + 1) none, by simp, by simp, fun _ => ⟨_, rfl⟩⟩
    · obtain ⟨tail, hcopy, hlen, htail⟩ := ih (done ++ [some string[done.length]])
        (by simp; omega)
      rw [List.length_append, List.length_singleton] at hcopy hlen htail
      rw [if_neg hc, cut_cons_of_ne hc, hcopy, List.length_cons]
      refine ⟨tail, by simp, by omega, ?_⟩
      intro hshort
      exact htail (by omega)

/-- The capacity that `add_string` leaves. -/
def nextCapacity (array : StringArray) : ℕ :=
  if array.size = array.capacity then
    if array.capacity = 0 then 1 else array.capacity * 2
  else array.capacity

/-- The block that `add_string` allocates holds the cut string. -/
theorem exists_block (string : List Byte) (size : ℕ) (hsize : size ≤ string.length) :
    ∃ block block', copyFrom string 0 size (List.replicate (size + 1) none) = some block ∧
      assign block size (some 0#8) = some block' ∧ cString block' = some (cut string size) := by
  obtain ⟨tail, hcopy, hlen, htail⟩ := copyFrom_spec string size [] (by simpa using hsize)
  simp only [List.length_nil, List.nil_append, List.drop_zero] at hcopy hlen htail
  have hcut : ∀ c ∈ cut string size, c ≠ 0#8 := by
    intro c hc
    simpa using List.mem_takeWhile_imp hc
  refine ⟨_, ((cut string size).map some ++ tail).set size (some 0#8), hcopy, ?_, ?_⟩
  · rw [assign, if_pos (by simp; omega)]
  · rw [List.set_append_right _ _ (by simpa using cut_length_le string size), List.length_map]
    by_cases hshort : (cut string size).length < size
    · obtain ⟨rest, rfl⟩ := htail hshort
      obtain ⟨k, hk⟩ : ∃ k, size - (cut string size).length = k + 1 :=
        ⟨size - (cut string size).length - 1, by omega⟩
      rw [hk, List.set_cons_succ]
      exact cString_append hcut _
    · have hle := cut_length_le string size
      obtain ⟨t, rfl⟩ := List.length_eq_one_iff.mp (show tail.length = 1 by omega)
      have hzero : size - (cut string size).length = 0 := by omega
      rw [hzero, List.set_cons_zero]
      exact cString_append hcut []

/-- Storing a block over the sentinel and a new sentinel behind it. -/
theorem Holds.push {array : StringArray} {ts : List (List Byte)} (h : Holds array ts)
    (hfull : array.size < array.capacity) (slot : Slot) {t : List Byte}
    (hslot : slot.cString = some t) :
    ∃ strings strings', assign array.strings array.size slot = some strings ∧
      assign strings (array.size + 1) .null = some strings' ∧
      Holds { array with strings := strings', size := array.size + 1 } (ts ++ [t]) := by
  obtain ⟨used, rest, heq, hused⟩ := h.strings
  have hslots := h.slots
  have hlen : used.length = array.size := (used_length hused).trans h.size.symm
  cases rest with
  | nil =>
    rw [heq, List.length_append, List.length_singleton] at hslots
    omega
  | cons next rest =>
    refine ⟨used ++ slot :: next :: rest, (used ++ [slot]) ++ .null :: rest, ?_, ?_, ?_, ?_, ?_⟩
    · rw [heq, assign, if_pos (by simp; omega), ← hlen]
      simp
    · rw [assign, if_pos (by simp; omega), ← hlen]
      simp
    · simp [h.size]
    · rw [heq] at hslots
      simp at hslots ⊢
      omega
    · exact ⟨used ++ [slot], rest, rfl, by simp [hused, hslot]⟩

/-- `add_string` appends the string cut at `size` characters or its first NUL, and
grows the array when it is full. -/
theorem addString_spec {array : StringArray} {ts : List (List Byte)} (h : Holds array ts)
    (string : List Byte) (size : ℕ) (hsize : size ≤ string.length) :
    ∃ array', addString array string size = some array' ∧
      Holds array' (ts ++ [cut string size]) ∧ array'.capacity = nextCapacity array := by
  obtain ⟨block, block', hcopy, hnul, hblock⟩ := exists_block string size hsize
  have hle := h.size_le
  by_cases hfull : array.size = array.capacity
  · obtain ⟨grown, hgrown, hholds, hcap⟩ := resize_spec h
      (if array.capacity = 0 then 1 else array.capacity * 2)
    rw [List.take_of_length_le (by rw [← h.size]; split_ifs <;> omega)] at hholds
    have hroom : grown.size < grown.capacity := by
      rw [hholds.size, ← h.size, hcap]
      split_ifs <;> omega
    obtain ⟨strings, strings', hstore, hsentinel, hpush⟩ := hholds.push hroom (.block block') hblock
    refine ⟨_, ?_, hpush, ?_⟩
    · simp only [addString, hfull, if_true, hgrown, hcopy, hnul, hstore, hsentinel,
        Option.bind_eq_bind, Option.bind_some, Option.pure_def]
    · rw [nextCapacity, if_pos hfull]
      exact hcap
  · obtain ⟨strings, strings', hstore, hsentinel, hpush⟩ := h.push (by omega)
      (.block block') hblock
    refine ⟨_, ?_, hpush, ?_⟩
    · simp only [addString, hfull, if_false, hcopy, hnul, hstore, hsentinel,
        Option.bind_eq_bind, Option.bind_some, Option.pure_def]
    · rw [nextCapacity, if_neg hfull]

end OlinCourses.Shell
