import OlinCourses.Lib.Heap
import OlinCourses.Shell.Operations

/-!
# String arrays on the heap

`string_array.c` with its pointers: the struct, the array of `char*` and every string are
objects of a heap, and each access goes through the pointers that the source reads. Using
a pointer that is null, uninitialised or freed is undefined behaviour, written `none`.
-/
namespace OlinCourses.Shell

inductive Pointer
  | garbage
  | null
  | ref (p : ℕ)

/-- What the library and the shell allocate: a `string_array`, an array of `char*`, a
string, and a `command`. -/
inductive Object
  | array (strings : Pointer) (size capacity : ℕ)
  | strings (pointers : List Pointer)
  | chars (bytes : List (Option Byte))
  | command (tokens inputFile outputFile : Pointer)

abbrev Memory := Heap Object

namespace Memory

/-- `free`; a null pointer is allowed. -/
def freePointer (m : Memory) : Pointer → Option Memory
  | .garbage => none
  | .null => some m
  | .ref p => m.free p

def object (m : Memory) : Pointer → Option Object
  | .ref p => m.block p
  | _ => none

def setObject (m : Memory) : Pointer → Object → Option Memory
  | .ref p, x => m.set p x
  | _, _ => none

/-- `array->strings`, `array->size` and `array->capacity`. -/
def fields (m : Memory) (array : Pointer) : Option (Pointer × ℕ × ℕ) :=
  match object m array with
  | some (.array strings size capacity) => some (strings, size, capacity)
  | _ => none

def pointers (m : Memory) (strings : Pointer) : Option (List Pointer) :=
  match object m strings with
  | some (.strings pointers) => some pointers
  | _ => none

def chars (m : Memory) (string : Pointer) : Option (List (Option Byte)) :=
  match object m string with
  | some (.chars bytes) => some bytes
  | _ => none

/-- `strings[i] = x`. -/
def setPointer (m : Memory) (strings : Pointer) (i : ℕ) (x : Pointer) : Option Memory := do
  setObject m strings (.strings (← assign (← pointers m strings) i x))

/-- `string[i] = c`. -/
def setChar (m : Memory) (string : Pointer) (i : ℕ) (c : Byte) : Option Memory := do
  setObject m string (.chars (← assign (← chars m string) i (some c)))

/-- `realloc` to `n` pointers. The new array is elsewhere, and the old one is freed. -/
def reallocPointers (m : Memory) (strings : Pointer) (n : ℕ) : Option (Pointer × Memory) := do
  let old ← pointers m strings
  let m ← freePointer m strings
  let (p, m) := m.malloc (.strings (old.take n ++ List.replicate (n - old.length) .garbage))
  return (.ref p, m)

def makeStringArray (m : Memory) (capacity : ℕ) : Option (Pointer × Memory) := do
  let (array, m) := m.malloc (.array .garbage 0 capacity)
  let (strings, m) := m.malloc (.strings (List.replicate (capacity + 1) .garbage))
  let m ← setObject m (.ref array) (.array (.ref strings) 0 capacity)
  let m ← setPointer m (.ref strings) 0 .null
  return (.ref array, m)

/-- The loop that frees the strings from `i` on, `n` of them. -/
def freeStrings (array : Pointer) (i : ℕ) : ℕ → Memory → Option Memory
  | 0, m => some m
  | n + 1, m => do
    let (strings, _) ← fields m array
    let m ← freePointer m (← (← pointers m strings)[i]?)
    freeStrings array (i + 1) n m

def freeStringArray (m : Memory) (array : Pointer) : Option Memory := do
  let (_, size, _) ← fields m array
  let m ← freeStrings array 0 size m
  let (strings, _) ← fields m array
  let m ← freePointer m strings
  freePointer m array

def resize (m : Memory) (array : Pointer) (capacity : ℕ) : Option Memory := do
  let (strings, size, oldCapacity) ← fields m array
  let m ←
    if capacity < size then do
      let m ← freeStrings array capacity (size - capacity) m
      setObject m array (.array strings capacity oldCapacity)
    else pure m
  let (strings, size, _) ← fields m array
  let (strings, m) ← reallocPointers m strings (capacity + 1)
  let m ← setObject m array (.array strings size capacity)
  setPointer m strings capacity .null

/-- The loop that copies `string` into `array->strings[array->size]` from position `i`,
with `n` positions to go. -/
def copyString (array : Pointer) (string : List Byte) (i : ℕ) : ℕ → Memory → Option Memory
  | 0, m => some m
  | n + 1, m => do
    let (strings, size, _) ← fields m array
    let c ← string[i]?
    let m ← setChar m (← (← pointers m strings)[size]?) i c
    if c = 0#8 then some m else copyString array string (i + 1) n m

def addString (m : Memory) (array : Pointer) (string : List Byte) (size : ℕ) : Option Memory := do
  let (_, used, capacity) ← fields m array
  let m ←
    if used = capacity then resize m array (if capacity = 0 then 1 else capacity * 2)
    else pure m
  let (strings, used, capacity) ← fields m array
  let (p, m) := m.malloc (.chars (List.replicate (size + 1) none))
  let m ← setPointer m strings used (.ref p)
  let m ← copyString array string 0 size m
  let m ← setChar m (← (← pointers m strings)[used]?) size 0#8
  let m ← setObject m array (.array strings (used + 1) capacity)
  setPointer m strings (used + 1) .null

/-- The strings of an array, in order. -/
def contents (m : Memory) (array : Pointer) : Option (List (List Byte)) := do
  let (strings, size, _) ← fields m array
  ((← pointers m strings).take size).mapM fun string => (chars m string).bind cString

/-- The cells of strings. -/
def stringCells (owned : List (ℕ × List (Option Byte))) : List (ℕ × Object) :=
  owned.map fun c => (c.1, .chars c.2)

/-- The cells of an array whose pointers are `slots`, with strings of its own. -/
def arrayCells (array strings size capacity : ℕ) (slots : List Pointer)
    (owned : List (ℕ × List (Option Byte))) : List (ℕ × Object) :=
  (array, .array (.ref strings) size capacity) :: (strings, .strings slots) :: stringCells owned

theorem arrayCells_append (array strings size capacity : ℕ) (slots : List Pointer)
    (owned more : List (ℕ × List (Option Byte))) :
    arrayCells array strings size capacity slots (owned ++ more) =
      arrayCells array strings size capacity slots owned ++ stringCells more := by
  simp [arrayCells, stringCells]

/-- The array owns the strings `ts`, at the pointers before its sentinel, and apart from its
cells the memory is the frame. -/
def OwnsArray (m : Memory) (frame : ℕ → Option Object) (array : Pointer) (ts : List (List Byte))
    (capacity : ℕ) : Prop :=
  ∃ a s owned room, array = .ref a ∧ owned.map (fun c => cString c.2) = ts.map some ∧
    capacity = owned.length + room.length ∧
    m.Owns frame (arrayCells a s owned.length capacity
      (owned.map (fun c => .ref c.1) ++ .null :: room) owned)

section Accesses

variable {m : Memory} {frame : ℕ → Option Object} {a s size capacity : ℕ} {slots : List Pointer}
  {owned : List (ℕ × List (Option Byte))}
  (ho : m.Owns frame (arrayCells a s size capacity slots owned))

include ho

theorem fields_of_owns : fields m (.ref a) = some (.ref s, size, capacity) := by
  simp only [fields, object, ho.head]

theorem pointers_of_owns : pointers m (.ref s) = some slots := by
  have hcell : m.block s = some (.strings slots) :=
    ho.holds (s, .strings slots) (by simp [arrayCells])
  simp only [pointers, object, hcell]

theorem setObject_of_owns (size' capacity' : ℕ) :
    ∃ m', setObject m (.ref a) (.array (.ref s) size' capacity') = some m' ∧
      m'.Owns frame (arrayCells a s size' capacity' slots owned) :=
  ho.set _

theorem setPointer_of_owns {i : ℕ} (hi : i < slots.length) (x : Pointer) :
    ∃ m', setPointer m (.ref s) i x = some m' ∧
      m'.Owns frame (arrayCells a s size capacity (slots.set i x) owned) := by
  obtain ⟨m', hset, ho'⟩ := ho.set_mid [_] (.strings (slots.set i x))
  refine ⟨m', ?_, ho'⟩
  simp only [setPointer, pointers_of_owns ho, assign, if_pos hi, Option.bind_eq_bind,
    Option.bind_some]
  exact hset

omit ho in
theorem setChar_of_owns {p : ℕ} {block block' : List (Option Byte)}
    (ho : m.Owns frame (arrayCells a s size capacity slots (owned ++ [(p, block)]))) {i : ℕ}
    {c : Byte} (hassign : assign block i (some c) = some block') :
    ∃ m', setChar m (.ref p) i c = some m' ∧
      m'.Owns frame (arrayCells a s size capacity slots (owned ++ [(p, block')])) := by
  rw [arrayCells_append] at ho
  have hcell : m.block p = some (.chars block) := ho.holds (p, .chars block) (by simp [stringCells])
  obtain ⟨m', hset, ho'⟩ := ho.set_mid _ (.chars block')
  refine ⟨m', ?_, arrayCells_append .. ▸ ho'⟩
  simp only [setChar, chars, object, hcell, hassign, Option.bind_eq_bind, Option.bind_some]
  exact hset

theorem reallocPointers_of_owns (n : ℕ) :
    ∃ s' m', reallocPointers m (.ref s) n = some (.ref s', m') ∧
      m'.Owns frame ((a, .array (.ref s) size capacity) ::
        (s', .strings (slots.take n ++ List.replicate (n - slots.length) .garbage)) ::
          stringCells owned) := by
  obtain ⟨m₁, hfree, ho₁⟩ := ho.free_mid [_]
  refine ⟨_, _, ?_, (ho₁.malloc _).perm (List.Perm.swap ..)⟩
  simp only [reallocPointers, pointers_of_owns ho, freePointer, hfree, Option.bind_eq_bind,
    Option.bind_some, Option.pure_def]

end Accesses

/-- The loop frees the strings it passes. -/
theorem freeStrings_spec {frame : ℕ → Option Object} {a s size capacity : ℕ}
    {rest : List Pointer} {after : List (ℕ × List (Option Byte))} (before : List Pointer)
    (kept : List (ℕ × List (Option Byte))) {m : Memory}
    (ho : m.Owns frame (arrayCells a s size capacity
      (before ++ after.map (fun c => .ref c.1) ++ rest) (kept ++ after))) :
    ∃ m', freeStrings (.ref a) before.length after.length m = some m' ∧
      m'.Owns frame (arrayCells a s size capacity
        (before ++ after.map (fun c => .ref c.1) ++ rest) kept) := by
  induction after generalizing before m with
  | nil => exact ⟨m, rfl, by simpa using ho⟩
  | cons c after ih =>
    have hslots : before ++ (c :: after).map (fun c => Pointer.ref c.1) ++ rest =
        before ++ [.ref c.1] ++ after.map (fun c => .ref c.1) ++ rest := by simp
    rw [hslots] at ho ⊢
    have hslot : (before ++ [.ref c.1] ++ after.map (fun c => Pointer.ref c.1) ++ rest)[
        before.length]? = some (.ref c.1) := by simp
    have hfields := fields_of_owns ho
    have hpointers := pointers_of_owns ho
    rw [arrayCells_append] at ho
    obtain ⟨m₁, hfree, ho₁⟩ := ho.free_mid _
    obtain ⟨m', hrun, ho'⟩ := ih (before ++ [.ref c.1]) (arrayCells_append .. ▸ ho₁)
    refine ⟨m', ?_, ho'⟩
    rw [List.length_append, List.length_singleton] at hrun
    simp only [List.length_cons, freeStrings, hfields, hpointers, hslot, freePointer, hfree,
      Option.bind_eq_bind, Option.bind_some, hrun]

/-- The loop fills the last string as it would fill a block of its own. -/
theorem copyString_spec {frame : ℕ → Option Object} {a s size capacity p : ℕ}
    {slots : List Pointer} {owned : List (ℕ × List (Option Byte))}
    (hslot : slots[size]? = some (.ref p)) (string : List Byte) (i n : ℕ)
    {block block' : List (Option Byte)} (hcopy : copyFrom string i n block = some block')
    {m : Memory} (ho : m.Owns frame (arrayCells a s size capacity slots (owned ++ [(p, block)]))) :
    ∃ m', copyString (.ref a) string i n m = some m' ∧
      m'.Owns frame (arrayCells a s size capacity slots (owned ++ [(p, block')])) := by
  induction n generalizing i block m with
  | zero =>
    rw [copyFrom, Option.some_inj] at hcopy
    exact ⟨m, rfl, hcopy ▸ ho⟩
  | succ n ih =>
    rw [copyFrom, Option.bind_eq_bind, Option.bind_eq_some_iff] at hcopy
    obtain ⟨c, hc, hcopy⟩ := hcopy
    rw [Option.bind_eq_bind, Option.bind_eq_some_iff] at hcopy
    obtain ⟨block₁, hassign, hcopy⟩ := hcopy
    obtain ⟨m₁, hset, ho₁⟩ := setChar_of_owns ho hassign
    have hfields := fields_of_owns ho
    have hpointers := pointers_of_owns ho
    by_cases hzero : c = 0#8
    · rw [if_pos hzero, Option.some_inj] at hcopy
      refine ⟨m₁, ?_, hcopy ▸ ho₁⟩
      simp only [copyString, hfields, hpointers, hslot, hc, hset, if_pos hzero,
        Option.bind_eq_bind, Option.bind_some]
    · rw [if_neg hzero] at hcopy
      obtain ⟨m', hrun, ho'⟩ := ih (i + 1) hcopy ho₁
      refine ⟨m', ?_, ho'⟩
      simp only [copyString, hfields, hpointers, hslot, hc, hset, if_neg hzero, hrun,
        Option.bind_eq_bind, Option.bind_some]

theorem makeStringArray_owns (m : Memory) (capacity : ℕ) :
    ∃ array m', makeStringArray m capacity = some (array, m') ∧
      OwnsArray m' m.block array [] capacity := by
  have hstruct := (Heap.Owns.nil m).malloc (.array .garbage 0 capacity)
  have hslots := hstruct.malloc (.strings (List.replicate (capacity + 1) .garbage))
  obtain ⟨m₁, hset, ho⟩ := (hslots.perm (List.Perm.swap ..)).set (.array (.ref (Heap.malloc _ _).1)
    0 capacity)
  have ho : m₁.Owns m.block (arrayCells _ _ 0 capacity _ []) := ho
  obtain ⟨m₂, hnull, ho'⟩ := setPointer_of_owns ho (i := 0) (by simp) .null
  rw [List.replicate_succ, List.set_cons_zero] at ho'
  refine ⟨_, m₂, ?_, _, _, [], List.replicate capacity .garbage, rfl, rfl, by simp, ho'⟩
  simp only [makeStringArray, setObject, hset, hnull, Option.bind_eq_bind, Option.bind_some,
    Option.pure_def]

/-- A new array of pointers that ends in a null pointer. -/
theorem realloc_owns {frame : ℕ → Option Object} {a s size oldCapacity : ℕ} {slots : List Pointer}
    {owned : List (ℕ × List (Option Byte))} {m : Memory}
    (ho : m.Owns frame (arrayCells a s size oldCapacity slots owned)) (capacity : ℕ) :
    ∃ s' m₁ m₂ m₃, reallocPointers m (.ref s) (capacity + 1) = some (.ref s', m₁) ∧
      setObject m₁ (.ref a) (.array (.ref s') size capacity) = some m₂ ∧
      setPointer m₂ (.ref s') capacity .null = some m₃ ∧
      m₃.Owns frame (arrayCells a s' size capacity
        ((slots.take (capacity + 1) ++
          List.replicate (capacity + 1 - slots.length) Pointer.garbage).set capacity .null)
        owned) := by
  obtain ⟨s', m₁, hrealloc, ho₁⟩ := reallocPointers_of_owns ho (capacity + 1)
  obtain ⟨m₂, hset, ho₂⟩ := ho₁.set (.array (.ref s') size capacity)
  have ho₂ : m₂.Owns frame (arrayCells a s' size capacity _ owned) := ho₂
  obtain ⟨m₃, hnull, ho₃⟩ := setPointer_of_owns ho₂ (i := capacity)
    (by rw [List.length_append, List.length_take, List.length_replicate]; omega) .null
  exact ⟨s', m₁, m₂, m₃, hrealloc, hset, hnull, ho₃⟩

/-- Reallocating to more pointers keeps those in use and the sentinel. -/
theorem exists_room {α : Type*} (used room : List α) (null garbage : α) {n : ℕ}
    (hn : used.length ≤ n) : ∃ room' : List α, n = used.length + room'.length ∧
      ((used ++ null :: room).take (n + 1) ++
        List.replicate (n + 1 - (used ++ null :: room).length) garbage).set n null =
          used ++ null :: room' := by
  obtain ⟨k, rfl⟩ := Nat.exists_eq_add_of_le hn
  have htake : (used ++ null :: room).take (used.length + k + 1) = used ++ null :: room.take k := by
    rw [List.take_append, List.take_of_length_le (by omega),
      show used.length + k + 1 - used.length = k + 1 by omega, List.take_succ_cons]
  rw [htake, List.append_assoc, List.set_append_right _ _ (by omega), Nat.add_sub_cancel_left]
  cases k with
  | zero => exact ⟨_, by simp, rfl⟩
  | succ k => exact ⟨_, by simp; omega, rfl⟩

/-- Reallocating to fewer pointers than are in use cuts them off. -/
theorem cut_room {α : Type*} (used room : List α) (null garbage : α) {n : ℕ}
    (hn : n < used.length) : ((used ++ null :: room).take (n + 1) ++
        List.replicate (n + 1 - (used ++ null :: room).length) garbage).set n null =
          used.take n ++ [null] := by
  have htake : (used ++ null :: room).take (n + 1) = used.take n ++ [used[n]] := by
    rw [List.take_append_of_le_length (by omega), List.take_add_one]
    simp [hn]
  have hnone : n + 1 - (used ++ null :: room).length = 0 := by
    rw [List.length_append]
    omega
  rw [htake, hnone, List.replicate_zero, List.append_nil, List.set_append_right _ _ (by simp)]
  simp [hn.le]

theorem resize_owns {m : Memory} {frame : ℕ → Option Object} {array : Pointer}
    {ts : List (List Byte)} {oldCapacity : ℕ} (h : OwnsArray m frame array ts oldCapacity)
    (capacity : ℕ) :
    ∃ m', resize m array capacity = some m' ∧
      OwnsArray m' frame array (ts.take capacity) capacity := by
  obtain ⟨a, s, owned, room, rfl, hts, -, ho⟩ := h
  have hlen : ts.length = owned.length := by simpa using (congrArg List.length hts).symm
  by_cases hshrink : capacity < owned.length
  · have hfields := fields_of_owns ho
    rw [← List.take_append_drop capacity owned, List.map_append] at ho
    obtain ⟨m₁, hfree, ho₁⟩ := freeStrings_spec _ _ ho
    obtain ⟨m₂, hsize, ho₂⟩ := setObject_of_owns ho₁ capacity oldCapacity
    obtain ⟨s', m₃, m₄, m₅, hrealloc, hset, hnull, ho₅⟩ := realloc_owns ho₂ capacity
    rw [List.length_map, List.length_take, min_eq_left hshrink.le, List.length_drop] at hfree
    refine ⟨m₅, ?_, a, s', owned.take capacity, [], rfl, ?_, by simp; omega, ?_⟩
    · simp only [resize, hfields, if_pos hshrink, hfree, hsize, fields_of_owns ho₂, hrealloc, hset,
        hnull, Option.bind_eq_bind, Option.bind_some]
    · rw [List.map_take, hts, List.map_take]
    · rw [← List.map_append, List.take_append_drop, cut_room _ _ _ _ (by simpa using hshrink),
        ← List.map_take] at ho₅
      rwa [List.length_take, min_eq_left hshrink.le]
  · obtain ⟨s', m₁, m₂, m₃, hrealloc, hset, hnull, ho₃⟩ := realloc_owns ho capacity
    obtain ⟨room', hcap, hroom⟩ := exists_room (owned.map fun c => Pointer.ref c.1) room .null
      .garbage (by simpa using hshrink)
    rw [hroom] at ho₃
    refine ⟨m₃, ?_, a, s', owned, room', rfl, ?_, by simpa using hcap, ho₃⟩
    · simp only [resize, fields_of_owns ho, if_neg hshrink, hrealloc, hset, hnull,
        Option.bind_eq_bind, Option.bind_some, Option.pure_def]
    · rw [hts, List.take_of_length_le (by omega)]

theorem OwnsArray.fields {m : Memory} {frame : ℕ → Option Object} {array : Pointer}
    {ts : List (List Byte)} {capacity : ℕ} (h : OwnsArray m frame array ts capacity) :
    ∃ strings, fields m array = some (strings, ts.length, capacity) := by
  obtain ⟨a, s, owned, room, rfl, hts, -, ho⟩ := h
  have hlen : owned.length = ts.length := by simpa using congrArg List.length hts
  exact ⟨.ref s, hlen ▸ fields_of_owns ho⟩

theorem OwnsArray.block_frame {m : Memory} {frame : ℕ → Option Object} {array : Pointer}
    {ts : List (List Byte)} {capacity : ℕ} (h : OwnsArray m frame array ts capacity) {p : ℕ}
    {x : Object} (hp : frame p = some x) : m.block p = some x := by
  obtain ⟨a, s, owned, room, -, -, -, ho⟩ := h
  exact ho.block_frame hp

/-- Before a string is added there is room for it. -/
theorem grow_owns {m : Memory} {frame : ℕ → Option Object} {array : Pointer}
    {ts : List (List Byte)} {capacity : ℕ} (h : OwnsArray m frame array ts capacity) :
    ∃ m' capacity', (if ts.length = capacity then
        resize m array (if capacity = 0 then 1 else capacity * 2) else some m) = some m' ∧
      OwnsArray m' frame array ts capacity' ∧ ts.length < capacity' := by
  by_cases hfull : ts.length = capacity
  · obtain ⟨m', hresize, h'⟩ := resize_owns h (if capacity = 0 then 1 else capacity * 2)
    have hroom : ts.length < if capacity = 0 then 1 else capacity * 2 := by split_ifs <;> omega
    rw [List.take_of_length_le hroom.le] at h'
    exact ⟨m', _, by rw [if_pos hfull, hresize], h', hroom⟩
  · refine ⟨m, capacity, if_neg hfull, h, ?_⟩
    obtain ⟨-, -, owned, room, -, hts, hcap, -⟩ := h
    have hlen : owned.length = ts.length := by simpa using congrArg List.length hts
    omega

/-- A fresh string behind the others. -/
theorem malloc_chars_owns {m : Memory} {frame : ℕ → Option Object} {a s size capacity : ℕ}
    {slots : List Pointer} {owned : List (ℕ × List (Option Byte))}
    (ho : m.Owns frame (arrayCells a s size capacity slots owned)) (block : List (Option Byte)) :
    (m.malloc (.chars block)).2.Owns frame (arrayCells a s size capacity slots
      (owned ++ [((m.malloc (.chars block)).1, block)])) := by
  rw [arrayCells_append]
  exact (ho.malloc (.chars block)).perm (List.perm_append_singleton _ _).symm

theorem addString_owns {m : Memory} {frame : ℕ → Option Object} {array : Pointer}
    {ts : List (List Byte)} {capacity : ℕ} (h : OwnsArray m frame array ts capacity)
    (string : List Byte) (size : ℕ) (hsize : size ≤ string.length) :
    ∃ m' capacity', addString m array string size = some m' ∧
      OwnsArray m' frame array (ts ++ [cut string size]) capacity' := by
  obtain ⟨strings, hfields⟩ := h.fields
  obtain ⟨m₁, capacity', hgrow, h₁, hroom⟩ := grow_owns h
  obtain ⟨block, block', hcopy, hnul, hblock⟩ := exists_block string size hsize
  obtain ⟨a, s, owned, room, rfl, hts, hcap, ho⟩ := h₁
  have hlen : owned.length = ts.length := by simpa using congrArg List.length hts
  obtain ⟨next, room, rfl⟩ : ∃ next room', room = next :: room' := by
    cases room with
    | nil => simp at hcap; omega
    | cons next room => exact ⟨next, room, rfl⟩
  have ho₁ := malloc_chars_owns ho (List.replicate (size + 1) none)
  obtain ⟨p, m₂, hmalloc⟩ : ∃ p m₂,
      m₁.malloc (.chars (List.replicate (size + 1) none)) = (p, m₂) := ⟨_, _, rfl⟩
  rw [hmalloc] at ho₁
  simp only at ho₁
  obtain ⟨m₃, hstore, ho₃⟩ := setPointer_of_owns ho₁ (i := owned.length) (by simp) (.ref p)
  have hslots : (owned.map (fun c => Pointer.ref c.1) ++ .null :: next :: room).set owned.length
      (.ref p) = owned.map (fun c => .ref c.1) ++ .ref p :: next :: room := by simp
  rw [hslots] at ho₃
  have hslot : (owned.map (fun c => Pointer.ref c.1) ++ .ref p :: next :: room)[owned.length]? =
      some (.ref p) := by simp
  obtain ⟨m₄, hloop, ho₄⟩ := copyString_spec hslot string 0 size hcopy ho₃
  obtain ⟨m₅, hset, ho₅⟩ := setChar_of_owns ho₄ hnul
  obtain ⟨m₆, hsize', ho₆⟩ := setObject_of_owns ho₅ (owned.length + 1) capacity'
  obtain ⟨m₇, hnull, ho₇⟩ := setPointer_of_owns ho₆ (i := owned.length + 1) (by simp) .null
  refine ⟨m₇, capacity', ?_, a, s, owned ++ [(p, block')], room, rfl, ?_, ?_, ?_⟩
  · by_cases hfull : ts.length = capacity
    · rw [if_pos hfull] at hgrow
      simp only [addString, hfields, if_pos hfull, hgrow, fields_of_owns ho, hmalloc, hstore, hloop,
        pointers_of_owns ho₄, hslot, hset, hsize', hnull, Option.bind_eq_bind, Option.bind_some]
    · rw [if_neg hfull, Option.some_inj] at hgrow
      subst hgrow
      rw [fields_of_owns ho, Option.some_inj, Prod.mk.injEq, Prod.mk.injEq] at hfields
      obtain ⟨-, -, rfl⟩ := hfields
      rw [← hlen] at hfull
      simp only [addString, fields_of_owns ho, if_neg hfull, hmalloc, hstore, hloop,
        pointers_of_owns ho₄, hslot, hset, hsize', hnull, Option.bind_eq_bind, Option.bind_some,
        Option.pure_def]
  · simp [hts, hblock]
  · simp [hcap]; omega
  · simpa using ho₇

theorem freeStringArray_owns {m : Memory} {frame : ℕ → Option Object} {array : Pointer}
    {ts : List (List Byte)} {capacity : ℕ} (h : OwnsArray m frame array ts capacity) :
    ∃ m', freeStringArray m array = some m' ∧ m'.block = frame := by
  obtain ⟨a, s, owned, room, rfl, -, -, ho⟩ := h
  obtain ⟨m₁, hstrings, ho₁⟩ := freeStrings_spec [] [] ho
  obtain ⟨m₂, hslots, ho₂⟩ := ho₁.free_mid [_]
  obtain ⟨m₃, harray, ho₃⟩ := ho₂.free
  refine ⟨m₃, ?_, ho₃.eq_frame⟩
  simp only [List.length_nil] at hstrings
  simp only [freeStringArray, fields_of_owns ho, hstrings, fields_of_owns ho₁, freePointer, hslots,
    harray, Option.bind_eq_bind, Option.bind_some]

theorem OwnsArray.contents {m : Memory} {frame : ℕ → Option Object} {array : Pointer}
    {ts : List (List Byte)} {capacity : ℕ} (h : OwnsArray m frame array ts capacity) :
    contents m array = some ts := by
  obtain ⟨a, s, owned, room, rfl, hts, -, ho⟩ := h
  have hstring : ∀ c ∈ owned, (chars m (.ref c.1)).bind cString = cString c.2 := by
    intro c hc
    have hcell : m.block c.1 = some (.chars c.2) :=
      ho.holds (c.1, .chars c.2) (by simp [arrayCells, stringCells, hc])
    simp only [chars, object, hcell, Option.bind_some]
  have htake : (owned.map (fun c => Pointer.ref c.1) ++ .null :: room).take owned.length =
      owned.map fun c => .ref c.1 := List.take_left' (List.length_map _)
  simp only [Memory.contents, fields_of_owns ho, pointers_of_owns ho, htake, Option.bind_eq_bind,
    Option.bind_some]
  rw [Loop.mapM_eq_some_iff, List.forall₂_map_left_iff]
  rw [← List.map_congr_left hstring] at hts
  rwa [← List.forall₂_eq_eq_eq, List.forall₂_map_left_iff, List.forall₂_map_right_iff] at hts

def exec (array : Pointer) (m : Memory) : Operation → Option Memory
  | .add string size => addString m array string size
  | .resize capacity => resize m array capacity

end Memory

end OlinCourses.Shell
