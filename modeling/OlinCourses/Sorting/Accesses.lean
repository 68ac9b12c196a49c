import OlinCourses.Lib.Recording
import OlinCourses.Sorting.ArraySort

/-!
# Wrap-around and accesses of the sort

`array_sort.c` once more, with its loops on `size_t` values, recording the `size_t` expressions
it evaluates, the objects it reads or writes, and the rounds of the outer loop.
-/
namespace OlinCourses.Sorting
open Recording

inductive Event
  /-- A `size_t` expression, by its value before it wraps. -/
  | size (exact : ℤ)
  /-- An object that is read or written. -/
  | access (ptr : ℕ)
  /-- The body of the outer loop. -/
  | round
  deriving DecidableEq

namespace Traced

def read (ptr : ℕ) : Program Memory Event ℤ := do
  record (.access ptr)
  act fun mem => (load mem ptr).map fun value => (value, mem)

def write (ptr : ℕ) (value : ℤ) : Program Memory Event Unit := do
  record (.access ptr)
  act fun mem => (store mem ptr value).map fun mem => ((), mem)

def swap (leftPtr rightPtr : ℕ) : Program Memory Event Unit := do
  let temp ← read leftPtr
  write leftPtr (← read rightPtr)
  write rightPtr temp

/-- `i++` or `i + 1`. -/
def increment (i : BitVec 64) : Program Memory Event Unit := record (.size (i.toNat + 1))

def compareSwap (numbers : ℕ) (i j : BitVec 64) : Program Memory Event Unit := do
  if (← read (numbers + j.toNat)) < (← read (numbers + i.toNat)) then
    swap (numbers + i.toNat) (numbers + j.toNat)
  else pure ()

/-- The body of the outer loop, and `i++` after it. -/
def outerRound (numbers : ℕ) (arraySize i : BitVec 64) : Program Memory Event Unit := do
  record .round
  increment i
  forUp arraySize (pure ()) (fun j => do
    compareSwap numbers i j
    increment j) (i + 1#64)
  increment i

def sortInplace (numbers : ℕ) (arraySize : BitVec 64) : Program Memory Event Unit :=
  forUp (arraySize - 1#64) (record (.size (arraySize.toNat - 1))) (outerRound numbers arraySize)
    0#64

def copyElement (numbers sorted : ℕ) (i : BitVec 64) : Program Memory Event Unit := do
  write (sorted + i.toNat) (← read (numbers + i.toNat))
  increment i

def sortCopy (numbers sorted : ℕ) (arraySize : BitVec 64) : Program Memory Event Unit := do
  forUp arraySize (pure ()) (copyElement numbers sorted) 0#64
  sortInplace sorted arraySize

theorem run_read (ptr : ℕ) (mem : Memory) :
    (read ptr).run mem = (load mem ptr).map fun value => (value, mem) := by
  rw [read, run_bind, run_record, Option.bind_some, run_act]

theorem run_write (ptr : ℕ) (value : ℤ) (mem : Memory) :
    (write ptr value).run mem = (store mem ptr value).map fun mem => ((), mem) := by
  rw [write, run_bind, run_record, Option.bind_some, run_act]

theorem exec_write (ptr : ℕ) (value : ℤ) (mem : Memory) :
    (write ptr value).exec mem = store mem ptr value := by
  rw [Program.exec, run_write, Option.map_map]
  exact Option.map_id'

theorem exec_swap (leftPtr rightPtr : ℕ) (mem : Memory) :
    (swap leftPtr rightPtr).exec mem = Sorting.swap mem leftPtr rightPtr := by
  simp only [swap, Sorting.swap, exec_bind, exec_write, run_read, run_write,
    Option.bind_map, Option.bind_eq_bind, Function.comp_def]

theorem exec_compareSwap (numbers : ℕ) (i j : BitVec 64) (mem : Memory) :
    (compareSwap numbers i j).exec mem = Sorting.compareSwap numbers i.toNat mem j.toNat := by
  simp only [compareSwap, Sorting.compareSwap, exec_bind, run_read, Option.bind_map,
    Option.bind_eq_bind, Function.comp_def]
  refine Option.bind_congr fun x _ => Option.bind_congr fun y _ => ?_
  by_cases hlt : x < y
  · rw [if_pos hlt, if_pos hlt, exec_swap]
  · rw [if_neg hlt, if_neg hlt]
    rfl

theorem exec_outerRound (numbers : ℕ) {arraySize i : BitVec 64} (hi : i < arraySize - 1#64)
    (mem : Memory) : (outerRound numbers arraySize i).exec mem =
      (List.range' (i.toNat + 1) (arraySize.toNat - (i.toNat + 1))).foldlM
        (Sorting.compareSwap numbers i.toNat) mem := by
  simp only [outerRound, increment, exec_record_seq, exec_seq_record]
  rw [← toNat_succ_of_lt hi]
  exact exec_forUp (fun _ => rfl)
    (fun j _ _ mem => by rw [exec_seq_record, exec_compareSwap]) mem

/-- Without what it records, the program is the sort. -/
theorem exec_sortInplace (numbers : ℕ) (arraySize : BitVec 64) (mem : Memory) :
    (sortInplace numbers arraySize).exec mem = Sorting.sortInplace mem numbers arraySize := by
  have hloop : (sortInplace numbers arraySize).exec mem =
      (List.range' 0 (arraySize - 1#64).toNat).foldlM (fun mem i =>
        (List.range' (i + 1) (arraySize.toNat - (i + 1))).foldlM
          (Sorting.compareSwap numbers i) mem) mem :=
    exec_forUp (fun _ => rfl) (fun i _ hi mem => exec_outerRound numbers hi mem) mem
  rw [hloop, Sorting.sortInplace, List.range_eq_range']

theorem exec_copyElement (numbers sorted : ℕ) (i : BitVec 64) (mem : Memory) :
    (copyElement numbers sorted i).exec mem =
      Sorting.copyElement numbers sorted mem i.toNat := by
  rw [copyElement, exec_bind, run_read, Option.bind_map]
  simp only [Function.comp_def, increment, exec_seq_record, exec_write]
  rfl

theorem exec_sortCopy (numbers sorted : ℕ) (arraySize : BitVec 64) (mem : Memory) :
    (sortCopy numbers sorted arraySize).exec mem =
      Sorting.sortCopy mem numbers sorted arraySize := by
  have hcopy : (forUp arraySize (pure ()) (copyElement numbers sorted) 0#64).exec mem =
      (List.range' 0 arraySize.toNat).foldlM (Sorting.copyElement numbers sorted) mem :=
    exec_forUp (fun _ => rfl) (fun i _ _ mem => exec_copyElement numbers sorted i mem) mem
  rw [sortCopy, exec_seq, hcopy, Sorting.sortCopy, List.range_eq_range', Option.bind_eq_bind]
  exact Option.bind_congr fun mem' _ => exec_sortInplace sorted arraySize mem'

end Traced

/-- A measure of what is recorded that the accesses to an array of size `n` and unwrapped `size_t`
values leave at zero, and that a round raises by `a`. -/
structure Measures (Φ : ℕ → List Event → Prop) (numbers n a : ℕ) : Prop extends Additive Φ where
  access : ∀ k < n, Φ 0 [.access (numbers + k)]
  size : ∀ k : ℕ, k < 2 ^ 64 → Φ 0 [.size k]
  round : Φ a [.round]

namespace Traced

section Walk

variable {Φ : ℕ → List Event → Prop} {numbers n a : ℕ} (h : Measures Φ numbers n a)

include h

theorem emits_read {k : ℕ} (hk : k < n) : (read (numbers + k)).Emits (Φ 0) :=
  h.bind (emits_record (h.access k hk)) fun _ => emits_act h.nil _

theorem emits_write {k : ℕ} (hk : k < n) (value : ℤ) : (write (numbers + k) value).Emits (Φ 0) :=
  h.bind (emits_record (h.access k hk)) fun _ => emits_act h.nil _

theorem emits_swap {k l : ℕ} (hk : k < n) (hl : l < n) :
    (swap (numbers + k) (numbers + l)).Emits (Φ 0) :=
  h.bind (emits_read h hk) fun _ => h.bind (emits_read h hl) fun _ =>
    h.bind (emits_write h hk _) fun _ => emits_write h hl _

theorem emits_compareSwap {i j : BitVec 64} (hi : i.toNat < n) (hj : j.toNat < n) :
    (compareSwap numbers i j).Emits (Φ 0) := by
  refine h.bind (b := 0) (emits_read h hj) fun x => h.bind (b := 0) (emits_read h hi) fun y => ?_
  split_ifs
  · exact emits_swap h hi hj
  · exact emits_pure h.nil _

theorem emits_increment {i bound : BitVec 64} (hi : i < bound) : (increment i).Emits (Φ 0) := by
  have hlt : i.toNat < bound.toNat := hi
  have hbound := bound.isLt
  exact emits_record (by exact_mod_cast h.size (i.toNat + 1) (by omega))

/-- Of a round nothing but the round itself counts. -/
theorem emits_outerRound {arraySize i : BitVec 64} (hn : arraySize.toNat = n)
    (hi : i < arraySize - 1#64) : (outerRound numbers arraySize i).Emits (Φ a) := by
  have hsucc := toNat_succ_of_lt hi
  have hinner : (forUp arraySize (pure ()) (fun j => do
      compareSwap numbers i j
      increment j) (i + 1#64)).Emits (Φ 0) := by
    refine h.forUp (emits_pure h.nil _) (a := 0) fun j hij hj => ?_
    have hle : (i + 1#64).toNat ≤ j.toNat := hij
    have hlt : j.toNat < arraySize.toNat := hj
    exact h.bind (emits_compareSwap h (by omega) (by omega)) fun _ => emits_increment h hj
  exact h.bind (emits_record h.round) fun _ => h.bind (emits_increment h hi) fun _ =>
    h.bind hinner fun _ => emits_increment h hi

theorem emits_sortInplace {arraySize : BitVec 64} (hn : arraySize.toNat = n)
    (hbound : Φ 0 [.size (arraySize.toNat - 1)]) :
    (sortInplace numbers arraySize).Emits (Φ ((arraySize - 1#64).toNat * a)) :=
  h.forUp (emits_record hbound) fun _ _ hi => emits_outerRound h hn hi

theorem emits_copyElement {sorted : ℕ} (h' : Measures Φ sorted n a) {arraySize i : BitVec 64}
    (hn : arraySize.toNat = n) (hi : i < arraySize) :
    (copyElement numbers sorted i).Emits (Φ 0) := by
  have hlt : i.toNat < n := by
    rw [← hn]
    exact hi
  exact h.bind (emits_read h hlt) fun value => h.bind (emits_write h' hlt value) fun _ =>
    emits_increment h hi

theorem emits_sortCopy {sorted : ℕ} (h' : Measures Φ sorted n a) {arraySize : BitVec 64}
    (hn : arraySize.toNat = n) (hbound : Φ 0 [.size (arraySize.toNat - 1)]) :
    (sortCopy numbers sorted arraySize).Emits (Φ ((arraySize - 1#64).toNat * a)) := by
  have hcopy := h.forUp (emits_pure h.nil ()) (i := 0#64)
    fun i _ hi => emits_copyElement h h' hn hi
  have hall := h.bind hcopy fun _ => emits_sortInplace h' hn hbound
  rwa [Nat.mul_zero, Nat.zero_add] at hall

end Walk

end Traced

/-- A `size_t` value that does not wrap, an element of one of the arrays of size `n`, or a
round. -/
def Event.Fine (bases : List ℕ) (n : ℕ) : Event → Prop
  | size exact => 0 ≤ exact ∧ exact < 2 ^ 64
  | access ptr => ∃ base ∈ bases, ∃ k < n, ptr = base + k
  | round => True

theorem measures_fine {bases : List ℕ} {numbers : ℕ} (hmem : numbers ∈ bases) (n : ℕ) :
    Measures (fun _ events => ∀ e ∈ events, e.Fine bases n) numbers n 0 where
  nil := by simp
  append h h' := List.forall_mem_append.mpr ⟨h, h'⟩
  access k hk := List.forall_mem_singleton.mpr ⟨numbers, hmem, k, hk, rfl⟩
  size k hk := List.forall_mem_singleton.mpr ⟨Int.natCast_nonneg k, by exact_mod_cast hk⟩
  round := List.forall_mem_singleton.mpr trivial

theorem measures_rounds (numbers n : ℕ) :
    Measures (fun k events => events.count .round = k) numbers n 1 where
  nil := rfl
  append h h' := by
    rw [List.count_append, h, h']
  access _ _ := rfl
  size _ _ := rfl
  round := rfl

/-- The program ends, no `size_t` expression wraps, all accesses are within the arrays at the
`bases`, and there are at most `n` rounds. -/
def StaysWithin (p : Program Memory Event Unit) (mem : Memory) (bases : List ℕ) (n : ℕ) : Prop :=
  ∃ r, p mem = some r ∧ (∀ e ∈ r.events, e.Fine bases n) ∧ r.events.count .round ≤ n

/-- `sort_inplace` on an array and `sort_copy` from it stay within bounds. -/
def NoWrap {mem : Memory} (array : IntArray mem) : Prop :=
  StaysWithin (Traced.sortInplace array.base array.size) mem [array.base] array.values.length ∧
    ∀ room : Room array, StaysWithin (Traced.sortCopy array.base room.base array.size) mem
      [array.base, room.base] array.values.length

variable {mem : Memory}

theorem staysWithin_of_emits {p : Program Memory Event Unit} {bases : List ℕ} {n k : ℕ}
    (hrun : ∃ r, p mem = some r) (hfine : p.Emits fun events => ∀ e ∈ events, e.Fine bases n)
    (hrounds : p.Emits fun events => events.count .round = k) (hk : k ≤ n) :
    StaysWithin p mem bases n := by
  obtain ⟨r, hr⟩ := hrun
  exact ⟨r, hr, hfine mem r hr, (hrounds mem r hr).trans_le hk⟩

section Bounds

variable {n : ℕ} {arraySize : BitVec 64} (hn : arraySize.toNat = n) (hsize : arraySize ≠ 0#64)

include hn hsize

theorem toNat_sub_one_le : (arraySize - 1#64).toNat * 1 ≤ n ∧ 1 ≤ arraySize.toNat := by
  have hpos : arraySize.toNat ≠ 0 := fun hzero => hsize (BitVec.eq_of_toNat_eq hzero)
  have hlt := arraySize.isLt
  rw [BitVec.toNat_sub, BitVec.toNat_ofNat]
  omega

/-- The bound of the outer loop. -/
theorem fine_bound (bases : List ℕ) :
    ∀ e ∈ [Event.size (arraySize.toNat - 1)], e.Fine bases n := by
  have hpos := (toNat_sub_one_le hn hsize).2
  have hlt := arraySize.isLt
  refine List.forall_mem_singleton.mpr ⟨?_, ?_⟩
  · omega
  · omega

end Bounds

theorem staysWithin_sortInplace (array : IntArray mem) (hsize : array.size ≠ 0#64) :
    StaysWithin (Traced.sortInplace array.base array.size) mem [array.base]
      array.values.length := by
  obtain ⟨mem', hsort, -⟩ := sortInplace_sorts array
  rw [← Traced.exec_sortInplace] at hsort
  have hn := array.toNat_size
  exact staysWithin_of_emits (exists_outcome hsort)
    (Traced.emits_sortInplace (measures_fine List.mem_cons_self _) hn (fine_bound hn hsize _))
    (Traced.emits_sortInplace (measures_rounds _ _) hn rfl) (toNat_sub_one_le hn hsize).1

theorem staysWithin_sortCopy {array : IntArray mem} (room : Room array)
    (hsize : array.size ≠ 0#64) :
    StaysWithin (Traced.sortCopy array.base room.base array.size) mem [array.base, room.base]
      array.values.length := by
  obtain ⟨mem', hsort, -⟩ := sortCopy_sorts room
  rw [← Traced.exec_sortCopy] at hsort
  have hn := array.toNat_size
  have hroom : room.base ∈ [array.base, room.base] := List.mem_cons_of_mem _ List.mem_cons_self
  exact staysWithin_of_emits (exists_outcome hsort)
    (Traced.emits_sortCopy (measures_fine List.mem_cons_self _) (measures_fine hroom _) hn
      (fine_bound hn hsize _))
    (Traced.emits_sortCopy (measures_rounds _ _) (measures_rounds _ _) hn rfl)
    (toNat_sub_one_le hn hsize).1

/-- For an empty array the bound of the outer loop is one less than zero. -/
theorem not_staysWithin_zero (base : ℕ) (bases : List ℕ) (n : ℕ) :
    ¬ StaysWithin (Traced.sortInplace base 0#64) mem bases n := by
  rintro ⟨r, hr, hfine, -⟩
  have hemits : (Traced.sortInplace base 0#64).Emits (Event.size (-1) ∈ ·) := by
    rw [Traced.sortInplace, forUp]
    exact Program.Emits.mem_left (emits_record List.mem_cons_self)
  exact absurd (hfine _ (hemits mem r hr)).1 (by decide)

/-- Nothing wraps and nothing is out of bounds, unless the array is empty. -/
theorem noWrap_iff (mem : Memory) (array : IntArray mem) : NoWrap array ↔ array.size ≠ 0#64 := by
  constructor
  · rintro ⟨hsort, -⟩ hzero
    rw [hzero] at hsort
    exact not_staysWithin_zero _ _ _ hsort
  · exact fun hsize => ⟨staysWithin_sortInplace array hsize, fun room =>
      staysWithin_sortCopy room hsize⟩

/-- An empty array in a memory without objects. -/
def emptyArray : IntArray fun _ => Cell.absent := ⟨0, [], by decide, nofun⟩

/-- For the empty array the body of the outer loop runs `2 ^ 64 - 1` times. -/
theorem not_noWrap_empty : ¬ NoWrap emptyArray ∧
    ∃ r, Traced.sortInplace emptyArray.base emptyArray.size (fun _ => Cell.absent) = some r ∧
      r.events.count .round = 2 ^ 64 - 1 := by
  obtain ⟨mem', hsort, -⟩ := sortInplace_sorts emptyArray
  rw [← Traced.exec_sortInplace] at hsort
  obtain ⟨r, hr⟩ := exists_outcome hsort
  exact ⟨fun h => not_staysWithin_zero _ _ _ h.1, r, hr,
    Traced.emits_sortInplace (measures_rounds 0 0) rfl rfl _ r hr⟩

end OlinCourses.Sorting
