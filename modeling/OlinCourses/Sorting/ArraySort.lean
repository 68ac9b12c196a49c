import OlinCourses.Lib.Exchange
import OlinCourses.Lib.Loop

/-!
# Sorting arrays

`array_sort.c`: `sort_inplace`, an exchange sort, and `sort_copy`, on a memory of `int`
objects. An access outside the allocated objects, or a read of an uninitialised one, is
undefined behaviour, written `none`.
-/
namespace OlinCourses.Sorting
open Exchange Loop

/-- What is at an address: no object, or one that is uninitialised or holds a value. -/
inductive Cell
  | absent
  | garbage
  | int (value : ℤ)
  deriving DecidableEq

abbrev Memory := ℕ → Cell

def load (mem : Memory) (ptr : ℕ) : Option ℤ :=
  match mem ptr with
  | .int value => some value
  | _ => none

def store (mem : Memory) (ptr : ℕ) (value : ℤ) : Option Memory :=
  match mem ptr with
  | .absent => none
  | _ => some (Function.update mem ptr (.int value))

def swap (mem : Memory) (leftPtr rightPtr : ℕ) : Option Memory := do
  let temp ← load mem leftPtr
  let mem ← store mem leftPtr (← load mem rightPtr)
  store mem rightPtr temp

/-- The body of the inner loop. -/
def compareSwap (numbers i : ℕ) (mem : Memory) (j : ℕ) : Option Memory := do
  if (← load mem (numbers + j)) < (← load mem (numbers + i)) then
    swap mem (numbers + i) (numbers + j)
  else some mem

/-- The bound `array_size - 1` of the outer loop wraps around for an empty array. -/
def sortInplace (mem : Memory) (numbers : ℕ) (arraySize : BitVec 64) : Option Memory :=
  (List.range (arraySize - 1#64).toNat).foldlM (fun mem i =>
    (List.range' (i + 1) (arraySize.toNat - (i + 1))).foldlM (compareSwap numbers i) mem) mem

def copyElement (numbers sorted : ℕ) (mem : Memory) (i : ℕ) : Option Memory := do
  store mem (sorted + i) (← load mem (numbers + i))

def sortCopy (mem : Memory) (numbers sorted : ℕ) (arraySize : BitVec 64) : Option Memory := do
  let mem ← (List.range arraySize.toNat).foldlM (copyElement numbers sorted) mem
  sortInplace mem sorted arraySize

/-- The objects from `base` on hold these values. -/
def HoldsAt (mem : Memory) (base : ℕ) (xs : List ℤ) : Prop :=
  ∀ i x, xs[i]? = some x → mem (base + i) = .int x

/-- Nothing but the `n` objects from `base` on has changed. -/
def UnchangedOutside (base n : ℕ) (mem mem' : Memory) : Prop :=
  ∀ ptr, (∀ i < n, ptr ≠ base + i) → mem' ptr = mem ptr

/-- An initialised array whose length is a `size_t`. -/
structure IntArray (mem : Memory) where
  base : ℕ
  values : List ℤ
  fits : values.length < 2 ^ 64
  holds : HoldsAt mem base values

def IntArray.size {mem : Memory} (array : IntArray mem) : BitVec 64 :=
  BitVec.ofNat 64 array.values.length

/-- Room for as many objects as an array has, apart from it. -/
structure Room {mem : Memory} (array : IntArray mem) where
  base : ℕ
  allocated : ∀ i < array.values.length, mem (base + i) ≠ .absent
  disjoint : ∀ i < array.values.length, ∀ j < array.values.length,
    array.base + i ≠ base + j

/-- The array from `base` on is a permutation of `xs` in order. -/
def HoldsSorted (mem : Memory) (base : ℕ) (xs : List ℤ) : Prop :=
  ∃ ys, HoldsAt mem base ys ∧ ys.Pairwise (· ≤ ·) ∧ ys.Perm xs

theorem IntArray.toNat_size {mem : Memory} (array : IntArray mem) :
    array.size.toNat = array.values.length := by
  rw [IntArray.size, BitVec.toNat_ofNat, Nat.mod_eq_of_lt array.fits]

/-- The value of an object. -/
def Cell.value : Cell → ℤ
  | .int value => value
  | _ => 0

/-- The values from `base` on, by position. -/
def view (base : ℕ) (mem : Memory) (i : ℕ) : ℤ := (mem (base + i)).value

/-- Between two rounds the `n` objects hold values, and the other ones are as they were. -/
structure Rearranged (base n : ℕ) (mem mem' : Memory) : Prop where
  initialised : ∀ i < n, mem' (base + i) = .int (view base mem' i)
  frame : UnchangedOutside base n mem mem'

theorem load_eq {mem : Memory} {ptr : ℕ} {value : ℤ} (h : mem ptr = .int value) :
    load mem ptr = some value := by
  rw [load, h]

theorem store_eq {mem : Memory} {ptr : ℕ} (h : mem ptr ≠ .absent) (value : ℤ) :
    store mem ptr value = some (Function.update mem ptr (.int value)) := by
  unfold store
  split
  · exact absurd ‹_› h
  · rfl

variable {base n : ℕ} {mem mem' : Memory}

namespace Rearranged

theorem load (h : Rearranged base n mem mem') {i : ℕ} (hi : i < n) :
    load mem' (base + i) = some (view base mem' i) := load_eq (h.initialised i hi)

/-- A store into the array. -/
theorem store (h : Rearranged base n mem mem') {i : ℕ} (hi : i < n) (value : ℤ) :
    ∃ mem'', store mem' (base + i) value = some mem'' ∧ Rearranged base n mem mem'' ∧
      view base mem'' = Function.update (view base mem') i value := by
  have hview : view base (Function.update mem' (base + i) (.int value)) =
      Function.update (view base mem') i value := by
    funext k
    by_cases hk : k = i
    · rw [hk, view, Function.update_self, Function.update_self, Cell.value]
    · rw [view, Function.update_of_ne (by omega), Function.update_of_ne hk, view]
  have habsent : mem' (base + i) ≠ .absent := by
    rw [h.initialised i hi]
    exact nofun
  refine ⟨_, store_eq habsent value, ⟨fun k hk => ?_, fun ptr hptr => ?_⟩, hview⟩
  · rw [hview]
    by_cases hki : k = i
    · rw [hki, Function.update_self, Function.update_self]
    · rw [Function.update_of_ne (by omega), Function.update_of_ne hki]
      exact h.initialised k hk
  · rw [Function.update_of_ne (hptr i hi)]
    exact h.frame ptr hptr

theorem swap (h : Rearranged base n mem mem') {i j : ℕ} (hi : i < n) (hj : j < n) :
    ∃ mem'', swap mem' (base + i) (base + j) = some mem'' ∧ Rearranged base n mem mem'' ∧
      view base mem'' = view base mem' ∘ Equiv.swap i j := by
  obtain ⟨mem₁, hleft, h₁, hview₁⟩ := h.store hi (view base mem' j)
  obtain ⟨mem₂, hright, h₂, hview₂⟩ := h₁.store hj (view base mem' i)
  refine ⟨mem₂, ?_, h₂, ?_⟩
  · simp only [Sorting.swap, h.load hi, h.load hj, hleft, hright, Option.bind_eq_bind,
      Option.bind_some]
  · funext k
    rw [hview₂, hview₁, Function.comp_apply, Equiv.swap_apply_def]
    by_cases hkj : k = j
    · subst hkj
      rw [Function.update_self]
      by_cases hki : k = i
      · rw [if_pos hki, hki]
      · rw [if_neg hki, if_pos rfl]
    · rw [Function.update_of_ne hkj]
      by_cases hki : k = i
      · rw [hki, Function.update_self, if_pos rfl]
      · rw [Function.update_of_ne hki, if_neg hki, if_neg hkj]

theorem compareSwap (h : Rearranged base n mem mem') {i j : ℕ} (hi : i < n) (hj : j < n) :
    ∃ mem'', compareSwap base i mem' j = some mem'' ∧ Rearranged base n mem mem'' ∧
      view base mem'' = exchange i (view base mem') j := by
  unfold exchange
  by_cases hlt : view base mem' j < view base mem' i
  · obtain ⟨mem'', hswap, hnext⟩ := h.swap hi hj
    refine ⟨mem'', ?_, ?_⟩
    · simp only [Sorting.compareSwap, h.load hi, h.load hj, hlt, hswap, if_true,
        Option.bind_eq_bind, Option.bind_some]
    · rwa [if_pos hlt]
  · refine ⟨mem', ?_, h, by rw [if_neg hlt]⟩
    simp only [Sorting.compareSwap, h.load hi, h.load hj, hlt, if_false, Option.bind_eq_bind,
      Option.bind_some]

end Rearranged

/-- The loops act on the values as the exchange sort does. -/
theorem sortInplace_spec (array : IntArray mem) :
    ∃ mem', sortInplace mem array.base array.size = some mem' ∧
      Rearranged array.base array.values.length mem mem' ∧ view array.base mem' =
        sort array.values.length (array.size - 1#64).toNat (view array.base mem) := by
  have hstart : Rearranged array.base array.values.length mem mem := by
    refine ⟨fun i hi => ?_, fun ptr _ => rfl⟩
    have hcell := array.holds i _ (List.getElem?_eq_getElem hi)
    rw [view, hcell, Cell.value]
  unfold sortInplace
  rw [array.toNat_size]
  refine foldlM_simulates (Rearranged array.base array.values.length mem) (view array.base) _
    (fun mem₁ h₁ i _ => ?_) hstart
  refine foldlM_simulates (Rearranged array.base array.values.length mem) (view array.base) _
    (fun mem₂ h₂ j hj => ?_) h₁
  obtain ⟨hij, hlt⟩ := mem_later.mp hj
  exact h₂.compareSwap (hij.trans hlt) hlt

theorem values_view {xs : List ℤ} (h : HoldsAt mem base xs) :
    values xs.length (view base mem) = xs := by
  apply List.ext_getElem
  · simp [values]
  · intro i hi hi'
    have hcell := h i _ (List.getElem?_eq_getElem hi')
    simp [values, view, hcell, Cell.value]

theorem Rearranged.holdsAt (h : Rearranged base n mem mem') :
    HoldsAt mem' base (values n (view base mem')) := by
  intro i x hx
  obtain ⟨hi, rfl⟩ := List.getElem?_eq_some_iff.mp hx
  have hlt : i < n := by simpa [values] using hi
  rw [h.initialised i hlt]
  simp [values]

/-- `sort_inplace` sorts the array and touches nothing else. -/
theorem sortInplace_sorts (array : IntArray mem) :
    ∃ mem', sortInplace mem array.base array.size = some mem' ∧
      HoldsSorted mem' array.base array.values ∧
      UnchangedOutside array.base array.values.length mem mem' := by
  obtain ⟨mem', hsort, hmem', hview⟩ := sortInplace_spec array
  have hpasses : array.values.length - 1 ≤ (array.size - 1#64).toNat := by
    have hfits := array.fits
    rw [BitVec.toNat_sub, array.toNat_size, BitVec.toNat_ofNat]
    omega
  refine ⟨mem', hsort, ⟨_, hmem'.holdsAt, ?_, ?_⟩, hmem'.frame⟩
  · rw [hview]
    exact pairwise_sort hpasses _
  · have hperm := values_sort array.values.length (array.size - 1#64).toNat (view array.base mem)
    rwa [← hview, values_view array.holds] at hperm

/-- The first `k` elements are copied. -/
structure Copied (array : IntArray mem) (base k : ℕ) (mem' : Memory) : Prop where
  copied : ∀ i < k, ∀ x, array.values[i]? = some x → mem' (base + i) = .int x
  allocated : ∀ i < array.values.length, mem' (base + i) ≠ .absent
  frame : UnchangedOutside base array.values.length mem mem'

theorem Copied.next {array : IntArray mem} (room : Room array) {k : ℕ}
    (hk : k < array.values.length) (h : Copied array room.base k mem') :
    ∃ mem'', copyElement array.base room.base mem' k = some mem'' ∧
      Copied array room.base (k + 1) mem'' := by
  have hsource : mem' (array.base + k) = .int array.values[k] := by
    rw [h.frame _ fun i hi => room.disjoint k hk i hi]
    exact array.holds k _ (List.getElem?_eq_getElem hk)
  refine ⟨Function.update mem' (room.base + k) (.int array.values[k]), ?_,
    ⟨fun i hi x hx => ?_, fun i hi => ?_, fun ptr hptr => ?_⟩⟩
  · rw [copyElement, load_eq hsource, Option.bind_eq_bind, Option.bind_some,
      store_eq (h.allocated k hk)]
  · obtain hlt | rfl := Nat.lt_succ_iff_lt_or_eq.mp hi
    · rw [Function.update_of_ne (by omega)]
      exact h.copied i hlt x hx
    · rw [List.getElem?_eq_getElem hk, Option.some_inj] at hx
      rw [Function.update_self, hx]
  · by_cases hik : i = k
    · rw [hik, Function.update_self]
      exact nofun
    · rw [Function.update_of_ne (by omega)]
      exact h.allocated i hi
  · rw [Function.update_of_ne (hptr k hk)]
    exact h.frame ptr hptr

theorem copy_spec {array : IntArray mem} (room : Room array) :
    ∃ mem', (List.range array.size.toNat).foldlM (copyElement array.base room.base) mem =
        some mem' ∧ HoldsAt mem' room.base array.values ∧
      UnchangedOutside room.base array.values.length mem mem' := by
  have hstart : Copied array room.base 0 mem :=
    ⟨fun i hi => absurd hi (Nat.not_lt_zero i), room.allocated, fun ptr _ => rfl⟩
  rw [array.toNat_size]
  obtain ⟨mem', hloop, hmem'⟩ := foldlM_range_total (Copied array room.base) array.values.length
    (fun k hk mem₁ h₁ => h₁.next room hk) hstart
  refine ⟨mem', hloop, fun i x hx => ?_, hmem'.frame⟩
  obtain ⟨hi, -⟩ := List.getElem?_eq_some_iff.mp hx
  exact hmem'.copied i hi x hx

/-- `sort_copy` sorts the copy, and of the memory it changes nothing but the copy. -/
theorem sortCopy_sorts {array : IntArray mem} (room : Room array) :
    ∃ mem', sortCopy mem array.base room.base array.size = some mem' ∧
      HoldsSorted mem' room.base array.values ∧ HoldsAt mem' array.base array.values ∧
      UnchangedOutside room.base array.values.length mem mem' := by
  obtain ⟨mem₁, hcopy, hholds, hframe⟩ := copy_spec room
  obtain ⟨mem₂, hsort, hsorted, hframe'⟩ :=
    sortInplace_sorts (IntArray.mk room.base array.values array.fits hholds)
  have hunchanged : UnchangedOutside room.base array.values.length mem mem₂ := by
    intro ptr hptr
    rw [hframe' ptr hptr, hframe ptr hptr]
  refine ⟨mem₂, ?_, hsorted, fun i x hx => ?_, hunchanged⟩
  · rw [sortCopy, hcopy]
    exact hsort
  · obtain ⟨hi, -⟩ := List.getElem?_eq_some_iff.mp hx
    rw [hunchanged _ fun j hj => room.disjoint i hi j hj]
    exact array.holds i x hx

/-- Both functions sort every array, of whatever size; the copy leaves its source alone. -/
theorem sort_correct (mem : Memory) (array : IntArray mem) :
    (∃ mem', sortInplace mem array.base array.size = some mem' ∧
      HoldsSorted mem' array.base array.values) ∧
    ∀ room : Room array, ∃ mem', sortCopy mem array.base room.base array.size = some mem' ∧
      HoldsSorted mem' room.base array.values ∧ HoldsAt mem' array.base array.values := by
  constructor
  · obtain ⟨mem', hsort, hsorted, -⟩ := sortInplace_sorts array
    exact ⟨mem', hsort, hsorted⟩
  · intro room
    obtain ⟨mem', hsort, hsorted, hsource, -⟩ := sortCopy_sorts room
    exact ⟨mem', hsort, hsorted, hsource⟩

/-- The objects 0 to 3 hold an array with a repeated value, and 10 to 13 are uninitialised. -/
def threeOneThreeTwo : Memory
  | 0 => .int 3
  | 1 => .int 1
  | 2 => .int 3
  | 3 => .int 2
  | ptr => if 10 ≤ ptr ∧ ptr < 14 then .garbage else .absent

def sourceArray : IntArray threeOneThreeTwo where
  base := 0
  values := [3, 1, 3, 2]
  fits := by decide
  holds i x hx := by
    obtain ⟨hi, rfl⟩ := List.getElem?_eq_some_iff.mp hx
    revert i
    decide

def roomAtTen : Room sourceArray where
  base := 10
  allocated := by decide
  disjoint := by decide

theorem sort_correct_sourceArray :
    (∃ mem', sortInplace threeOneThreeTwo 0 4 = some mem' ∧ HoldsAt mem' 0 [1, 2, 3, 3]) ∧
      ∃ mem', sortCopy threeOneThreeTwo 0 10 4 = some mem' ∧ HoldsAt mem' 10 [1, 2, 3, 3] ∧
        HoldsAt mem' 0 [3, 1, 3, 2] := by
  have hsorted : ∀ ys : List ℤ, ys.Pairwise (· ≤ ·) → ys.Perm [3, 1, 3, 2] →
      ys = [1, 2, 3, 3] :=
    fun ys hys hperm => (hperm.trans (by decide)).eq_of_pairwise' hys (by decide)
  obtain ⟨⟨mem', hsort, ys, hys, hpairwise, hperm⟩, hcopy⟩ :=
    sort_correct threeOneThreeTwo sourceArray
  obtain ⟨mem'', hsort', ⟨zs, hzs, hpairwise', hperm'⟩, hsource⟩ := hcopy roomAtTen
  obtain rfl := hsorted ys hpairwise hperm
  obtain rfl := hsorted zs hpairwise' hperm'
  exact ⟨⟨mem', hsort, hys⟩, mem'', hsort', hzs, hsource⟩

end OlinCourses.Sorting
