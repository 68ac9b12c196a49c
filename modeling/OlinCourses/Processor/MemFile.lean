import OlinCourses.Lib.Numerals
import OlinCourses.Processor.Memory

/-!
# Program images

`create_mem_file` of `memgen.py`, which turns the bytes of a program into a memory
file, and the `initial` block of `memory.sv`, which loads the file with `$readmemh`.
-/
namespace OlinCourses.Processor
open Bits Numerals

inductive Format
  | hex
  | bin

/-- The word at byte `i`, as Python computes it. -/
def wordAt (data : List (BitVec 8)) (i : ℕ) (h : i + 4 ≤ data.length) : ℕ :=
  data[i + 3].toNat <<< 24 ||| data[i + 2].toNat <<< 16 ||| data[i + 1].toNat <<< 8 |||
    data[i].toNat

/-- The words of the loop `for i in range(0, len(data), 4)`, with `i = 4 * k`. -/
def wordsOf (data : List (BitVec 8)) : List ℕ :=
  (List.range ((data.length + 3) / 4)).filterMap fun k =>
    if h : 4 * k + 4 ≤ data.length then some (wordAt data (4 * k) h) else none

/-- The text of the file. -/
def createMemFile (data : List (BitVec 8)) (format : Format) (size : ℕ) : List Char :=
  let words := wordsOf data
  let words := words ++ List.replicate (size - words.length) 0
  match format with
  | .hex => writeNumbers 16 8 words
  | .bin => writeNumbers 2 32 words

/-- `$readmemh`, for files of plain numerals: no addresses, comments or unknown digits. -/
def readmemh (text : List Char) : Option (List Word) :=
  (readNumbers 16 none text).map fun words => words.map (BitVec.ofNat 32)

/-- The `initial` block for a memory of `depth` words: zeros, then the words of the file. -/
def initialMem (depth : ℕ) : Option (List Char) → Option (List Word)
  | none => some (List.replicate depth 0#32)
  | some text => do
    let words ← readmemh text
    return words.take depth ++ (List.replicate depth 0#32).drop words.length

/-- A memory byte by byte, little endian. -/
def imageBytes (mem : List Word) : List (BitVec 8) :=
  mem.flatMap fun word => [byteLane word 0, byteLane word 1, byteLane word 2, byteLane word 3]

/-- The file has a line for each of `size` words, and the memory that it loads holds the
bytes, followed by zeros. -/
structure RoundTrips (data : List (BitVec 8)) (size : ℕ) : Prop where
  lines : (createMemFile data .hex size).count '\n' = size
  image : ∃ mem, initialMem size (some (createMemFile data .hex size)) = some mem ∧
    imageBytes mem = data ++ List.replicate (4 * size - data.length) 0#8

theorem length_imageBytes (mem : List Word) : (imageBytes mem).length = 4 * mem.length := by
  induction mem with
  | nil => rfl
  | cons word mem ih =>
    rw [imageBytes, List.flatMap_cons, ← imageBytes, List.length_append, ih, List.length_cons]
    simp
    omega

theorem imageBytes_append (mem mem' : List Word) :
    imageBytes (mem ++ mem') = imageBytes mem ++ imageBytes mem' := List.flatMap_append

theorem imageBytes_replicate (n : ℕ) :
    imageBytes (List.replicate n 0#32) = List.replicate (4 * n) 0#8 := by
  induction n with
  | zero => rfl
  | succ n ih =>
    have hword : imageBytes [0#32] = List.replicate 4 0#8 := by decide
    rw [List.replicate_succ', imageBytes_append, ih, hword, List.replicate_append_replicate,
      Nat.mul_succ]

theorem imageBytes_wordAt (data : List (BitVec 8)) (i : ℕ) (h : i + 4 ≤ data.length) :
    imageBytes [BitVec.ofNat 32 (wordAt data i h)] =
      [data[i], data[i + 1], data[i + 2], data[i + 3]] := by
  obtain ⟨h₀, h₁, h₂, h₃⟩ :=
    byteLane_ofBytes data[i + 3] data[i + 2] data[i + 1] data[i]
  rw [wordAt, ← toNat_ofBytes, BitVec.ofNat_toNat, BitVec.setWidth_eq, imageBytes,
    List.flatMap_singleton, h₀, h₁, h₂, h₃]

/-- The loop skips the last group of bytes if it is not a whole word. -/
theorem wordsOf_eq (data : List (BitVec 8)) :
    wordsOf data = (List.range (data.length / 4)).filterMap fun k =>
      if h : 4 * k + 4 ≤ data.length then some (wordAt data (4 * k) h) else none := by
  rw [wordsOf]
  by_cases hrem : data.length % 4 = 0
  · rw [show (data.length + 3) / 4 = data.length / 4 by omega]
  · rw [show (data.length + 3) / 4 = data.length / 4 + 1 by omega, List.range_succ,
      List.filterMap_append, List.filterMap_cons_none (dif_neg (by omega)), List.filterMap_nil,
      List.append_nil]

theorem take_append_four (data : List (BitVec 8)) (i : ℕ) (h : i + 4 ≤ data.length) :
    data.take i ++ [data[i], data[i + 1], data[i + 2], data[i + 3]] = data.take (i + 4) := by
  have h₁ : data.take (i + 1) = data.take i ++ [data[i]] := List.take_succ_eq_append_getElem _
  have h₂ : data.take (i + 2) = data.take (i + 1) ++ [data[i + 1]] :=
    List.take_succ_eq_append_getElem _
  have h₃ : data.take (i + 3) = data.take (i + 2) ++ [data[i + 2]] :=
    List.take_succ_eq_append_getElem _
  have h₄ : data.take (i + 4) = data.take (i + 3) ++ [data[i + 3]] :=
    List.take_succ_eq_append_getElem _
  rw [h₄, h₃, h₂, h₁]
  simp only [List.append_assoc, List.cons_append, List.nil_append]

/-- The words hold the bytes up to the last whole word. -/
theorem imageBytes_wordsOf (data : List (BitVec 8)) :
    imageBytes ((wordsOf data).map (BitVec.ofNat 32)) = data.take (4 * (data.length / 4)) := by
  have hgroups : ∀ n ≤ data.length / 4, imageBytes (((List.range n).filterMap fun k =>
      if h : 4 * k + 4 ≤ data.length then some (wordAt data (4 * k) h) else none).map
        (BitVec.ofNat 32)) = data.take (4 * n) := by
    intro n hn
    induction n with
    | zero => rfl
    | succ n ih =>
      have hword : 4 * n + 4 ≤ data.length := by omega
      rw [List.range_succ, List.filterMap_append, List.filterMap_cons_some (dif_pos hword),
        List.filterMap_nil, List.map_append, imageBytes_append, ih (by omega), List.map_singleton,
        imageBytes_wordAt, take_append_four, Nat.mul_succ]
  rw [wordsOf_eq]
  exact hgroups _ le_rfl

theorem length_wordsOf (data : List (BitVec 8)) : (wordsOf data).length = data.length / 4 := by
  have hlength := congrArg List.length (imageBytes_wordsOf data)
  rw [length_imageBytes, List.length_map, List.length_take] at hlength
  omega

/-- The words of the file: those of the image, and zeros up to `size`. -/
theorem createMemFile_hex (data : List (BitVec 8)) (size : ℕ) :
    createMemFile data .hex size = writeNumbers 16 8
      (wordsOf data ++ List.replicate (size - data.length / 4) 0) := by
  rw [createMemFile, length_wordsOf]

theorem initialMem_createMemFile {data : List (BitVec 8)} {size : ℕ}
    (hlen : data.length ≤ 4 * size) :
    initialMem size (some (createMemFile data .hex size)) =
      some ((wordsOf data).map (BitVec.ofNat 32) ++
        List.replicate (size - data.length / 4) 0#32) := by
  have hwords : (wordsOf data ++ List.replicate (size - data.length / 4) 0).map
      (BitVec.ofNat 32) = (wordsOf data).map (BitVec.ofNat 32) ++
        List.replicate (size - data.length / 4) 0#32 := by
    rw [List.map_append, List.map_replicate]
  have hlength : ((wordsOf data).map (BitVec.ofNat 32) ++
      List.replicate (size - data.length / 4) 0#32).length = size := by
    rw [List.length_append, List.length_map, length_wordsOf, List.length_replicate]
    omega
  rw [initialMem, createMemFile_hex, readmemh,
    readNumbers_writeNumbers (by decide) (by decide), Option.map_some, hwords,
    Option.bind_eq_bind, Option.bind_some, List.take_of_length_le hlength.le,
    List.drop_of_length_le (by rw [hlength, List.length_replicate]), List.append_nil]
  rfl

/-- The loaded bytes: those of the whole words, then zeros. -/
theorem imageBytes_loaded (data : List (BitVec 8)) (size : ℕ) :
    imageBytes ((wordsOf data).map (BitVec.ofNat 32) ++
        List.replicate (size - data.length / 4) 0#32) =
      data.take (4 * (data.length / 4)) ++
        List.replicate (4 * (size - data.length / 4)) 0#8 := by
  rw [imageBytes_append, imageBytes_wordsOf, imageBytes_replicate]

/-- The bytes behind the last whole word make the difference. -/
theorem image_eq_iff {data : List (BitVec 8)} {size : ℕ} (hlen : data.length ≤ 4 * size) :
    data.take (4 * (data.length / 4)) ++ List.replicate (4 * (size - data.length / 4)) 0#8 =
        data ++ List.replicate (4 * size - data.length) 0#8 ↔
      ∀ byte ∈ data.drop (4 * (data.length / 4)), byte = 0#8 := by
  have hsplit : data ++ List.replicate (4 * size - data.length) 0#8 =
      data.take (4 * (data.length / 4)) ++ (data.drop (4 * (data.length / 4)) ++
        List.replicate (4 * size - data.length) 0#8) := by
    rw [← List.append_assoc, List.take_append_drop]
  have htail : (data.drop (4 * (data.length / 4))).length = data.length % 4 := by
    rw [List.length_drop]
    omega
  have hzeros : List.replicate (4 * (size - data.length / 4)) 0#8 =
      List.replicate (data.length % 4) 0#8 ++ List.replicate (4 * size - data.length) 0#8 := by
    rw [List.replicate_append_replicate]
    congr 1
    omega
  rw [hsplit, hzeros, List.append_cancel_left_eq, List.append_cancel_right_eq, ← htail,
    eq_comm, List.eq_replicate_iff]
  exact and_iff_right rfl

/-- The image comes back exactly when the bytes behind its last whole word are zero. -/
theorem roundTrips_iff {data : List (BitVec 8)} {size : ℕ} (hlen : data.length ≤ 4 * size) :
    RoundTrips data size ↔ ∀ byte ∈ data.drop (4 * (data.length / 4)), byte = 0#8 := by
  have hloaded := initialMem_createMemFile hlen
  rw [← image_eq_iff hlen, ← imageBytes_loaded]
  constructor
  · rintro ⟨-, mem, hmem, himage⟩
    rw [hloaded, Option.some_inj] at hmem
    rwa [hmem]
  · intro himage
    refine ⟨?_, _, hloaded, himage⟩
    rw [createMemFile_hex, count_newline_writeNumbers (by decide) (by decide),
      List.length_append, length_wordsOf, List.length_replicate]
    omega

/-- A word and a byte of padding. -/
theorem roundTrips_iff_padded : RoundTrips [0x13#8, 0#8, 0#8, 0#8, 0#8] 2 :=
  (roundTrips_iff (by decide)).mpr (by decide)

/-- A single byte is no whole word and is lost. -/
theorem not_roundTrips_single : ¬ RoundTrips [1#8] 1 := by
  rintro ⟨-, mem, hmem, himage⟩
  have hloaded : initialMem 1 (some (createMemFile [1#8] .hex 1)) = some [0#32] := by decide
  rw [hloaded, Option.some_inj] at hmem
  rw [← hmem] at himage
  exact absurd himage (by decide)

/-- The memory module after its `initial` block. -/
def Memory.initial (initFile : Option (List Char)) : Option Memory := do
  let mem ← initialMem 2048 initFile
  return { mem := fun i => mem.getD i.toNat 0#32 }

theorem getD_imageBytes (mem : List Word) (a : ℕ) :
    (imageBytes mem).getD a 0#8 = byteLane (mem.getD (a / 4) 0#32) (a % 4) := by
  induction mem generalizing a with
  | nil =>
    have hlane : ∀ k < 4, byteLane 0#32 k = 0#8 := by decide
    exact (hlane (a % 4) (Nat.mod_lt a (by decide))).symm
  | cons word mem ih =>
    rw [imageBytes, List.flatMap_cons, ← imageBytes]
    by_cases ha : a < 4
    · interval_cases a <;> rfl
    · obtain ⟨k, rfl⟩ : ∃ k, a = k + 4 := ⟨a - 4, by omega⟩
      rw [Nat.add_div_right k (by decide), Nat.add_mod_right]
      exact ih k

theorem getD_append_replicate (data : List (BitVec 8)) (n a : ℕ) :
    (data ++ List.replicate n 0#8).getD a 0#8 = data.getD a 0#8 := by
  rw [List.getD_eq_getElem?_getD, List.getD_eq_getElem?_getD]
  by_cases ha : a < data.length
  · rw [List.getElem?_append_left ha]
  · have hle : data.length ≤ a := not_lt.mp ha
    rw [List.getElem?_append_right hle, List.getElem?_eq_none hle, List.getElem?_replicate]
    split_ifs <;> simp

/-- A program whose tail is zero is found in the memory, byte by byte. -/
theorem Memory.dataByte_initial {data : List (BitVec 8)} (hlen : data.length ≤ 4 * 2048)
    (hzero : ∀ byte ∈ data.drop (4 * (data.length / 4)), byte = 0#8) :
    ∃ m, Memory.initial (some (createMemFile data .hex 2048)) = some m ∧
      ∀ address, inRam address → m.dataByte address = data.getD address.toNat 0#8 := by
  have himage := (image_eq_iff hlen).mpr hzero
  rw [← imageBytes_loaded] at himage
  refine ⟨_, by rw [Memory.initial, initialMem_createMemFile hlen]; rfl, fun address hram => ?_⟩
  have hindex : (address.extractLsb' 2 11).toNat = address.toNat / 4 := by
    rw [inRam_iff] at hram
    rw [BitVec.extractLsb'_toNat, Nat.shiftRight_eq_div_pow]
    omega
  rw [dataByte, if_pos hram]
  dsimp only
  rw [hindex, ← getD_imageBytes, himage, getD_append_replicate]

end OlinCourses.Processor
