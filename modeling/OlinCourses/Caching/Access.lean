import OlinCourses.Caching.Slicing

/-!
# One access

An access makes its address resident and keeps the cache well sized and coherent
with memory. Its counters follow what the address meets in its line.
-/
namespace OlinCourses.Caching
open DirectMapped

/-- The tags of the valid lines. -/
def directory (lines : List CacheLine) (i : ℕ) : Option ℕ :=
  lines[i]?.bind fun line => if line.valid then some line.tag.toNat else none

/-- The bytes of the lines, valid or not. -/
def data (lines : List CacheLine) (i k : ℕ) : Option Byte :=
  lines[i]?.bind fun line => line.block[k]?

section Lines

variable {lines : List CacheLine} {i : ℕ} (hi : i < lines.length) (line : CacheLine)

include hi

theorem directory_set : directory (lines.set i line) =
    Function.update (directory lines) i (if line.valid then some line.tag.toNat else none) := by
  ext1 j
  by_cases h : j = i
  · subst h
    simp [directory, hi]
  · simp [directory, Function.update_of_ne h, List.getElem?_set_ne (Ne.symm h)]

theorem data_set : data (lines.set i line) =
    Function.update (data lines) i fun k => line.block[k]? := by
  ext1 j
  by_cases h : j = i
  · subst h
    ext1 k
    simp [data, hi]
  · ext1 k
    simp [data, Function.update_of_ne h, List.getElem?_set_ne (Ne.symm h)]

end Lines

section Block

variable {lines : List CacheLine} {i : ℕ} {line : CacheLine} (hline : lines[i]? = some line)

include hline

theorem directory_of_line :
    directory lines i = if line.valid then some line.tag.toNat else none := by
  rw [directory, hline, Option.bind_some]

theorem directory_eq_some_iff {t : ℕ} :
    directory lines i = some t ↔ line.valid = true ∧ line.tag.toNat = t := by
  rw [directory_of_line hline]
  by_cases hvalid : line.valid = true
  · rw [if_pos hvalid, Option.some_inj]
    exact (and_iff_right hvalid).symm
  · rw [if_neg hvalid]
    exact iff_of_false nofun fun h => hvalid h.1

/-- A line with another block keeps its place in the directory. -/
theorem directory_set_block (block : List Byte) :
    directory (lines.set i { line with block }) = directory lines := by
  obtain ⟨hi, -⟩ := List.getElem?_eq_some_iff.mp hline
  rw [directory_set hi]
  exact directory_of_line hline ▸ Function.update_eq_self _ _

theorem data_set_byte {offset : ℕ} (hoff : offset < line.block.length) (value : Byte) :
    data (lines.set i { line with block := line.block.set offset value }) =
      Function.update (data lines) i (Function.update (data lines i) offset (some value)) := by
  obtain ⟨hi, -⟩ := List.getElem?_eq_some_iff.mp hline
  rw [data_set hi]
  congr 1
  ext1 k
  by_cases hk : k = offset
  · rw [hk, Function.update_self]
    exact List.getElem?_set_self hoff
  · rw [Function.update_of_ne hk, data, hline, Option.bind_some]
    exact List.getElem?_set_ne (Ne.symm hk)

end Block

/-- The sizes that `make_cache` gives to its arrays. -/
structure Cache.Sized (c : Cache) : Prop where
  fits : c.params.Fits
  lines : c.lines.length = 2 ^ c.params.numIndexBits.toNat
  block : ∀ line ∈ c.lines, line.block.length = 2 ^ c.params.numOffsetBits.toNat

/-- Resident addresses hold the byte of memory. -/
def Coherent (c : Cache) (mem : Memory) : Prop :=
  (geometry c.params).Coherent (directory c.lines) (data c.lines) (fun a => some (mem a))

theorem Cache.Sized.index_lt {c : Cache} (hc : c.Sized) (addr : Addr) :
    (geometry c.params).index addr < c.lines.length := by
  rw [hc.lines]
  exact Caching.index_lt c.params addr

theorem Cache.Sized.exists_line {c : Cache} (hc : c.Sized) (addr : Addr) :
    ∃ line, c.lines[(geometry c.params).index addr]? = some line ∧
      line.block.length = 2 ^ c.params.numOffsetBits.toNat := by
  refine ⟨c.lines.get ⟨(geometry c.params).index addr, hc.index_lt addr⟩, ?_, ?_⟩
  · exact List.getElem?_eq_getElem _
  · exact hc.block _ (List.getElem_mem _)

/-- The bytes of memory in the block of `addr`. -/
def blockOf (params : LineParams) (mem : Memory) (addr : Addr) : List Byte :=
  (List.range (2 ^ params.numOffsetBits.toNat)).map fun k =>
    mem (addr - BitVec.ofNat 64 ((geometry params).offset addr) + BitVec.ofNat 64 k)

@[simp] theorem blockOf_length (params : LineParams) (mem : Memory) (addr : Addr) :
    (blockOf params mem addr).length = 2 ^ params.numOffsetBits.toNat := by
  simp [blockOf]

theorem blockOf_getElem? (params : LineParams) (mem : Memory) {a b : Addr}
    (ht : (geometry params).tag b = (geometry params).tag a)
    (hi : (geometry params).index b = (geometry params).index a) :
    (blockOf params mem a)[(geometry params).offset b]? = some (mem b) := by
  have hb := offset_lt params b
  simp [blockOf, hb, blockAddr_add_offset params ht hi]

theorem setByte_append (xs ys : List Byte) (y v : Byte) :
    setByte (xs ++ y :: ys) xs.length v = some (xs ++ v :: ys) := by
  simp [setByte]

theorem copyBlock_eq (mem : Memory) (blockAddr : Addr) (n : ℕ) (block : List Byte)
    (hn : n ≤ block.length) : copyBlock mem blockAddr n block = some
      ((List.range n).map (fun k => mem (blockAddr + BitVec.ofNat 64 k)) ++ block.drop n) := by
  induction n with
  | zero => simp [copyBlock]
  | succ n ih =>
    have hprev := ih (by omega)
    have hset := setByte_append
      ((List.range n).map fun k => mem (blockAddr + BitVec.ofNat 64 k)) (block.drop (n + 1))
      block[n] (mem (blockAddr + BitVec.ofNat 64 n))
    rw [List.length_map, List.length_range, ← List.drop_eq_getElem_cons (by omega)] at hset
    unfold copyBlock at hprev ⊢
    rw [List.range_succ, List.foldlM_append, hprev]
    simp [hset]

theorem blockSize_eq {c : Cache} (h : c.params.Fits) :
    ∃ size, blockSize c = some size ∧ size.toNat = 2 ^ c.params.numOffsetBits.toNat := by
  rw [blockSize, if_neg (numOffsetBits_ne h)]
  unfold LineParams.Fits at h
  exact shl_one (by omega)

section Access

variable {c : Cache} (hc : c.Sized) (mem : Memory) (addr : Addr)

include hc

theorem access_of_hit
    (hhit : directory c.lines ((geometry c.params).index addr) =
      some ((geometry c.params).tag addr)) :
    access c mem addr = some { c with hits := c.hits + 1#64 } := by
  obtain ⟨line, hline, -⟩ := hc.exists_line addr
  obtain ⟨hvalid, hvalue⟩ := (directory_eq_some_iff hline).mp hhit
  have htag : line.tag = BitVec.ofNat 64 ((geometry c.params).tag addr) := by
    apply BitVec.eq_of_toNat_eq
    rw [toNat_ofNat_tag, hvalue]
  simp only [access, getTag_eq hc.fits, getLineIndex_eq hc.fits, toNat_ofNat_index, hline, hvalid,
    htag, Option.bind_eq_bind, Option.bind_some, Option.pure_def, beq_self_eq_true, Bool.and_true,
    if_true]

theorem access_of_miss
    (hmiss : directory c.lines ((geometry c.params).index addr) ≠
      some ((geometry c.params).tag addr)) :
    access c mem addr = some { c with
      misses := c.misses + 1#64
      evictions := if directory c.lines ((geometry c.params).index addr) = none then c.evictions
        else c.evictions + 1#64
      lines := c.lines.set ((geometry c.params).index addr)
        ⟨blockOf c.params mem addr, BitVec.ofNat 64 ((geometry c.params).tag addr), true⟩ } := by
  obtain ⟨line, hline, hlen⟩ := hc.exists_line addr
  obtain ⟨size, hsize, hval⟩ := blockSize_eq hc.fits
  rw [directory_of_line hline] at hmiss ⊢
  have hcopy := copyBlock_eq mem (addr - BitVec.ofNat 64 ((geometry c.params).offset addr))
    size.toNat line.block (by omega)
  rw [List.drop_of_length_le (by omega), List.append_nil, hval] at hcopy
  have htest : (line.valid && line.tag == BitVec.ofNat 64 ((geometry c.params).tag addr)) =
      false := by
    rw [Bool.and_eq_false_iff, beq_eq_false_iff_ne]
    by_cases hvalid : line.valid = true
    · refine Or.inr fun htag => hmiss ?_
      rw [if_pos hvalid, htag, toNat_ofNat_tag]
    · exact Or.inl (by simpa using hvalid)
  simp only [access, getTag_eq hc.fits, getLineIndex_eq hc.fits, getLineOffset_eq hc.fits, hline,
    hsize, hval, hcopy, htest, toNat_ofNat_index, Option.bind_eq_bind, Option.bind_some,
    Option.pure_def, Bool.false_eq_true, if_false, blockOf]
  cases line.valid <;> simp

end Access

/-- The directory and the counters after an access to `addr`. -/
structure Accessed (c c' : Cache) (addr : Addr) : Prop where
  params : c'.params = c.params
  sized : c'.Sized
  directory : directory c'.lines = (geometry c.params).access (directory c.lines) addr
  hits : c'.hits = c.hits + BitVec.ofNat 64
    (if (geometry c.params).outcome (Caching.directory c.lines) addr = .hit then 1 else 0)
  misses : c'.misses = c.misses + BitVec.ofNat 64
    (if (geometry c.params).outcome (Caching.directory c.lines) addr = .hit then 0 else 1)
  evictions : c'.evictions = c.evictions + BitVec.ofNat 64
    (if (geometry c.params).outcome (Caching.directory c.lines) addr = .evict then 1 else 0)
  valid : c'.lines.countP (·.valid) = c.lines.countP (·.valid) +
    if (geometry c.params).outcome (Caching.directory c.lines) addr = .cold then 1 else 0

section Spec

variable {c : Cache}

/-- Replacing a line by one of the same size keeps the cache well sized. -/
theorem Cache.Sized.set (hc : c.Sized) {c' : Cache} (hparams : c'.params = c.params) {i : ℕ}
    {line : CacheLine} (hlines : c'.lines = c.lines.set i line)
    (hline : line.block.length = 2 ^ c.params.numOffsetBits.toNat) : c'.Sized where
  fits := hparams ▸ hc.fits
  lines := by rw [hlines, List.length_set, hparams, hc.lines]
  block := by
    intro l hl
    rw [hlines] at hl
    rw [hparams]
    obtain hl | rfl := List.mem_or_eq_of_mem_set hl
    · exact hc.block l hl
    · exact hline

theorem countP_set_valid {lines : List CacheLine} {i : ℕ} (hi : i < lines.length)
    (line : CacheLine) (hvalid : line.valid = true) :
    (lines.set i line).countP (·.valid) =
      lines.countP (·.valid) + if directory lines i = none then 1 else 0 := by
  have hpos : lines[i].valid = true → 0 < lines.countP (·.valid) := fun h =>
    List.countP_pos_iff.mpr ⟨lines[i], List.getElem_mem hi, h⟩
  rw [List.countP_set hi, directory_of_line (List.getElem?_eq_getElem hi)]
  by_cases h : lines[i].valid = true
  · have := hpos h
    simp only [h, hvalid, if_true, reduceCtorEq, if_false]
    omega
  · simp [h, hvalid]

theorem accessed_of_hit (hc : c.Sized) {addr : Addr}
    (hhit : directory c.lines ((geometry c.params).index addr) =
      some ((geometry c.params).tag addr)) :
    Accessed c { c with hits := c.hits + 1#64 } addr := by
  have hout : (geometry c.params).outcome (directory c.lines) addr = .hit := by
    simp [Geometry.outcome, hhit]
  refine ⟨rfl, ⟨hc.fits, hc.lines, hc.block⟩, ?_, ?_, ?_, ?_, ?_⟩
  · rw [Geometry.access, ← hhit, Function.update_eq_self]
  · simp [hout]
  · simp [hout]
  · simp [hout]
  · simp [hout]

theorem accessed_of_miss (hc : c.Sized) (mem : Memory) {addr : Addr} {c' : Cache}
    (hmiss : directory c.lines ((geometry c.params).index addr) ≠
      some ((geometry c.params).tag addr))
    (h : access c mem addr = some c') : Accessed c c' addr := by
  rw [access_of_miss hc mem addr hmiss, Option.some.injEq] at h
  subst h
  have hi := hc.index_lt addr
  refine ⟨rfl, hc.set rfl rfl (blockOf_length _ _ _), ?_, ?_, ?_, ?_, ?_⟩
  · rw [directory_set hi, Geometry.access, if_pos rfl, toNat_ofNat_tag]
  all_goals
    cases hd : directory c.lines ((geometry c.params).index addr) with
    | none => simp [Geometry.outcome, hd, countP_set_valid hi]
    | some t =>
      rw [hd] at hmiss
      have ht : t ≠ (geometry c.params).tag addr := fun ht => hmiss (congrArg some ht)
      simp [Geometry.outcome, hd, ht, countP_set_valid hi]

theorem access_spec (hc : c.Sized) (mem : Memory) (addr : Addr) :
    ∃ c', access c mem addr = some c' ∧ Accessed c c' addr ∧
      (Coherent c mem → Coherent c' mem) := by
  by_cases hd : directory c.lines ((geometry c.params).index addr) =
      some ((geometry c.params).tag addr)
  · exact ⟨_, access_of_hit hc mem addr hd, accessed_of_hit hc hd, id⟩
  · have h := access_of_miss hc mem addr hd
    refine ⟨_, h, accessed_of_miss hc mem hd h, fun hcoh => ?_⟩
    have hfill := hcoh.fill addr (fun k => (blockOf c.params mem addr)[k]?)
      fun b ht hi => blockOf_getElem? c.params mem ht hi
    have hdir := (accessed_of_miss hc mem hd h).directory
    rw [Coherent, hdir, data_set (hc.index_lt addr)]
    exact hfill

end Spec

end OlinCourses.Caching
