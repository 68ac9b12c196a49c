import OlinCourses.Caching.Transparency
import OlinCourses.Caching.Transpose
import OlinCourses.Lib.Locality

/-!
# Locality

A cache with more lines of the same size holds whatever the smaller one holds. The
misses of a program are bounded below by the blocks it touches, and are exactly these
if no two of them compete for a line, as for a transposition of two matrices whose
blocks have different line indices.
-/
namespace OlinCourses.Caching
open DirectMapped

/-- The cache holds the block of `addr`. -/
def Resident (c : Cache) (addr : Addr) : Prop :=
  ∃ i line, getLineIndex addr c.params = some i ∧ c.lines[i.toNat]? = some line ∧
    line.valid = true ∧ getTag addr c.params = some line.tag

theorem geometry_refines {params params' : LineParams}
    (hoffset : params'.numOffsetBits = params.numOffsetBits)
    (hindex : params.numIndexBits ≤ params'.numIndexBits) :
    (geometry params').Refines (geometry params) where
  block a b := by rw [same_block_iff, same_block_iff, hoffset]
  index a b hab := by
    have hdvd : 2 ^ params.numIndexBits.toNat ∣ 2 ^ params'.numIndexBits.toNat :=
      pow_dvd_pow 2 hindex
    have hmod : a.toNat / 2 ^ params'.numOffsetBits.toNat ≡
        b.toNat / 2 ^ params'.numOffsetBits.toNat [MOD 2 ^ params'.numIndexBits.toNat] := hab
    rw [hoffset] at hmod
    exact hmod.of_dvd hdvd

/-- The cache holds the addresses that its directory says. -/
theorem After.resident_iff {params : LineParams} {mem : Memory} {calls : List Call} {s : Machine}
    (h : After params mem calls s) (addr : Addr) : Resident s.cache addr ↔
      (geometry params).directory (calls.map Call.addr) ((geometry params).index addr) =
        some ((geometry params).tag addr) := by
  obtain ⟨line, hline, -⟩ := h.sized.exists_line addr
  rw [← h.directory, ← h.params_eq, directory_eq_some_iff hline]
  unfold Resident
  rw [getLineIndex_eq h.sized.fits]
  simp only [Option.some.injEq, exists_and_left, exists_eq_left', toNat_ofNat_index, hline,
    getTag_eq_some_iff h.sized.fits]
  exact and_congr_right' eq_comm

/-- Below 2 ^ 64 calls the counters are those of the abstract cache. -/
theorem After.toNat_counters {params : LineParams} {mem : Memory} {calls : List Call}
    {s : Machine} (h : After params mem calls s) (hlt : calls.length < 2 ^ 64) :
    s.cache.hits.toNat = (geometry params).count .hit (calls.map Call.addr) ∧
      s.cache.misses.toNat = (geometry params).misses (calls.map Call.addr) ∧
      s.cache.evictions.toNat = (geometry params).count .evict (calls.map Call.addr) := by
  have hsum := (geometry params).hits_add_misses (calls.map Call.addr)
  rw [List.length_map] at hsum
  have hevict : (geometry params).count .evict (calls.map Call.addr) ≤
      (geometry params).misses (calls.map Call.addr) := Nat.le_add_left _ _
  rw [h.hits, h.misses, h.evictions, BitVec.toNat_ofNat, BitVec.toNat_ofNat, BitVec.toNat_ofNat]
  exact ⟨Nat.mod_eq_of_lt (by omega), Nat.mod_eq_of_lt (by omega), Nat.mod_eq_of_lt (by omega)⟩

/-- For equal line sizes, every address that a cache holds after a program is also in a
cache with at least as many lines, which hits at least as often, and misses and evicts at
most as often. -/
theorem larger_cache_includes {params params' : LineParams} (h : params'.Fits)
    (hoffset : params'.numOffsetBits = params.numOffsetBits)
    (hindex : params.numIndexBits ≤ params'.numIndexBits) {garbage garbage' : ℕ → ℕ → Byte}
    {c c' : Cache} (hc : makeCache params garbage = some c)
    (hc' : makeCache params' garbage' = some c') (mem : Memory) (calls : List Call) :
    ∃ s s', run ⟨c, mem⟩ calls = some s ∧ run ⟨c', mem⟩ calls = some s' ∧ s'.mem = s.mem ∧
      (∀ addr, Resident s.cache addr → Resident s'.cache addr) ∧
      (calls.length < 2 ^ 64 → s.cache.hits ≤ s'.cache.hits ∧
        s'.cache.misses ≤ s.cache.misses ∧ s'.cache.evictions ≤ s.cache.evictions) := by
  have hfits : params.Fits := by
    have hle : params.numIndexBits.toNat ≤ params'.numIndexBits.toNat := hindex
    unfold LineParams.Fits at h ⊢
    rw [hoffset] at h
    omega
  have href := geometry_refines hoffset hindex
  obtain ⟨s, hrun, hs⟩ := run_spec hfits hc mem calls
  obtain ⟨s', hrun', hs'⟩ := run_spec h hc' mem calls
  refine ⟨s, s', hrun, hrun', hs'.mem_eq.trans hs.mem_eq.symm, ?_, ?_⟩
  · intro addr
    rw [hs.resident_iff, hs'.resident_iff]
    exact href.directory_eq_some
  · intro hlt
    obtain ⟨hhits, hmisses, hevictions⟩ := hs.toNat_counters hlt
    obtain ⟨hhits', hmisses', hevictions'⟩ := hs'.toNat_counters hlt
    refine ⟨?_, ?_, ?_⟩
    · rw [BitVec.le_def, hhits, hhits']
      exact href.hits_le _
    · rw [BitVec.le_def, hmisses, hmisses']
      exact href.misses_le _
    · rw [BitVec.le_def, hevictions, hevictions']
      exact href.evictions_le _

/-- A second line keeps the block that the one line loses. -/
theorem larger_cache_includes_two_lines :
    ∃ c c' s s', makeCache ⟨0#64, 1#64⟩ (fun _ _ => 0#8) = some c ∧
      makeCache ⟨1#64, 1#64⟩ (fun _ _ => 0#8) = some c' ∧
      run ⟨c, fun _ => 0#8⟩ [.load 4#64, .load 7#64, .load 4#64] = some s ∧
      run ⟨c', fun _ => 0#8⟩ [.load 4#64, .load 7#64, .load 4#64] = some s' ∧
      s.cache.hits ≤ s'.cache.hits ∧ (Resident s.cache 4#64 → Resident s'.cache 4#64) := by
  have hc : makeCache ⟨0#64, 1#64⟩ (fun _ _ => 0#8) = some _ := rfl
  have hc' : makeCache ⟨1#64, 1#64⟩ (fun _ _ => 0#8) = some _ := rfl
  have hfits : LineParams.Fits ⟨1#64, 1#64⟩ := by simp [LineParams.Fits]
  have hoffset : (⟨1#64, 1#64⟩ : LineParams).numOffsetBits =
      (⟨0#64, 1#64⟩ : LineParams).numOffsetBits := rfl
  obtain ⟨s, s', hrun, hrun', -, hres, hcount⟩ := larger_cache_includes hfits hoffset
    (by decide) hc hc' (fun _ => 0#8) [.load 4#64, .load 7#64, .load 4#64]
  exact ⟨_, _, s, s', rfl, rfl, hrun, hrun', (hcount (by decide)).1, hres 4#64⟩

/-- The blocks that the calls touch, each as its tag and its line. -/
def blocks (params : LineParams) (calls : List Call) : Finset (Option Size × Option Size) :=
  (calls.map fun call => (getTag call.addr params, getLineIndex call.addr params)).toFinset

/-- Calls that meet in a line meet in a block. -/
def ConflictFree (params : LineParams) (calls : List Call) : Prop :=
  ∀ a ∈ calls, ∀ b ∈ calls, getLineIndex a.addr params = getLineIndex b.addr params →
    getTag a.addr params = getTag b.addr params

theorem card_blocks {params : LineParams} (h : params.Fits) (calls : List Call) :
    (blocks params calls).card = ((geometry params).blocks (calls.map Call.addr)).card := by
  have heq : blocks params calls = ((geometry params).blocks (calls.map Call.addr)).image
      fun block => (some (BitVec.ofNat 64 block.1), some (BitVec.ofNat 64 block.2)) := by
    ext block
    simp [blocks, Geometry.blocks, getTag_eq h, getLineIndex_eq h, eq_comm]
  rw [heq, Finset.card_image_of_injOn]
  rintro ⟨t, i⟩ hblock ⟨t', i'⟩ hblock' hsame
  obtain ⟨a, -, rfl, rfl⟩ := (geometry params).mem_blocks.mp hblock
  obtain ⟨b, -, rfl, rfl⟩ := (geometry params).mem_blocks.mp hblock'
  simp only [Prod.mk.injEq, Option.some.injEq] at hsame
  rw [← toNat_ofNat_tag params a, ← toNat_ofNat_index params a, hsame.1, hsame.2,
    toNat_ofNat_tag, toNat_ofNat_index]

theorem conflictFree_iff {params : LineParams} (h : params.Fits) (calls : List Call) :
    (geometry params).ConflictFree (calls.map Call.addr) ↔ ConflictFree params calls := by
  simp [Geometry.ConflictFree, ConflictFree, getTag_eq_iff h, getLineIndex_eq_iff h]

/-- A program through a fresh cache misses at least once for each block it touches, at most
once more for each eviction, and evicts nothing exactly if no two blocks share a line. -/
theorem misses_of_blocks {params : LineParams} (h : params.Fits) {garbage : ℕ → ℕ → Byte}
    {c : Cache} (hc : makeCache params garbage = some c) (mem : Memory) (calls : List Call)
    (hlt : calls.length < 2 ^ 64) :
    ∃ s, run ⟨c, mem⟩ calls = some s ∧
      (blocks params calls).card ≤ s.cache.misses.toNat ∧
      s.cache.misses.toNat ≤ (blocks params calls).card + s.cache.evictions.toNat ∧
      (s.cache.evictions = 0#64 ↔ ConflictFree params calls) := by
  obtain ⟨s, hrun, hs⟩ := run_spec h hc mem calls
  obtain ⟨-, hmisses, hevictions⟩ := hs.toNat_counters hlt
  obtain ⟨hlow, hhigh⟩ := (geometry params).card_blocks_le_misses (calls.map Call.addr)
  refine ⟨s, hrun, ?_, ?_, ?_⟩
  · rw [card_blocks h, hmisses]
    exact hlow
  · rw [card_blocks h, hmisses, hevictions]
    exact hhigh
  · rw [← conflictFree_iff h, ← Geometry.evictions_eq_zero_iff, ← hevictions,
      ← BitVec.toNat_inj]
    rfl

/-- Three accesses to two blocks that share a line. -/
theorem misses_of_blocks_conflict :
    ∃ c s, makeCache ⟨1#64, 1#64⟩ (fun _ _ => 0#8) = some c ∧
      run ⟨c, fun _ => 0#8⟩ [.load 4#64, .load 9#64, .load 4#64] = some s ∧
      2 ≤ s.cache.misses.toNat ∧ s.cache.evictions ≠ 0#64 := by
  have hfits : LineParams.Fits ⟨1#64, 1#64⟩ := by simp [LineParams.Fits]
  have hc : makeCache ⟨1#64, 1#64⟩ (fun _ _ => 0#8) = some _ := rfl
  obtain ⟨s, hrun, hmisses, -, hfree⟩ := misses_of_blocks hfits hc (fun _ => 0#8)
    [.load 4#64, .load 9#64, .load 4#64] (by decide)
  refine ⟨_, s, rfl, hrun, hmisses, fun hzero => ?_⟩
  have hconflict := hfree.mp hzero (.load 4#64) (by simp) (.load 9#64) (by simp) rfl
  exact absurd hconflict (by decide)

section Numbers

variable (params : LineParams)

/-- Blocks are numbered from address 0 on. -/
def blockNumber (a : Addr) : ℕ := a.toNat / 2 ^ params.numOffsetBits.toNat

/-- The blocks of the `size` bytes from `matrix` on. -/
def blocksFrom (matrix : Addr) (size : ℕ) : Finset ℕ :=
  (Finset.range size).image fun k => (matrix.toNat + k) / 2 ^ params.numOffsetBits.toNat

theorem card_blocks_eq_numbers (addrs : List Addr) :
    ((geometry params).blocks addrs).card = (addrs.map (blockNumber params)).toFinset.card := by
  have heq : (geometry params).blocks addrs = (addrs.map (blockNumber params)).toFinset.image
      fun n => (n / 2 ^ params.numIndexBits.toNat, n % 2 ^ params.numIndexBits.toNat) := by
    ext block
    simp [Geometry.blocks, blockNumber, geometry]
  rw [heq, Finset.card_image_of_injective]
  intro m n hmn
  exact (Nat.ext_div_mod_iff _ _ _).mpr (Prod.mk.injEq .. ▸ hmn)

theorem conflictFree_iff_injOn (addrs : List Addr) : (geometry params).ConflictFree addrs ↔
    Set.InjOn (· % 2 ^ params.numIndexBits.toNat) (addrs.map (blockNumber params)).toFinset := by
  have hblock : ∀ a b, (geometry params).index a = (geometry params).index b →
      ((geometry params).tag a = (geometry params).tag b ↔
        blockNumber params a = blockNumber params b) := by
    intro a b hindex
    rw [blockNumber, blockNumber, ← same_block_iff]
    exact (and_iff_left hindex).symm
  constructor
  · intro hfree m hm n hn hmod
    obtain ⟨a, ha, rfl⟩ : ∃ a ∈ addrs, blockNumber params a = m := by simpa using hm
    obtain ⟨b, hb, rfl⟩ : ∃ b ∈ addrs, blockNumber params b = n := by simpa using hn
    exact (hblock a b hmod).mp (hfree a ha b hb hmod)
  · intro hinj a ha b hb hindex
    rw [hblock a b hindex]
    exact hinj (by simpa using ⟨a, ha, rfl⟩) (by simpa using ⟨b, hb, rfl⟩) hindex

end Numbers

section Transpose

variable {src dst : Addr} {height width : Size}

/-- One position is a load and a store. -/
theorem transposeByte_eq_run {s : Machine} (hc : s.cache.Sized) (hcoh : Coherent s.cache s.mem)
    (position : ℕ × ℕ) : transposeByte src dst height width s position =
      run s [.load (srcAt src width position),
        .store (dstAt dst height position) (s.mem (srcAt src width position))] := by
  obtain ⟨c, hload, hacc, hcoh'⟩ := load_spec hc hcoh (srcAt src width position)
  obtain ⟨c', hstore, -, -⟩ :=
    store_spec hacc.sized hcoh' (dstAt dst height position) (s.mem (srcAt src width position))
  have hrun : run s [.load (srcAt src width position),
      .store (dstAt dst height position) (s.mem (srcAt src width position))] =
        some ⟨c', Function.update s.mem (dstAt dst height position)
          (s.mem (srcAt src width position))⟩ := by
    simp only [run, Transition.run_cons, Transition.run_nil, Call.exec, hload, hstore,
      Option.map_some, Option.bind_some]
  rw [hrun]
  rw [srcAt] at hload hstore ⊢
  rw [dstAt] at hstore ⊢
  simp only [transposeByte, hload, hstore, Option.bind_eq_bind, Option.bind_some, Option.pure_def]

/-- The loops are a program of one load and one store at each position. -/
theorem exists_calls (ps : List (ℕ × ℕ)) {s : Machine} (hc : s.cache.Sized)
    (hcoh : Coherent s.cache s.mem) :
    ∃ calls : List Call, calls.map Call.addr =
        ps.flatMap (fun p => [srcAt src width p, dstAt dst height p]) ∧
      ps.foldlM (transposeByte src dst height width) s = run s calls := by
  induction ps generalizing s with
  | nil => exact ⟨[], rfl, rfl⟩
  | cons p ps ih =>
    have hpair : transposeByte src dst height width s p = run s [.load (srcAt src width p),
      .store (dstAt dst height p) (s.mem (srcAt src width p))] := transposeByte_eq_run hc hcoh p
    obtain ⟨s', hbyte, ⟨hc', hcoh'⟩, -⟩ : ∃ s', transposeByte src dst height width s p = some s' ∧
        (s'.cache.Sized ∧ Coherent s'.cache s'.mem) ∧ _ := transposeByte_spec hc hcoh p
    obtain ⟨calls, haddr, hrun⟩ := ih hc' hcoh'
    refine ⟨[.load (srcAt src width p), .store (dstAt dst height p) (s.mem (srcAt src width p))] ++
      calls, ?_, ?_⟩
    · rw [List.map_append, haddr]
      rfl
    · rw [run, Transition.run_append, ← run, ← hpair, List.foldlM_cons, hbyte]
      exact hrun

/-- The offsets in a matrix are those of its positions. -/
theorem lt_mul_iff_exists {k : ℕ} : k < height.toNat * width.toNat ↔
    ∃ row < height.toNat, ∃ col < width.toNat, row * width.toNat + col = k := by
  constructor
  · intro hk
    have hpos : 0 < width.toNat := by
      apply Nat.pos_of_ne_zero
      intro hzero
      simp [hzero] at hk
    refine ⟨k / width.toNat, ?_, k % width.toNat, Nat.mod_lt _ hpos, Nat.div_add_mod' _ _⟩
    exact (Nat.div_lt_iff_lt_mul hpos).mpr hk
  · rintro ⟨row, hrow, col, hcol, rfl⟩
    exact row_mul_add_lt hrow hcol

theorem Separate.numbers_eq (h : Separate src dst height width) (params : LineParams) :
    (((positions height width).flatMap fun p =>
        [srcAt src width p, dstAt dst height p]).map (blockNumber params)).toFinset =
      blocksFrom params src (height.toNat * width.toNat) ∪
        blocksFrom params dst (height.toNat * width.toNat) := by
  have hsrc : ∀ row < height.toNat, ∀ col < width.toNat, blockNumber params
      (srcAt src width (row, col)) = (src.toNat + (row * width.toNat + col)) /
        2 ^ params.numOffsetBits.toNat := by
    intro row hrow col hcol
    rw [blockNumber, srcAt, toNat_getAddr h.src_fits hrow hcol]
  have hdst : ∀ row < height.toNat, ∀ col < width.toNat, blockNumber params
      (dstAt dst height (row, col)) = (dst.toNat + (col * height.toNat + row)) /
        2 ^ params.numOffsetBits.toNat := by
    intro row hrow col hcol
    rw [blockNumber, dstAt, toNat_getAddr h.dst_fits_transposed hcol hrow]
  ext n
  simp only [List.mem_toFinset, List.mem_map, List.mem_flatMap, mem_positions, Finset.mem_union,
    blocksFrom, Finset.mem_image, Finset.mem_range]
  constructor
  · rintro ⟨a, ⟨⟨row, col⟩, ⟨hrow, hcol⟩, ha⟩, rfl⟩
    rcases List.mem_pair.mp ha with rfl | rfl
    · exact Or.inl ⟨_, row_mul_add_lt hrow hcol, (hsrc row hrow col hcol).symm⟩
    · exact Or.inr ⟨_, (row_mul_add_lt hcol hrow).trans_eq (Nat.mul_comm _ _),
        (hdst row hrow col hcol).symm⟩
  · rintro (⟨k, hk, rfl⟩ | ⟨k, hk, rfl⟩)
    · obtain ⟨row, hrow, col, hcol, rfl⟩ := lt_mul_iff_exists.mp hk
      exact ⟨_, ⟨(row, col), ⟨hrow, hcol⟩, List.mem_pair.mpr (Or.inl rfl)⟩, hsrc row hrow col hcol⟩
    · rw [Nat.mul_comm] at hk
      obtain ⟨col, hcol, row, hrow, rfl⟩ := lt_mul_iff_exists.mp hk
      exact ⟨_, ⟨(row, col), ⟨hrow, hcol⟩, List.mem_pair.mpr (Or.inr rfl)⟩, hdst row hrow col hcol⟩

end Transpose

/-- The reference transposition through a fresh cache accesses the cache twice for each
byte, misses at least once for each block of the two matrices and at most once more for
each eviction, and evicts nothing exactly if these blocks have different line indices. -/
theorem transposeRef_misses {params : LineParams} (h : params.Fits) {garbage : ℕ → ℕ → Byte}
    {c : Cache} (hc : makeCache params garbage = some c) (mem : Memory) (src dst : Addr)
    (height width : Size) (hsep : Separate src dst height width)
    (hlt : 2 * (height.toNat * width.toNat) < 2 ^ 64) :
    let size := height.toNat * width.toNat
    let touched := blocksFrom params src size ∪ blocksFrom params dst size
    ∃ s, transposeRef src dst height width ⟨c, mem⟩ = some s ∧
      s.cache.hits.toNat + s.cache.misses.toNat = 2 * size ∧
      touched.card ≤ s.cache.misses.toNat ∧
      s.cache.misses.toNat ≤ touched.card + s.cache.evictions.toNat ∧
      (s.cache.evictions = 0#64 ↔ Set.InjOn (· % 2 ^ params.numIndexBits.toNat) touched) := by
  intro size touched
  have hfresh := after_nil h hc mem
  obtain ⟨calls, haddr, hloops⟩ : ∃ calls : List Call, calls.map Call.addr = _ ∧
      (positions height width).foldlM (transposeByte src dst height width) ⟨c, mem⟩ =
        run ⟨c, mem⟩ calls := exists_calls _ hfresh.sized hfresh.coherent
  obtain ⟨s, hrun, hs⟩ := run_spec h hc mem calls
  have hlength : calls.length = 2 * size := by
    rw [← List.length_map Call.addr, haddr, List.length_flatMap]
    simp [positions, size, List.length_product, Nat.mul_comm]
  have hblocks : ((geometry params).blocks (calls.map Call.addr)).card = touched.card := by
    rw [card_blocks_eq_numbers, haddr, hsep.numbers_eq]
  have hconflict : (geometry params).ConflictFree (calls.map Call.addr) ↔
      Set.InjOn (· % 2 ^ params.numIndexBits.toNat) touched := by
    rw [conflictFree_iff_injOn, haddr, hsep.numbers_eq]
  obtain ⟨hhits, hmisses, hevictions⟩ := hs.toNat_counters (by omega)
  obtain ⟨hlow, hhigh⟩ := (geometry params).card_blocks_le_misses (calls.map Call.addr)
  have htotal := (geometry params).hits_add_misses (calls.map Call.addr)
  rw [List.length_map] at htotal
  refine ⟨s, ?_, by omega, by omega, by omega, ?_⟩
  · exact (Loop.foldlM_product _ _ _ _).trans (hloops.trans hrun)
  · rw [← hconflict, ← Geometry.evictions_eq_zero_iff, ← hevictions, ← BitVec.toNat_inj]
    rfl

/-- Two adjacent matrices of six bytes fill three blocks of four bytes, and a cache of
four lines keeps them all. -/
theorem transposeRef_misses_adjacent : ∃ c s,
    makeCache ⟨2#64, 2#64⟩ (fun _ _ => 0#8) = some c ∧
    transposeRef 16#64 22#64 2#64 3#64 ⟨c, BitVec.setWidth 8⟩ = some s ∧
    s.cache.misses.toNat = 3 ∧ s.cache.hits.toNat = 9 := by
  have hfits : LineParams.Fits ⟨2#64, 2#64⟩ := by simp [LineParams.Fits]
  obtain ⟨c, hc⟩ :=
    Option.isSome_iff_exists.mp ((makeCache_isSome_iff hfits fun _ _ => 0#8).mpr (by decide))
  have hsep : Separate 16#64 22#64 2#64 3#64 := by
    refine ⟨by decide, by decide, ?_⟩
    rintro a ⟨-, hsrc⟩ ⟨hdst, -⟩
    simp only [BitVec.toNat_ofNat] at hsrc hdst
    omega
  obtain ⟨s, hrun, htotal, hlow, hhigh, hfree⟩ := transposeRef_misses hfits hc (BitVec.setWidth 8)
    16#64 22#64 2#64 3#64 hsep (by decide)
  have htouched : blocksFrom ⟨2#64, 2#64⟩ 16#64 ((2#64).toNat * (3#64).toNat) ∪
      blocksFrom ⟨2#64, 2#64⟩ 22#64 ((2#64).toNat * (3#64).toNat) = {4, 5, 6} := by decide
  rw [htouched] at hlow hhigh hfree
  have hzero : s.cache.evictions = 0#64 := by
    rw [hfree]
    intro m hm n hn hmod
    revert m n
    decide
  rw [hzero] at hhigh
  have hmisses : s.cache.misses.toNat = 3 := le_antisymm hhigh hlow
  have hhits : s.cache.hits.toNat + 3 = 12 := hmisses ▸ htotal
  exact ⟨c, s, hc, hrun, hmisses, by omega⟩

end OlinCourses.Caching
