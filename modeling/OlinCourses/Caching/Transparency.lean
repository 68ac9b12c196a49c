import OlinCourses.Caching.Run

/-!
# Transparency and statistics of the cache

For every program of loads and stores through a fresh cache: loads and stores act
as on memory alone, the valid lines mirror memory, and the counters are those of
the abstract direct-mapped cache.
-/
namespace OlinCourses.Caching
open DirectMapped

theorem getLineIndex_eq_ofNat_iff {params : LineParams} (h : params.Fits) (a : Addr) {i : ℕ}
    (hi : i < 2 ^ params.numIndexBits.toNat) :
    getLineIndex a params = some (BitVec.ofNat 64 i) ↔ (geometry params).index a = i := by
  have hword : 2 ^ params.numIndexBits.toNat ≤ 2 ^ 64 := by
    unfold LineParams.Fits at h
    exact Nat.pow_le_pow_right (by norm_num) (by omega)
  rw [getLineIndex_eq_some_iff h, BitVec.toNat_ofNat, Nat.mod_eq_of_lt (hi.trans_le hword)]

/-- A line at index `i` holds exactly the bytes of memory whose addresses have its
tag and that index. -/
structure HoldsBlock (params : LineParams) (mem : Memory) (i : ℕ) (line : CacheLine) : Prop where
  length : line.block.length = 2 ^ params.numOffsetBits.toNat
  bytes : ∀ addr, getTag addr params = some line.tag →
    getLineIndex addr params = some (BitVec.ofNat 64 i) →
    ∃ k, getLineOffset addr params = some k ∧ line.block[k.toNat]? = some (mem addr)
  covered : ∀ k < line.block.length, ∃ addr, getTag addr params = some line.tag ∧
    getLineIndex addr params = some (BitVec.ofNat 64 i) ∧
    getLineOffset addr params = some (BitVec.ofNat 64 k)

theorem After.holdsBlock {params : LineParams} {mem : Memory} {calls : List Call} {s : Machine}
    (h : After params mem calls s) {i : ℕ} {line : CacheLine}
    (hline : s.cache.lines[i]? = some line) (hvalid : line.valid = true) :
    HoldsBlock params s.mem i line := by
  have hfits : params.Fits := h.params_eq ▸ h.sized.fits
  have hi : i < 2 ^ params.numIndexBits.toNat := by
    rw [← h.params_eq, ← h.sized.lines]
    exact (List.getElem?_eq_some_iff.mp hline).1
  have hlen : line.block.length = 2 ^ params.numOffsetBits.toNat := by
    rw [← h.params_eq]
    exact h.sized.block line (List.mem_of_getElem? hline)
  have hres : Caching.directory s.cache.lines i = some line.tag.toNat :=
    (directory_eq_some_iff hline).mpr ⟨hvalid, rfl⟩
  refine ⟨hlen, ?_, ?_⟩
  · intro addr htag hindex
    rw [getTag_eq_some_iff hfits] at htag
    rw [getLineIndex_eq_ofNat_iff hfits addr hi] at hindex
    have hcoh := h.coherent addr (by rw [h.params_eq, hindex, hres, htag])
    rw [h.params_eq, hindex, data, hline, Option.bind_some] at hcoh
    exact ⟨_, getLineOffset_eq hfits addr, by rw [toNat_ofNat_offset, hcoh]⟩
  · intro k hk
    rw [h.directory] at hres
    obtain ⟨a, hindex, htag⟩ := (geometry params).exists_of_directory_eq_some hres
    obtain ⟨b, htb, hib, hob⟩ := exists_of_offset hfits a (hlen ▸ hk)
    refine ⟨b, ?_, ?_, ?_⟩
    · rw [getTag_eq_some_iff hfits, htb, htag]
    · rw [getLineIndex_eq_ofNat_iff hfits b hi, hib, hindex]
    · rw [getLineOffset_eq hfits, hob]

/-- After any sequence of calls through a fresh cache, memory holds the last byte
stored at each address, a load returns it and changes no memory, a store changes
memory at its own address only, and every valid line mirrors its block. -/
theorem load_store_transparent {params : LineParams} (h : params.Fits)
    {garbage : ℕ → ℕ → Byte} {c : Cache} (hc : makeCache params garbage = some c)
    (mem : Memory) (calls : List Call) :
    ∃ s, run ⟨c, mem⟩ calls = some s ∧ s.mem = lastStored mem calls ∧
      (∀ addr, ∃ s', (Call.load addr).exec s = some (some (s.mem addr), s') ∧ s'.mem = s.mem) ∧
      (∀ addr value, ∃ s', (Call.store addr value).exec s = some (none, s') ∧
        s'.mem = Function.update s.mem addr value) ∧
      ∀ i line, s.cache.lines[i]? = some line → line.valid = true →
        HoldsBlock params s.mem i line := by
  obtain ⟨s, hrun, hs⟩ := run_spec h hc mem calls
  refine ⟨s, hrun, hs.mem_eq, ?_, ?_, ?_⟩
  · intro addr
    obtain ⟨s', hexec, hmem, -⟩ := (Call.load addr).exec_spec hs.sized hs.coherent
    exact ⟨s', hexec, hmem⟩
  · intro addr value
    obtain ⟨s', hexec, hmem, -⟩ := (Call.store addr value).exec_spec hs.sized hs.coherent
    exact ⟨s', hexec, hmem⟩
  · intro i line hline hvalid
    exact hs.holdsBlock hline hvalid

/-- A store and a load of two addresses that share a line of a two-line cache. -/
theorem load_store_transparent_collision :
    ∃ c s s', makeCache ⟨1#64, 1#64⟩ (fun _ _ => 0#8) = some c ∧
      run ⟨c, fun _ => 0#8⟩ [.store 5#64 7#8, .load 9#64] = some s ∧
      (Call.load 5#64).exec s = some (some 7#8, s') := by
  have hfits : LineParams.Fits ⟨1#64, 1#64⟩ := by simp [LineParams.Fits]
  have hc : makeCache ⟨1#64, 1#64⟩ (fun _ _ => 0#8) = some _ := rfl
  obtain ⟨s, hrun, hmem, hload, -⟩ := load_store_transparent hfits hc (fun _ => 0#8)
    [.store 5#64 7#8, .load 9#64]
  obtain ⟨s', hexec, -⟩ := hload 5#64
  have hbyte : s.mem 5#64 = 7#8 := by rw [hmem]; rfl
  exact ⟨_, s, s', rfl, hrun, hbyte ▸ hexec⟩

/-- The most recent access with the line index of `addr`. -/
def lastAccess (params : LineParams) (calls : List Call) (addr : Addr) : Option Addr :=
  ((calls.map Call.addr).filter fun b => getLineIndex b params = getLineIndex addr params).getLast?

/-- The most recent access to the line of `addr` had the tag of `addr`. -/
def LastTagMatches (params : LineParams) (calls : List Call) (addr : Addr) : Prop :=
  ((lastAccess params calls addr).map fun b => getTag b params) = some (getTag addr params)

/-- Some earlier access had the line index of `addr`. -/
def LineUsed (params : LineParams) (calls : List Call) (addr : Addr) : Prop :=
  ∃ call ∈ calls, getLineIndex call.addr params = getLineIndex addr params

instance (params : LineParams) (calls : List Call) (addr : Addr) :
    Decidable (LastTagMatches params calls addr) := inferInstanceAs (Decidable (_ = _))

instance (params : LineParams) (calls : List Call) (addr : Addr) :
    Decidable (LineUsed params calls addr) := inferInstanceAs (Decidable (∃ call ∈ calls, _))

theorem lastTagMatches_iff (params : LineParams) (calls : List Call) (addr : Addr) :
    LastTagMatches params calls addr ↔
      ∃ b, lastAccess params calls addr = some b ∧ getTag b params = getTag addr params :=
  Option.map_eq_some_iff

theorem lineUsed_iff (params : LineParams) (calls : List Call) (addr : Addr) :
    LineUsed params calls addr ↔ ∃ b, lastAccess params calls addr = some b := by
  rw [← Option.isSome_iff_exists, lastAccess, List.getLast?_isSome]
  simp [LineUsed, List.filter_eq_nil_iff]

section Statistics

variable {params : LineParams} (h : params.Fits) (calls : List Call) (addr : Addr)

include h

theorem latest_eq_lastAccess :
    (geometry params).latest (calls.map Call.addr) ((geometry params).index addr) =
      lastAccess params calls addr := by
  simp only [Geometry.latest, lastAccess, getLineIndex_eq_iff h]

theorem outcome_eq_hit_iff_lastTagMatches :
    (geometry params).outcome ((geometry params).directory (calls.map Call.addr)) addr = .hit ↔
      LastTagMatches params calls addr := by
  rw [Geometry.outcome_eq_hit_iff, latest_eq_lastAccess h, lastTagMatches_iff]
  simp only [getTag_eq_iff h]

theorem outcome_eq_evict_iff_lineUsed :
    (geometry params).outcome ((geometry params).directory (calls.map Call.addr)) addr = .evict ↔
      ¬ LastTagMatches params calls addr ∧ LineUsed params calls addr := by
  rw [Geometry.outcome_eq_evict_iff, latest_eq_lastAccess h, lastTagMatches_iff, lineUsed_iff]
  simp only [getTag_eq_iff h]
  constructor
  · rintro ⟨b, hb, hne⟩
    refine ⟨?_, b, hb⟩
    rintro ⟨b', hb', heq⟩
    rw [hb, Option.some_inj] at hb'
    exact hne (hb' ▸ heq)
  · rintro ⟨hno, b, hb⟩
    exact ⟨b, hb, fun heq => hno ⟨b, hb, heq⟩⟩

end Statistics

/-- Each access of a program counts one hit if the last access to its line had its
tag and one miss otherwise, and one eviction for a miss in a used line. In total,
hits and misses are the accesses, and misses less evictions the valid lines. -/
theorem access_counts {params : LineParams} (h : params.Fits) {garbage : ℕ → ℕ → Byte}
    {c : Cache} (hc : makeCache params garbage = some c) (mem : Memory) (calls : List Call) :
    ∃ s, run ⟨c, mem⟩ calls = some s ∧
      (∀ call : Call, ∃ result s', call.exec s = some (result, s') ∧
        s'.cache.hits =
          s.cache.hits + (if LastTagMatches params calls call.addr then 1#64 else 0#64) ∧
        s'.cache.misses =
          s.cache.misses + (if LastTagMatches params calls call.addr then 0#64 else 1#64) ∧
        s'.cache.evictions = s.cache.evictions +
          (if ¬ LastTagMatches params calls call.addr ∧ LineUsed params calls call.addr then 1#64
            else 0#64)) ∧
      s.cache.hits + s.cache.misses = BitVec.ofNat 64 calls.length ∧
      s.cache.misses - s.cache.evictions =
        BitVec.ofNat 64 (s.cache.lines.countP (·.valid)) ∧
      (calls.length < 2 ^ 64 →
        s.cache.hits.toNat + s.cache.misses.toNat = calls.length ∧
        s.cache.misses.toNat = s.cache.evictions.toNat + s.cache.lines.countP (·.valid)) := by
  obtain ⟨s, hrun, hs⟩ := run_spec h hc mem calls
  have hsum := (geometry params).hits_add_misses (calls.map Call.addr)
  have hmiss : (geometry params).misses (calls.map Call.addr) = _ := rfl
  rw [List.length_map] at hsum
  refine ⟨s, hrun, ?_, ?_, ?_, ?_⟩
  · intro call
    obtain ⟨s', hexec, -, hacc, -⟩ := call.exec_spec hs.sized hs.coherent
    have hhit := outcome_eq_hit_iff_lastTagMatches h calls call.addr
    have hevict := outcome_eq_evict_iff_lineUsed h calls call.addr
    refine ⟨_, s', hexec, ?_, ?_, ?_⟩
    · rw [hacc.hits, hs.params_eq, hs.directory]
      simp only [hhit]
      split_ifs <;> rfl
    · rw [hacc.misses, hs.params_eq, hs.directory]
      simp only [hhit]
      split_ifs <;> rfl
    · rw [hacc.evictions, hs.params_eq, hs.directory]
      simp only [hevict]
      split_ifs <;> rfl
  · rw [hs.hits, hs.misses, ← BitVec.ofNat_add, hsum]
  · rw [hs.misses, hs.evictions, hs.valid, Geometry.misses, BitVec.ofNat_add]
    exact BitVec.add_sub_cancel _ _
  · intro hlt
    unfold Geometry.misses at hsum
    rw [hs.hits, hs.misses, hs.evictions, hs.valid, Geometry.misses, BitVec.toNat_ofNat,
      BitVec.toNat_ofNat, BitVec.toNat_ofNat]
    omega

/-- The colliding load is a miss with an eviction. -/
theorem access_counts_collision :
    ∃ c s, makeCache ⟨1#64, 1#64⟩ (fun _ _ => 0#8) = some c ∧
      run ⟨c, fun _ => 0#8⟩ [.store 5#64 7#8, .load 9#64] = some s ∧
      s.cache.hits.toNat + s.cache.misses.toNat = 2 ∧
      ∃ result s', (Call.load 5#64).exec s = some (result, s') ∧
        s'.cache.evictions = s.cache.evictions + 1#64 := by
  have hfits : LineParams.Fits ⟨1#64, 1#64⟩ := by simp [LineParams.Fits]
  have hc : makeCache ⟨1#64, 1#64⟩ (fun _ _ => 0#8) = some _ := rfl
  obtain ⟨s, hrun, hstep, -, -, htotal⟩ := access_counts hfits hc (fun _ => 0#8)
    [.store 5#64 7#8, .load 9#64]
  obtain ⟨result, s', hexec, -, -, hevict⟩ := hstep (.load 5#64)
  exact ⟨_, s, rfl, hrun, (htotal (by norm_num)).1, result, s', hexec, hevict.trans rfl⟩

end OlinCourses.Caching
