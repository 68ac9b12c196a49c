import OlinCourses.Caching.Access

/-!
# Runs of loads and stores

Each call does what it would do on memory alone, and after any sequence of calls
through a fresh cache the directory and the counters are those of the abstract
direct-mapped cache with the same history.
-/
namespace OlinCourses.Caching
open DirectMapped

namespace Call

/-- What a call does to memory. -/
def apply (mem : Memory) : Call → Memory
  | load _ => mem
  | store addr value => Function.update mem addr value

/-- What a call returns when it meets the memory `mem`. -/
def result (mem : Memory) : Call → Option Byte
  | load addr => some (mem addr)
  | store _ _ => none

/-- The byte that a call stores at `addr`, if it is a store to it. -/
def storedAt (addr : Addr) : Call → Option Byte
  | load _ => none
  | store a value => if a = addr then some value else none

end Call

/-- The last byte that the calls store at `addr`, or else the initial one. -/
def lastStored (mem : Memory) (calls : List Call) (addr : Addr) : Byte :=
  ((calls.filterMap (Call.storedAt addr)).getLast?).getD (mem addr)

theorem lastStored_concat (mem : Memory) (calls : List Call) (call : Call) :
    lastStored mem (calls ++ [call]) = call.apply (lastStored mem calls) := by
  ext1 addr
  cases call with
  | load a => simp [lastStored, Call.storedAt, Call.apply]
  | store a value =>
    by_cases h : a = addr
    · subst h
      simp [lastStored, Call.storedAt, Call.apply]
    · simp [lastStored, Call.storedAt, Call.apply, h, Function.update_of_ne (Ne.symm h)]

section Call

variable {c : Cache} {mem : Memory} {addr : Addr}

/-- The line of an accessed address, which holds the byte of memory. -/
theorem Accessed.exists_line {c' : Cache} (h : Accessed c c' addr) (hcoh : Coherent c' mem) :
    ∃ line, c'.lines[(geometry c.params).index addr]? = some line ∧
      line.block[(geometry c.params).offset addr]? = some (mem addr) := by
  obtain ⟨line, hline, -⟩ := h.sized.exists_line addr
  have hres := hcoh addr (by rw [h.params, h.directory, Geometry.access, Function.update_self])
  rw [data, hline] at hres
  rw [h.params] at hline hres
  exact ⟨line, hline, hres⟩

theorem load_spec (hc : c.Sized) (hcoh : Coherent c mem) (addr : Addr) :
    ∃ c', load c mem addr = some (mem addr, c') ∧ Accessed c c' addr ∧ Coherent c' mem := by
  obtain ⟨c', hacc, hspec, hcoh'⟩ := access_spec hc mem addr
  obtain ⟨line, hline, hbyte⟩ := hspec.exists_line (hcoh' hcoh)
  refine ⟨c', ?_, hspec, hcoh' hcoh⟩
  simp only [load, hacc, hspec.params, getLineIndex_eq hc.fits, getLineOffset_eq hc.fits,
    Option.bind_eq_bind, Option.bind_some, toNat_ofNat_index, toNat_ofNat_offset, hline, hbyte,
    Option.pure_def]

/-- Writing the byte of an accessed address in its line and in memory. -/
theorem accessed_write {c' : Cache} (h : Accessed c c' addr) (hcoh : Coherent c' mem)
    {line : CacheLine} (hline : c'.lines[(geometry c.params).index addr]? = some line)
    (value : Byte) (hoff : (geometry c.params).offset addr < line.block.length) :
    let block := line.block.set ((geometry c.params).offset addr) value
    let c'' : Cache :=
      { c' with lines := c'.lines.set ((geometry c.params).index addr) { line with block } }
    Accessed c c'' addr ∧ Coherent c'' (Function.update mem addr value) := by
  intro block c''
  have hi : (geometry c.params).index addr < c'.lines.length := by
    rw [← h.params]
    exact h.sized.index_lt addr
  have hmem : line ∈ c'.lines := List.mem_of_getElem? hline
  have hres : directory c'.lines ((geometry c.params).index addr) =
      some ((geometry c.params).tag addr) := by
    rw [h.directory, Geometry.access, Function.update_self]
  have hvalid : line.valid = true := ((directory_eq_some_iff hline).mp hres).1
  have hdir : directory c''.lines = directory c'.lines := directory_set_block hline block
  refine ⟨⟨h.params, ?_, hdir.trans h.directory, h.hits, h.misses, h.evictions, ?_⟩, ?_⟩
  · exact h.sized.set rfl rfl ((List.length_set).trans (h.sized.block line hmem))
  · have hcount := countP_set_valid hi { line with block } hvalid
    rw [hres] at hcount
    exact hcount.trans h.valid
  · have hdata : data c''.lines = Function.update (data c'.lines) ((geometry c'.params).index addr)
        (Function.update (data c'.lines ((geometry c'.params).index addr))
          ((geometry c'.params).offset addr) (some value)) := by
      rw [h.params]
      exact data_set_byte hline hoff value
    have hstored : (fun a => some (Function.update mem addr value a)) =
        Function.update (fun a => some (mem a)) addr (some value) :=
      Function.comp_update some mem addr value
    have hdir' : directory c'.lines ((geometry c'.params).index addr) =
        some ((geometry c'.params).tag addr) := by rw [h.params, hres]
    rw [Coherent, hdir, hdata, hstored]
    exact hcoh.write addr hdir' (some value)

theorem store_spec (hc : c.Sized) (hcoh : Coherent c mem) (addr : Addr) (value : Byte) :
    ∃ c', store c mem addr value = some (c', Function.update mem addr value) ∧
      Accessed c c' addr ∧ Coherent c' (Function.update mem addr value) := by
  obtain ⟨c', hacc, hspec, hcoh'⟩ := access_spec hc mem addr
  obtain ⟨line, hline, hbyte⟩ := hspec.exists_line (hcoh' hcoh)
  have hoff := (List.getElem?_eq_some_iff.mp hbyte).1
  refine ⟨_, ?_, accessed_write hspec (hcoh' hcoh) hline value hoff⟩
  simp only [store, hacc, hspec.params, getLineIndex_eq hc.fits, getLineOffset_eq hc.fits,
    Option.bind_eq_bind, Option.bind_some, toNat_ofNat_index, toNat_ofNat_offset, hline, setByte,
    hoff, if_true, Option.pure_def]

/-- A call returns and stores what it would on memory alone. -/
theorem Call.exec_spec {s : Machine} (hc : s.cache.Sized) (hcoh : Coherent s.cache s.mem)
    (call : Call) : ∃ s', call.exec s = some (call.result s.mem, s') ∧
      s'.mem = call.apply s.mem ∧ Accessed s.cache s'.cache call.addr ∧
      Coherent s'.cache s'.mem := by
  cases call with
  | load addr =>
    obtain ⟨c', hload, hspec, hcoh'⟩ := load_spec hc hcoh addr
    exact ⟨{ s with cache := c' }, by simp [Call.exec, hload, Call.result], rfl, hspec, hcoh'⟩
  | store addr value =>
    obtain ⟨c', hstore, hspec, hcoh'⟩ := store_spec hc hcoh addr value
    exact ⟨⟨c', Function.update s.mem addr value⟩, by simp [Call.exec, hstore, Call.result], rfl,
      hspec, hcoh'⟩

end Call

theorem mapM_guard {α β : Type*} (l : List α) (p : α → Prop) [DecidablePred p] (f : α → β) :
    (l.mapM fun a => if p a then some (f a) else none) =
      if ∀ a ∈ l, p a then some (l.map f) else none := by
  induction l with
  | nil => simp
  | cons a l ih =>
    rw [List.mapM_cons, ih]
    by_cases ha : p a
    · by_cases hl : ∀ b ∈ l, p b
      · have hall : ∀ b ∈ a :: l, p b := by simpa [ha] using hl
        rw [if_pos hl, if_pos hall, if_pos ha]
        rfl
      · have hall : ¬ ∀ b ∈ a :: l, p b := by simpa [ha] using hl
        rw [if_neg hl, if_neg hall, if_pos ha]
        rfl
    · simp [ha]

/-- The slots of the array of line pointers hold every line when their total size
in bytes is below `2 ^ 64`. -/
theorem slots_le_iff {params : LineParams} {numLines : Size}
    (hval : numLines.toNat = 2 ^ params.numIndexBits.toNat) :
    numLines.toNat ≤ (numLines * 8#64).toNat / 8 ↔ params.numIndexBits.toNat < 61 := by
  have hmul : (numLines * 8#64).toNat = numLines.toNat * 8 % 2 ^ 64 := BitVec.toNat_mul _ _
  constructor
  · intro hle
    by_contra hbig
    have hpow : 2 ^ 61 ≤ numLines.toNat := hval ▸ Nat.pow_le_pow_right (by norm_num) (by omega)
    omega
  · intro hsmall
    have hpow : numLines.toNat ≤ 2 ^ 60 := hval ▸ Nat.pow_le_pow_right (by norm_num) (by omega)
    omega

theorem makeCache_eq {params : LineParams} (h : params.Fits) (garbage : ℕ → ℕ → Byte) :
    ∃ lineSize : Size, lineSize.toNat = 2 ^ params.numOffsetBits.toNat ∧
      makeCache params garbage = if params.numIndexBits.toNat < 61 then
        some ⟨(List.range (2 ^ params.numIndexBits.toNat)).map
          (fun i => makeLine lineSize (garbage i)), params, 0#64, 0#64, 0#64⟩ else none := by
  unfold LineParams.Fits at h
  obtain ⟨numLines, hlines, hnum⟩ := shl_one (n := params.numIndexBits) (by omega)
  obtain ⟨lineSize, hline, hsize⟩ := shl_one (n := params.numOffsetBits) (by omega)
  refine ⟨lineSize, hsize, ?_⟩
  have hslots : (∀ i ∈ List.range numLines.toNat, i < (numLines * 8#64).toNat / 8) ↔
      params.numIndexBits.toNat < 61 := by
    rw [← slots_le_iff hnum]
    constructor
    · intro hall
      by_contra hlt
      exact absurd (hall _ (List.mem_range.mpr (not_le.mp hlt))) (lt_irrefl _)
    · intro hle i hi
      exact (List.mem_range.mp hi).trans_le hle
  simp only [makeCache, hlines, hline, Option.bind_eq_bind, Option.bind_some, Option.pure_def]
  rw [mapM_guard]
  by_cases hlt : params.numIndexBits.toNat < 61
  · rw [if_pos (hslots.mpr hlt), if_pos hlt, hnum]
    rfl
  · rw [if_neg (mt hslots.mp hlt), if_neg hlt]
    rfl

/-- The allocation of the line pointers is large enough below 61 index bits only. -/
theorem makeCache_isSome_iff {params : LineParams} (h : params.Fits) (garbage : ℕ → ℕ → Byte) :
    (makeCache params garbage).isSome ↔ params.numIndexBits.toNat < 61 := by
  obtain ⟨lineSize, -, heq⟩ := makeCache_eq h garbage
  rw [heq]
  split_ifs with hlt
  · simpa using hlt
  · simpa using hlt

/-- The machine that `calls` lead to from a fresh cache over `mem`. -/
structure After (params : LineParams) (mem : Memory) (calls : List Call) (s : Machine) :
    Prop where
  params_eq : s.cache.params = params
  sized : s.cache.Sized
  coherent : Coherent s.cache s.mem
  mem_eq : s.mem = lastStored mem calls
  directory : directory s.cache.lines = (geometry params).directory (calls.map Call.addr)
  hits : s.cache.hits = BitVec.ofNat 64 ((geometry params).count .hit (calls.map Call.addr))
  misses : s.cache.misses = BitVec.ofNat 64 ((geometry params).misses (calls.map Call.addr))
  evictions :
    s.cache.evictions = BitVec.ofNat 64 ((geometry params).count .evict (calls.map Call.addr))
  valid :
    s.cache.lines.countP (·.valid) = (geometry params).count .cold (calls.map Call.addr)

theorem after_nil {params : LineParams} (h : params.Fits) {garbage : ℕ → ℕ → Byte} {c : Cache}
    (hc : makeCache params garbage = some c) (mem : Memory) : After params mem [] ⟨c, mem⟩ := by
  obtain ⟨lineSize, hsize, heq⟩ := makeCache_eq h garbage
  rw [hc] at heq
  split_ifs at heq
  rw [Option.some_inj] at heq
  subst heq
  have hinvalid : directory ((List.range (2 ^ params.numIndexBits.toNat)).map
      fun i => makeLine lineSize (garbage i)) = fun _ => none := by
    ext1 i
    rw [directory, List.getElem?_map]
    cases (List.range (2 ^ params.numIndexBits.toNat))[i]? with
    | none => rfl
    | some k => rfl
  refine ⟨rfl, ⟨h, by simp, ?_⟩, ?_, rfl, hinvalid, rfl, rfl, rfl, ?_⟩
  · simp only [List.mem_map]
    rintro line ⟨i, -, rfl⟩
    simp [makeLine, hsize]
  · rw [Coherent, hinvalid]
    exact (geometry params).coherent_empty _ _
  · simp [List.countP_eq_zero, makeLine]

/-- One more call. -/
theorem After.exec {params : LineParams} {mem : Memory} {calls : List Call} {s : Machine}
    (h : After params mem calls s) (call : Call) :
    ∃ s', call.exec s = some (call.result s.mem, s') ∧ After params mem (calls ++ [call]) s' := by
  obtain ⟨s', hexec, hmem, hacc, hcoh⟩ := call.exec_spec h.sized h.coherent
  obtain ⟨hparams, hsized, hdir, hhits, hmisses, hevictions, hvalid⟩ := hacc
  rw [h.params_eq, h.directory] at hdir hhits hmisses hevictions hvalid
  refine ⟨s', hexec, hparams.trans h.params_eq, hsized, hcoh, ?_, ?_, ?_, ?_, ?_, ?_⟩
  · rw [hmem, h.mem_eq, lastStored_concat]
  · rw [List.map_append, List.map_singleton, Geometry.directory_concat, hdir]
  · rw [List.map_append, List.map_singleton, Geometry.count_concat, BitVec.ofNat_add, hhits,
      h.hits]
  · rw [List.map_append, List.map_singleton, Geometry.misses_concat, BitVec.ofNat_add, hmisses,
      h.misses]
  · rw [List.map_append, List.map_singleton, Geometry.count_concat, BitVec.ofNat_add, hevictions,
      h.evictions]
  · rw [List.map_append, List.map_singleton, Geometry.count_concat, hvalid, h.valid]

/-- Every sequence of calls through a fresh cache runs to its end. -/
theorem run_spec {params : LineParams} (h : params.Fits) {garbage : ℕ → ℕ → Byte} {c : Cache}
    (hc : makeCache params garbage = some c) (mem : Memory) (calls : List Call) :
    ∃ s, run ⟨c, mem⟩ calls = some s ∧ After params mem calls s := by
  induction calls using List.reverseRecOn with
  | nil => exact ⟨_, rfl, after_nil h hc mem⟩
  | append_singleton calls call ih =>
    obtain ⟨s, hrun, hs⟩ := ih
    obtain ⟨s', hexec, hs'⟩ := hs.exec call
    refine ⟨s', ?_, hs'⟩
    rw [run_concat, hrun, Option.bind_some, hexec, Option.map_some]

end OlinCourses.Caching
