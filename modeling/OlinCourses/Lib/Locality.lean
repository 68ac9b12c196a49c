import OlinCourses.Lib.DirectMapped

/-!
# Locality in direct-mapped caches

Two questions about one history of accesses. How do the hits of two caches compare
when one divides the same blocks among more lines? And how do the misses compare
with the number of different blocks the history touches?
-/
namespace OlinCourses.DirectMapped.Geometry

variable {A T I O T' I' O' : Type*} [DecidableEq I] [DecidableEq I']

section Outcomes

variable (g : Geometry A T I O)

omit [DecidableEq I] in
theorem outcome_eq_hit_iff_resident [DecidableEq T] (d : I → Option T) (a : A) :
    g.outcome d a = .hit ↔ d (g.index a) = some (g.tag a) := by
  rw [outcome]
  cases d (g.index a) with
  | none => simp
  | some t => by_cases h : t = g.tag a <;> simp [h]

/-- A line that was accessed has a latest access. -/
theorem exists_latest {history : List A} {a : A} (ha : a ∈ history) :
    ∃ b ∈ history, g.index b = g.index a ∧ g.latest history (g.index a) = some b := by
  have hne : (history.filter fun b => g.index b = g.index a) ≠ [] :=
    List.ne_nil_of_mem (List.mem_filter.mpr ⟨ha, by simp⟩)
  obtain ⟨b, hlast⟩ := Option.isSome_iff_exists.mp (List.getLast?_isSome.mpr hne)
  obtain ⟨hb, hindex⟩ := List.mem_filter.mp (List.mem_of_getLast? hlast)
  exact ⟨b, hb, by simpa using hindex, hlast⟩

/-- A cold miss is the first access to its line. -/
theorem outcome_eq_cold_iff [DecidableEq T] (history : List A) (a : A) :
    g.outcome (g.directory history) a = .cold ↔ ∀ b ∈ history, g.index b ≠ g.index a := by
  constructor
  · intro hcold b hb hindex
    obtain ⟨c, -, -, hlast⟩ := g.exists_latest hb
    rw [outcome, directory_eq_latest, ← hindex, hlast] at hcold
    by_cases h : g.tag c = g.tag a <;> simp [h] at hcold
  · intro hfirst
    have hnone : g.latest history (g.index a) = none := by
      rw [latest, List.getLast?_eq_none_iff, List.filter_eq_nil_iff]
      simpa using hfirst
    rw [outcome, directory_eq_latest, hnone]
    rfl

end Outcomes

/-- `g'` has the blocks of `g` and divides the addresses of each line further. -/
structure Refines (g' : Geometry A T' I' O') (g : Geometry A T I O) : Prop where
  block : ∀ a b, (g'.tag a = g'.tag b ∧ g'.index a = g'.index b) ↔
    (g.tag a = g.tag b ∧ g.index a = g.index b)
  index : ∀ a b, g'.index a = g'.index b → g.index a = g.index b

/-- One cache has an outcome at least as often as another that has it only then. -/
theorem count_le_count [DecidableEq T] [DecidableEq T'] {g : Geometry A T I O}
    {g' : Geometry A T' I' O'} {o : Outcome}
    (h : ∀ history a, g.outcome (g.directory history) a = o →
      g'.outcome (g'.directory history) a = o) (history : List A) :
    g.count o history ≤ g'.count o history := by
  induction history using List.reverseRecOn with
  | nil => exact le_rfl
  | append_singleton history a ih =>
    rw [count_concat, count_concat]
    by_cases hout : g.outcome (g.directory history) a = o
    · rw [if_pos hout, if_pos (h history a hout)]
      omega
    · rw [if_neg hout]
      omega

/-- The last element with a property is the last with a stronger one that it has. -/
theorem getLast?_filter_of_imp {p q : A → Bool} (hqp : ∀ a, q a = true → p a = true)
    {history : List A} {b : A} (hlast : (history.filter p).getLast? = some b)
    (hb : q b = true) : (history.filter q).getLast? = some b := by
  obtain ⟨before, hbefore⟩ := List.getLast?_eq_some_iff.mp hlast
  have hsplit : history.filter q = (history.filter p).filter q := by
    rw [List.filter_filter]
    apply List.filter_congr
    intro a _
    cases hq : q a with
    | false => rfl
    | true => simp [hqp a hq]
  rw [hsplit, hbefore, List.filter_append]
  simp [hb]

namespace Refines

variable {g' : Geometry A T' I' O'} {g : Geometry A T I O} (h : g'.Refines g)

include h

/-- An address that the smaller cache holds is held by the larger one. -/
theorem directory_eq_some {history : List A} {a : A}
    (hres : g.directory history (g.index a) = some (g.tag a)) :
    g'.directory history (g'.index a) = some (g'.tag a) := by
  rw [directory_eq_latest, Option.map_eq_some_iff] at hres ⊢
  obtain ⟨b, hlast, htag⟩ := hres
  have hindex : g.index b = g.index a := by
    simpa using (List.mem_filter.mp (List.mem_of_getLast? hlast)).2
  obtain ⟨htag', hindex'⟩ := (h.block b a).mpr ⟨htag, hindex⟩
  refine ⟨b, ?_, htag'⟩
  apply getLast?_filter_of_imp _ hlast (by simpa using hindex')
  intro c hc
  simpa using h.index c a (by simpa using hc)

section Counts

variable [DecidableEq T] [DecidableEq T']

theorem outcome_eq_hit {history : List A} {a : A}
    (hhit : g.outcome (g.directory history) a = .hit) :
    g'.outcome (g'.directory history) a = .hit := by
  rw [outcome_eq_hit_iff_resident] at hhit ⊢
  exact h.directory_eq_some hhit

theorem outcome_eq_cold {history : List A} {a : A}
    (hcold : g.outcome (g.directory history) a = .cold) :
    g'.outcome (g'.directory history) a = .cold := by
  rw [outcome_eq_cold_iff] at hcold ⊢
  intro b hb hindex
  exact hcold b hb (h.index b a hindex)

theorem hits_le (history : List A) : g.count .hit history ≤ g'.count .hit history :=
  count_le_count (fun _ _ => h.outcome_eq_hit) history

theorem cold_le (history : List A) : g.count .cold history ≤ g'.count .cold history :=
  count_le_count (fun _ _ => h.outcome_eq_cold) history

theorem misses_le (history : List A) : g'.misses history ≤ g.misses history := by
  have hhits := h.hits_le history
  have htotal := g.hits_add_misses history
  have htotal' := g'.hits_add_misses history
  omega

theorem evictions_le (history : List A) : g'.count .evict history ≤ g.count .evict history := by
  have hmisses := h.misses_le history
  have hcold := h.cold_le history
  unfold misses at hmisses
  omega

end Counts

end Refines

section Blocks

variable [DecidableEq T] (g : Geometry A T I O)

/-- The blocks that a history touches. -/
def blocks (history : List A) : Finset (T × I) :=
  (history.map fun a => (g.tag a, g.index a)).toFinset

/-- No two blocks of the history share a line. -/
def ConflictFree (history : List A) : Prop :=
  ∀ a ∈ history, ∀ b ∈ history, g.index a = g.index b → g.tag a = g.tag b

theorem mem_blocks {history : List A} {t : T} {i : I} :
    (t, i) ∈ g.blocks history ↔ ∃ a ∈ history, g.tag a = t ∧ g.index a = i := by
  simp [blocks]

theorem blocks_concat (history : List A) (a : A) :
    g.blocks (history ++ [a]) = insert (g.tag a, g.index a) (g.blocks history) := by
  ext block
  simp [blocks]

/-- Each miss touches a new block or evicts one. -/
theorem card_blocks_le_misses (history : List A) :
    (g.blocks history).card ≤ g.misses history ∧
      g.misses history ≤ (g.blocks history).card + g.count .evict history := by
  induction history using List.reverseRecOn with
  | nil => exact ⟨le_rfl, le_rfl⟩
  | append_singleton history a ih =>
    rw [misses_concat, count_concat, blocks_concat]
    cases hout : g.outcome (g.directory history) a with
    | hit =>
      obtain ⟨b, hlast, htag⟩ := (g.outcome_eq_hit_iff history a).mp hout
      obtain ⟨hmem, hindex⟩ := List.mem_filter.mp (List.mem_of_getLast? hlast)
      have hin : (g.tag a, g.index a) ∈ g.blocks history :=
        g.mem_blocks.mpr ⟨b, hmem, htag, by simpa using hindex⟩
      rw [Finset.insert_eq_of_mem hin]
      simpa using ih
    | cold =>
      have hnew : (g.tag a, g.index a) ∉ g.blocks history := by
        intro hin
        obtain ⟨b, hmem, -, hindex⟩ := g.mem_blocks.mp hin
        rw [outcome_eq_cold_iff] at hout
        exact hout b hmem hindex
      rw [Finset.card_insert_of_notMem hnew]
      simp only [reduceCtorEq, if_false]
      omega
    | evict =>
      have hle := Finset.card_insert_le (g.tag a, g.index a) (g.blocks history)
      have hge := Finset.card_le_card (Finset.subset_insert (g.tag a, g.index a) (g.blocks history))
      simp only [reduceCtorEq, if_false, if_true]
      omega

omit [DecidableEq I] [DecidableEq T] in
theorem conflictFree_concat (history : List A) (a : A) :
    g.ConflictFree (history ++ [a]) ↔
      g.ConflictFree history ∧ ∀ b ∈ history, g.index b = g.index a → g.tag b = g.tag a := by
  constructor
  · intro hfree
    refine ⟨fun b hb c hc => hfree b (by simp [hb]) c (by simp [hc]), ?_⟩
    exact fun b hb => hfree b (by simp [hb]) a (by simp)
  · rintro ⟨hfree, hnew⟩ b hb c hc hindex
    rw [List.mem_append, List.mem_singleton] at hb hc
    rcases hb with hb | rfl
    · rcases hc with hc | rfl
      · exact hfree b hb c hc hindex
      · exact hnew b hb hindex
    · rcases hc with hc | rfl
      · exact (hnew c hc hindex.symm).symm
      · rfl

/-- A cache evicts nothing exactly if its history is free of conflicts. -/
theorem evictions_eq_zero_iff (history : List A) :
    g.count .evict history = 0 ↔ g.ConflictFree history := by
  induction history using List.reverseRecOn with
  | nil => simp [ConflictFree]
  | append_singleton history a ih =>
    rw [count_concat, Nat.add_eq_zero_iff, ih, conflictFree_concat]
    apply and_congr_right
    intro hfree
    have hevict : (if g.outcome (g.directory history) a = .evict then 1 else 0) = 0 ↔
        g.outcome (g.directory history) a ≠ .evict := by split_ifs with h <;> simp [h]
    rw [hevict, Ne, outcome_eq_evict_iff]
    constructor
    · intro hout b hb hindex
      obtain ⟨c, hc, hindex', hlast⟩ := g.exists_latest hb
      rw [hfree b hb c hc hindex'.symm]
      by_contra hne
      exact hout ⟨c, hindex ▸ hlast, hne⟩
    · intro hsame hout
      obtain ⟨c, hlast, hne⟩ := hout
      obtain ⟨hc, hindex⟩ := List.mem_filter.mp (List.mem_of_getLast? hlast)
      exact hne (hsame c hc (by simpa using hindex))

end Blocks

end OlinCourses.DirectMapped.Geometry
