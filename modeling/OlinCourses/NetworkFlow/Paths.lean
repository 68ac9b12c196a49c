import OlinCourses.Lib.Loop
import OlinCourses.Lib.Trails

/-!
# Disjoint paths from a maximum flow

The route extraction of the network-flow notebook: `find_path` follows unused arcs
that carry flow, and the loop around it collects paths until none is found.
-/
namespace OlinCourses.NetworkFlow
open Loop Trails Trails.Multigraph

/-- A solved `SimpleMaxFlow` instance with the arcs `0..m-1`. -/
structure SimpleMaxFlow (Node : Type*) (m : ℕ) extends Multigraph Node (Fin m) where
  flow : Fin m → ℤ
  optimalFlow : ℤ

/-- The variables of `find_path`. The set `used_arcs` is listed in the order of its `add`s. -/
structure Search (Node : Type*) (m : ℕ) where
  usedArcs : List (Fin m)
  currentNode : Node
  path : List Node

def allArcs (m : ℕ) : List (Fin m) := List.finRange m

section Source

variable {Node : Type*} [DecidableEq Node] {m : ℕ} (smf : SimpleMaxFlow Node m)
  (source sink : Node)

/-- The arc at which the `for` loop breaks. -/
def findArc (s : Search Node m) : Option (Fin m) :=
  (allArcs m).find? fun arc =>
    arc ∉ s.usedArcs ∧ smf.tail arc = s.currentNode ∧ smf.flow arc > 0

/-- One round of the `while` loop of `find_path`. -/
def findPathRound (s : Search Node m) :
    Option (Search Node m ⊕ Option (List Node) × List (Fin m)) :=
  if s.currentNode = sink then some (.inr (some s.path, s.usedArcs))
  else
    match findArc smf s with
    | some arc =>
      some (.inl ⟨s.usedArcs ++ [arc], smf.head arc, s.path ++ [smf.head arc]⟩)
    | none => some (.inr (none, s.usedArcs))

/-- `find_path` with the `used_arcs` that it leaves. -/
def findPath (fuel : ℕ) (usedArcs : List (Fin m)) (startNode : Node) :
    Option (Option (List Node) × List (Fin m)) :=
  loop (findPathRound smf sink) fuel ⟨usedArcs, startNode, [startNode]⟩

/-- One round of the loop that collects `disjoint_paths`. -/
def disjointPathsRound (fuel : ℕ) (s : List (List Node) × List (Fin m)) :
    Option (List (List Node) × List (Fin m) ⊕ List (List Node) × List (Fin m)) := do
  let (path, usedArcs) ← findPath smf sink fuel s.2 source
  match path with
  | some (node :: nodes) => return .inl (s.1 ++ [node :: nodes], usedArcs)
  -- `if path` is false of `None` and of an empty list.
  | _ => return .inr (s.1, usedArcs)

/-- `disjoint_paths` and `used_arcs` at the end of the notebook. -/
def disjointPaths (fuel : ℕ) : Option (List (List Node) × List (Fin m)) :=
  loop (disjointPathsRound smf source sink fuel) fuel ([], [])

end Source

variable {Node : Type*} [DecidableEq Node] {m : ℕ} {smf : SimpleMaxFlow Node m}
  {source sink : Node}

theorem findArc_eq_some {s : Search Node m} {arc : Fin m} (h : findArc smf s = some arc) :
    arc ∉ s.usedArcs ∧ smf.tail arc = s.currentNode ∧ 0 < smf.flow arc := by
  simpa using List.find?_some h

theorem findArc_eq_none {s : Search Node m} (h : findArc smf s = none) :
    ¬ ∃ arc, arc ∉ s.usedArcs ∧ smf.tail arc = s.currentNode ∧ 0 < smf.flow arc := by
  rintro ⟨arc, harc⟩
  have hnone := List.find?_eq_none.mp h arc (List.mem_finRange arc)
  simp [harc] at hnone

/-- The used arcs are the collected walks and a trail from the source to the current node. -/
structure Walking (smf : SimpleMaxFlow Node m) (source : Node) (walks : List (List (Fin m)))
    (trail : List (Fin m)) (s : Search Node m) : Prop where
  used : s.usedArcs = walks.flatten ++ trail
  nodup : (walks.flatten ++ trail).Nodup
  flow : ∀ arc ∈ walks.flatten ++ trail, 0 < smf.flow arc
  walk : smf.IsWalk source trail s.currentNode
  path : s.path = smf.nodes source trail

variable {walks : List (List (Fin m))}

theorem Walking.step {trail : List (Fin m)} {s : Search Node m}
    (h : Walking smf source walks trail s) {arc : Fin m} (harc : findArc smf s = some arc) :
    Walking smf source walks (trail ++ [arc])
      ⟨s.usedArcs ++ [arc], smf.head arc, s.path ++ [smf.head arc]⟩ := by
  obtain ⟨hunused, htail, hflow⟩ := findArc_eq_some harc
  rw [h.used] at hunused
  refine ⟨by rw [h.used, List.append_assoc], ?_, ?_, smf.isWalk_concat h.walk htail,
    by rw [h.path, smf.nodes_concat]⟩
  · rw [← List.append_assoc, List.nodup_append]
    refine ⟨h.nodup, List.nodup_singleton arc, fun a ha b hb => ?_⟩
    rw [List.mem_singleton.mp hb]
    exact ne_of_mem_of_not_mem ha hunused
  · intro a ha
    rw [← List.append_assoc, List.mem_append, List.mem_singleton] at ha
    obtain ha | rfl := ha
    · exact h.flow a ha
    · exact hflow

/-- The number of arcs that are not yet used. -/
def unused (usedArcs : List (Fin m)) : ℕ := m - usedArcs.length

theorem unused_lt_of_nodup {usedArcs more : List (Fin m)} (hnodup : (usedArcs ++ more).Nodup)
    (hmore : more ≠ []) : unused (usedArcs ++ more) < unused usedArcs := by
  have hle := hnodup.length_le_card
  have hpos := List.length_pos_iff.mpr hmore
  rw [Fintype.card_fin, List.length_append] at hle
  rw [unused, unused, List.length_append]
  omega

/-- What `find_path` leaves behind disjoint walks: one more walk to the sink, or a trail that
is back at the source when as many walks as the flow's value were found. -/
def Extends (smf : SimpleMaxFlow Node m) (source sink : Node) (walks : List (List (Fin m)))
    (r : Option (List Node) × List (Fin m)) : Prop :=
  ∃ trail, r.2 = walks.flatten ++ trail ∧ (walks.flatten ++ trail).Nodup ∧
    (∀ arc ∈ walks.flatten ++ trail, 0 < smf.flow arc) ∧
    ((r.1 = some (smf.nodes source trail) ∧ smf.IsWalk source trail sink) ∨
      r.1 = none ∧ smf.optimalFlow ≤ walks.length)

theorem findPath_spec
    (hflow : IsFlow smf.toMultigraph source sink smf.flow smf.optimalFlow)
    (hwalks : ∀ as ∈ walks, smf.IsWalk source as sink) (hnodup : walks.flatten.Nodup)
    (hpos : ∀ arc ∈ walks.flatten, 0 < smf.flow arc) {fuel : ℕ} (hfuel : m < fuel) :
    ∃ r, findPath smf sink fuel walks.flatten source = some r ∧
      Extends smf source sink walks r := by
  have hstart : ∃ trail, Walking smf source walks trail
      ⟨walks.flatten, source, [source]⟩ :=
    ⟨[], by simp, by simpa using hnodup, by simpa using hpos, rfl, rfl⟩
  refine loop_total (fun s => ∃ trail, Walking smf source walks trail s)
    (fun s => unused s.usedArcs) ?_ hstart (lt_of_le_of_lt (Nat.sub_le m _) hfuel)
  rintro s ⟨trail, h⟩
  rw [findPathRound]
  by_cases hsink : s.currentNode = sink
  · refine Or.inr ⟨_, if_pos hsink, trail, h.used, h.nodup, h.flow, Or.inl ⟨?_, ?_⟩⟩
    · rw [h.path]
    · exact hsink ▸ h.walk
  · rw [if_neg hsink]
    cases harc : findArc smf s with
    | some arc =>
      have hstep := h.step harc
      have hunused := hstep.nodup
      rw [← List.append_assoc, ← h.used] at hunused
      exact Or.inl ⟨_, rfl, ⟨_, hstep⟩, unused_lt_of_nodup hunused (List.cons_ne_nil arc [])⟩
    | none =>
      refine Or.inr ⟨_, rfl, trail, h.used, h.nodup, h.flow, Or.inr ⟨rfl, ?_⟩⟩
      -- While walks are missing, an unused arc leads on from every node but the sink.
      by_contra hlt
      refine findArc_eq_none harc ?_
      rw [h.used]
      exact hflow.exists_next hwalks h.walk h.nodup h.flow hsink fun _ => not_le.mp hlt

theorem findPath_mono {usedArcs : List (Fin m)} {startNode : Node} {fuel fuel' : ℕ}
    {r : Option (List Node) × List (Fin m)}
    (h : findPath smf sink fuel usedArcs startNode = some r) (hle : fuel ≤ fuel') :
    findPath smf sink fuel' usedArcs startNode = some r :=
  loop_mono (fun _ _ => id) h hle

/-- The collected paths are walks from source to sink that share no arc. -/
structure Collected (smf : SimpleMaxFlow Node m) (source sink : Node)
    (walks : List (List (Fin m))) (s : List (List Node) × List (Fin m)) : Prop where
  paths : s.1 = walks.map (smf.nodes source)
  used : s.2 = walks.flatten
  walk : ∀ as ∈ walks, smf.IsWalk source as sink
  nodup : walks.flatten.Nodup
  flow : ∀ arc ∈ walks.flatten, 0 < smf.flow arc

omit [DecidableEq Node] in
theorem Collected.concat {s : List (List Node) × List (Fin m)}
    (h : Collected smf source sink walks s) {trail : List (Fin m)}
    (hwalk : smf.IsWalk source trail sink) (hnodup : (walks.flatten ++ trail).Nodup)
    (hflow : ∀ arc ∈ walks.flatten ++ trail, 0 < smf.flow arc) :
    Collected smf source sink (walks ++ [trail])
      (s.1 ++ [smf.nodes source trail], walks.flatten ++ trail) := by
  have hflat : (walks ++ [trail]).flatten = walks.flatten ++ trail := by simp
  refine ⟨by rw [h.paths, List.map_append, List.map_singleton], hflat.symm, fun as has => ?_,
    hflat ▸ hnodup, hflat ▸ hflow⟩
  rw [List.mem_append, List.mem_singleton] at has
  obtain has | rfl := has
  · exact h.walk as has
  · exact hwalk

/-- The paths are as many as the flow's value, and the arcs that were used are those of the
walks, in order, and what the last call of `find_path` used up. -/
def Exhausted (smf : SimpleMaxFlow Node m) (source sink : Node)
    (r : List (List Node) × List (Fin m)) : Prop :=
  ∃ (walks : List (List (Fin m))) (rest : List (Fin m)),
    r = (walks.map (smf.nodes source), walks.flatten ++ rest) ∧
    (walks.length : ℤ) = smf.optimalFlow ∧
    (∀ as ∈ walks, smf.IsWalk source as sink ∧ ∀ arc ∈ as, 0 < smf.flow arc) ∧
    (walks.flatten ++ rest).Nodup

theorem disjointPaths_total (hst : source ≠ sink)
    (hmax : IsMaxFlow smf.toMultigraph source sink smf.flow smf.optimalFlow) {fuel : ℕ}
    (hfuel : m < fuel) :
    ∃ r, disjointPaths smf source sink fuel = some r ∧ Exhausted smf source sink r := by
  have hstart : ∃ walks, Collected smf source sink walks ([], []) :=
    ⟨[], rfl, rfl, by simp, by simp, by simp⟩
  refine loop_total (fun s => ∃ walks, Collected smf source sink walks s)
    (fun s => unused s.2) ?_ hstart (lt_of_le_of_lt (Nat.sub_le m _) hfuel)
  rintro ⟨paths, usedArcs⟩ ⟨walks, h⟩
  obtain rfl : usedArcs = walks.flatten := h.used
  obtain ⟨⟨path, usedArcs⟩, hfind, trail, hused, hnodup, hflow, hout⟩ :=
    findPath_spec hmax.toIsFlow h.walk h.nodup h.flow hfuel
  dsimp only at hused hout
  obtain ⟨rfl, hwalk⟩ | ⟨rfl, hle⟩ := hout
  · have hconcat := h.concat hwalk hnodup hflow
    have htrail : trail ≠ [] := by
      rintro rfl
      exact hst hwalk
    refine Or.inl ⟨(paths ++ [smf.nodes source trail], usedArcs), ?_, ⟨_, hused ▸ hconcat⟩, ?_⟩
    · simp only [disjointPathsRound, hfind, Option.bind_eq_bind, Option.bind_some, nodes,
        Option.pure_def]
    · rw [hused]
      exact unused_lt_of_nodup hnodup htrail
  · refine Or.inr ⟨(paths, usedArcs), ?_, walks, trail, ?_, ?_, fun as has => ?_, hnodup⟩
    · simp only [disjointPathsRound, hfind, Option.bind_eq_bind, Option.bind_some,
        Option.pure_def]
    · rw [hused, ← h.paths]
    · exact le_antisymm (hmax.length_le hst h.walk h.nodup) hle
    · exact ⟨h.walk as has, fun arc harc => h.flow arc (List.mem_flatten.mpr ⟨as, has, harc⟩)⟩

theorem disjointPaths_mono {fuel fuel' : ℕ} {r : List (List Node) × List (Fin m)}
    (h : disjointPaths smf source sink fuel = some r) (hle : fuel ≤ fuel') :
    disjointPaths smf source sink fuel' = some r := by
  refine loop_mono (fun s out hout => ?_) h hle
  rw [disjointPathsRound, Option.bind_eq_bind, Option.bind_eq_some_iff] at hout ⊢
  obtain ⟨found, hfind, hout⟩ := hout
  exact ⟨found, findPath_mono hfind hle, hout⟩

/-- With a maximum flow the extraction ends, and it collects exactly `optimal_flow` node
lists: walks from source to sink along arcs that carry flow, no arc used twice. -/
theorem disjointPaths_correct (hst : source ≠ sink)
    (hmax : IsMaxFlow smf.toMultigraph source sink smf.flow smf.optimalFlow) :
    ∃ (walks : List (List (Fin m))) (rest : List (Fin m)),
      (∀ fuel > m, disjointPaths smf source sink fuel =
        some (walks.map (smf.nodes source), walks.flatten ++ rest)) ∧
      (walks.length : ℤ) = smf.optimalFlow ∧
      (∀ as ∈ walks, smf.IsWalk source as sink ∧ ∀ arc ∈ as, 0 < smf.flow arc) ∧
      (walks.flatten ++ rest).Nodup := by
  obtain ⟨r, hrun, walks, rest, rfl, hlength, hwalk, hnodup⟩ :=
    disjointPaths_total hst hmax (Nat.lt_succ_self m)
  exact ⟨walks, rest, fun fuel hfuel => disjointPaths_mono hrun hfuel, hlength, hwalk, hnodup⟩

/-- Numerals name the nodes of the example. -/
local instance neZero_four : NeZero 4 := ⟨by decide⟩

/-- Two units from node 0 to node 2, one of them through a cycle at node 1. -/
def cyclic : SimpleMaxFlow (Fin 4) 5 where
  tail := ![0, 1, 3, 1, 0]
  head := ![1, 3, 1, 2, 2]
  flow := fun _ => 1
  optimalFlow := 2

example : disjointPaths cyclic 0 2 6 = some ([[0, 1, 3, 1, 2], [0, 2]], [0, 1, 2, 3, 4]) := by
  decide

theorem isMaxFlow_cyclic : IsMaxFlow cyclic.toMultigraph 0 2 cyclic.flow cyclic.optimalFlow := by
  refine ⟨⟨by decide, by decide, by decide, by decide⟩, fun flow value h => ?_⟩
  have hnet : net cyclic.toMultigraph flow 0 = flow 0 + flow 4 := by
    simp [net, leaves, cyclic, Fin.sum_univ_succ]
  have hfirst := h.le_one 0
  have hlast := h.le_one 4
  have hvalue : cyclic.optimalFlow = 2 := rfl
  rw [← h.value_eq, hnet, hvalue]
  omega

/-- The walk through the cycle and the direct one are found. -/
theorem disjointPaths_correct_cyclic :
    ∃ walks : List (List (Fin 5)), walks.length = 2 ∧
      (disjointPaths cyclic 0 2 6).map Prod.fst = some (walks.map (cyclic.nodes 0)) := by
  obtain ⟨walks, rest, hrun, hlength, -⟩ :=
    disjointPaths_correct (by decide : (0 : Fin 4) ≠ 2) isMaxFlow_cyclic
  have htwo : (walks.length : ℤ) = 2 := hlength
  exact ⟨walks, by exact_mod_cast htwo, by rw [hrun 6 (by decide), Option.map_some]⟩

/-- The notebook's use of the max-flow min-cut theorem: no more walks than were collected are
arc-disjoint, and as many arcs as were collected paths block every walk to the sink. -/
theorem disjointPaths_most (hst : source ≠ sink)
    (hmax : IsMaxFlow smf.toMultigraph source sink smf.flow smf.optimalFlow) :
    ∃ r : List (List Node) × List (Fin m),
      (∀ fuel > m, disjointPaths smf source sink fuel = some r) ∧
      (∀ walks : List (List (Fin m)), (∀ as ∈ walks, smf.IsWalk source as sink) →
        walks.flatten.Nodup → walks.length ≤ r.1.length) ∧
      ∃ cut : Finset (Fin m), cut.card = r.1.length ∧
        ∀ as, smf.IsWalk source as sink → ∃ arc ∈ as, arc ∈ cut := by
  obtain ⟨r, hrun, walks, rest, rfl, hlength, -, -⟩ :=
    disjointPaths_total hst hmax (Nat.lt_succ_self m)
  obtain ⟨cut, hcard, hcut⟩ := hmax.exists_cut hst
  refine ⟨_, fun fuel hfuel => disjointPaths_mono hrun hfuel, fun others hwalk hdisjoint => ?_,
    cut, ?_, hcut⟩
  · have hle := hmax.length_le hst hwalk hdisjoint
    rw [List.length_map]
    exact_mod_cast hlength ▸ hle
  · rw [List.length_map]
    exact_mod_cast hcard.trans hlength.symm

/-- Two arcs block every walk of the example. -/
theorem disjointPaths_most_cyclic :
    ∃ cut : Finset (Fin 5), cut.card = 2 ∧
      ∀ as, cyclic.IsWalk 0 as 2 → ∃ arc ∈ as, arc ∈ cut := by
  obtain ⟨r, hrun, -, cut, hcard, hcut⟩ :=
    disjointPaths_most (by decide : (0 : Fin 4) ≠ 2) isMaxFlow_cyclic
  have hcollected : disjointPaths cyclic 0 2 6 =
      some ([[0, 1, 3, 1, 2], [0, 2]], [0, 1, 2, 3, 4]) := by decide
  rw [hrun 6 (by decide), Option.some.injEq] at hcollected
  exact ⟨cut, by rw [hcard, hcollected]; rfl, hcut⟩

end OlinCourses.NetworkFlow
