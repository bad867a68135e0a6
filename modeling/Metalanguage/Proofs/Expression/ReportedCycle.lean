import Metalanguage.Proofs.Expression.Identity
import Metalanguage.Proofs.TreeGraph.Layout

/-!
# Proofs/Expression/ReportedCycle — a reported cycle is a real, simple one

What the search on the numbers reports is a simple cycle (`Digraph.isCycle_of_cycle?`), and each
number has a node of its own, so the nodes that a refusal lists make a closed path along the edges
(`TreeGraph.closedPath_of_ofEdges`). The canonical forms of unlevel nodes differ, so the names in
the error of a sentence make such a path as well (`Sentence.closedPath_of_ofClauses`).
-/

namespace Metalanguage

open Std Ordered

/-- **A simple closed path**: it comes back to where it starts, each entry is joined to the next, and
apart from the repeated end no two entries are the same. -/
structure ClosedPath {A : Type} (joined same : A → A → Prop) (path : List A) : Prop where
  two_le_length : 2 ≤ path.length
  closed : path.head? = path.getLast?
  joined : path.IsChain joined
  apart : path.dropLast.Pairwise fun a b => ¬ same a b

/-- A closed path that is renamed, where the new names keep what is joined and tell apart what they
told apart before. -/
theorem ClosedPath.map {A B : Type} {joined same : A → A → Prop} {joined' same' : B → B → Prop}
    {path : List A} (h : ClosedPath joined same path) {f : A → B}
    (hjoined : ∀ a b, joined a b → joined' (f a) (f b))
    (hsame : ∀ a ∈ path, ∀ b ∈ path, same' (f a) (f b) → same a b) :
    ClosedPath joined' same' (path.map f) where
  two_le_length := by simpa using h.two_le_length
  closed := by rw [List.head?_map, List.getLast?_map, h.closed]
  joined := List.isChain_map_of_isChain f hjoined h.joined
  apart := by
    rw [← List.map_dropLast, List.pairwise_map]
    exact h.apart.imp_of_mem fun ha hb hab hfab =>
      hab (hsame _ (List.dropLast_subset _ ha) _ (List.dropLast_subset _ hb) hfab)

namespace Digraph

variable {next : ℕ → List ℕ} {walk : List ℕ}

theorem IsCycle.closedPath (h : IsCycle next walk) : ClosedPath (HasArc next) (· = ·) walk := by
  obtain ⟨w, l, rfl, hnodup, hchain⟩ := h
  refine ⟨by simp, ?_, hchain, ?_⟩
  · rw [List.getLast?_concat, List.cons_append, List.head?_cons]
  · rwa [List.dropLast_concat]

end Digraph

/-! ## Along edges -/

namespace TreeGraph

variable {N P : Type} [Ord N]

omit [Ord N] in
/-- Positions within the nodes pick a node each. -/
theorem pick_eq_map {nodes : List N} (node : N) {positions : List ℕ}
    (h : ∀ i ∈ positions, i < nodes.length) :
    pick nodes positions = positions.map fun i => nodes[i]?.getD node := by
  rw [pick, ← List.filterMap_eq_map]
  refine List.filterMap_congr fun i hi => ?_
  simp [List.getElem?_eq_getElem (h i hi)]

variable [TransOrd N] [Ord P] {edges : List (Edge N P)}

/-- **The nodes that a refusal lists make a simple closed path** along the edges. -/
theorem closedPath_of_ofEdges {limit : ℕ} {path : List N}
    (h : ofEdges limit edges = .error (.defect (.cycle path))) :
    ClosedPath (Joined edges) (compare · · = .eq) path ∧ path ⊆ nodesOf edges := by
  have hcyclic : Cyclic edges := (ofEdges_diagnosis limit edges).cycle.1 ⟨path, h⟩
  obtain ⟨walk, hwalk⟩ := cycle?_of_cyclic hcyclic
  obtain rfl : pick (nodesOf edges) walk = path := by simpa [ofEdges_of_cycle? limit hwalk] using h
  refine ⟨?_, pick_subset⟩
  have hcycle := Digraph.isCycle_of_cycle? within_nextOf hwalk
  -- every number on the walk is the number of a node
  have hlt : ∀ i ∈ walk, i < (nodesOf edges).length := fun i hi => hcycle.lt within_nextOf hi
  obtain ⟨node, -⟩ : ∃ node, node ∈ nodesOf edges := by
    obtain ⟨w, l, rfl, -⟩ := id hcycle
    exact ⟨_, List.getElem_mem (hlt w (by simp))⟩
  rw [pick_eq_map node hlt]
  refine hcycle.closedPath.map (fun i j hij => ?_) fun i hi j hj hlevel => ?_
  · obtain ⟨e, he, rfl, rfl⟩ := hasArc_iff.1 hij
    obtain ⟨-, a, ha, hsource⟩ := (occurs_source he).exists_getElem
    obtain ⟨-, b, hb, htarget⟩ := (occurs_target he).exists_getElem
    exact ⟨e, he, by simpa [ha] using hsource, by simpa [hb] using htarget⟩
  · have hplace : ∀ i ∈ walk, place edges ((nodesOf edges)[i]?.getD node) = i := fun i hi => by
      have hnode := List.getElem?_eq_getElem (hlt i hi)
      rw [hnode, Option.getD_some, place_getElem hnode]
    rw [← hplace i hi, ← hplace j hj, place_congr hlevel]

end TreeGraph

/-! ## In the errors of sentences -/

namespace Sentence

variable {N : Type} [ClauseNode N]

/-- Some clause has a substance named `a` and an attribute named `b`. -/
def NamesJoined (clauses : List (Clause N)) (a b : String) : Prop :=
  ∃ c ∈ clauses, ClauseNode.canonical c.substance = a ∧ ClauseNode.canonical c.attr = b

variable [LawfulNode N]

/-- The names in an error make a simple closed path, if canonical forms tell nodes apart. -/
theorem closedPath_of_ofClauses {clauses : List (Clause N)} {node : N → Prop}
    (hbuilt : ∀ c ∈ clauses, c.Built node)
    (hlevel : ∀ {a b : N}, node a → node b → ClauseNode.canonical a = ClauseNode.canonical b →
      compare a b = .eq) {limit : ℕ} {construct : Construct} {names : List String}
    (h : ofClauses limit clauses = .error (.invalidTree construct (.cycle names))) :
    ClosedPath (NamesJoined clauses) (· = ·) names := by
  obtain ⟨path, hpath, rfl⟩ : ∃ path, TreeGraph.ofEdges limit (clauses.map edgeOf) =
      .error (.defect (.cycle path)) ∧ path.map ClauseNode.canonical = names := by
    rw [ofClauses_eq] at h
    rcases hg : TreeGraph.ofEdges limit (clauses.map edgeOf) with (⟨_ | _⟩ | _) | _ <;>
      simp_all [refusal, TreeDefect.map]
  obtain ⟨hclosed, hsub⟩ := TreeGraph.closedPath_of_ofEdges hpath
  have hnode : ∀ a ∈ path, node a := fun a ha => by
    obtain ⟨e, he, hae⟩ := List.mem_flatMap.1 (mem_of_mem_keepLast (hsub ha))
    obtain ⟨c, hc, rfl⟩ := List.mem_map.1 he
    rcases List.mem_pair.1 hae with rfl | rfl
    · exact (hbuilt c hc).nodes _ (by simp [Clause.nodes, edgeOf])
    · exact (hbuilt c hc).nodes _ (by simp [Clause.nodes, edgeOf])
  refine hclosed.map ?_ fun a ha b hb => hlevel (hnode a ha) (hnode b hb)
  rintro a b ⟨e, he, hsource, htarget⟩
  obtain ⟨c, hc, rfl⟩ := List.mem_map.1 he
  exact ⟨c, hc, LawfulNode.canonical_congr hsource, LawfulNode.canonical_congr htarget⟩

end Sentence

/-- **A reported cycle is a real, simple one.** The nodes in a refusal make a simple closed path
along the given edges; so do the names in the error of a sentence or a super-sentence over the terms
of any dictionaries, along its clauses. -/
theorem reported_cycle_closedPath :
    (∀ {N P : Type} [Ord N] [TransOrd N] [Ord P] (limit : ℕ) (edges : List (Edge N P))
      (path : List N), TreeGraph.ofEdges limit edges = .error (.defect (.cycle path)) →
        ClosedPath (TreeGraph.Joined edges) (compare · · = .eq) path) ∧
    (∀ (limit : ℕ) (clauses : List (Clause Word)) (construct : Construct) (names : List String),
      (∀ c ∈ clauses, (Part.clause c).Built .issued) →
      Sentence.ofClauses limit clauses = .error (.invalidTree construct (.cycle names)) →
        ClosedPath (Sentence.NamesJoined clauses) (· = ·) names) ∧
    ∀ (limit : ℕ) (clauses : List SuperClause) (construct : Construct) (names : List String),
      (∀ c ∈ clauses, (Part.superClause c).Built .issued) →
      Sentence.ofClauses limit clauses = .error (.invalidTree construct (.cycle names)) →
        ClosedPath (Sentence.NamesJoined clauses) (· = ·) names := by
  have hk := Stock.legible_issued
  refine ⟨fun _ _ _ h => (TreeGraph.closedPath_of_ofEdges h).1, ?_, ?_⟩
  · intro limit clauses construct names hbuilt h
    refine Sentence.closedPath_of_ofClauses hbuilt (fun {a b} ha hb hab => ?_) h
    exact Part.Built.level (p := .word a) (q := .word b) hk ha hb hab
  · intro limit clauses construct names hbuilt h
    refine Sentence.closedPath_of_ofClauses hbuilt (fun {a b} ha hb hab => ?_) h
    exact Part.Built.level (p := .sentence a) (q := .sentence b) hk ha hb hab

/-- Clauses from the first noun into a circle of the other two. -/
def Sample.circle : List (Clause Word) :=
  [clause (noun "b." 1) (noun "s." 2) [],
    ⟨word (noun "b." 1) [], word (noun "s." 2) [], word (noun "a." 0) []⟩,
    ⟨word (noun "s." 2) [], word (noun "b." 1) [], word (noun "a." 0) []⟩]

theorem Sample.circle_built : ∀ c ∈ circle, (Part.clause c).Built .issued := by
  have hword : ∀ t ∈ dictionary.terms, (word t []).Built .issued := fun t ht =>
    word_built ⟨dictionary, accepted, ht⟩ (by simp)
  simp only [dictionary, List.forall_mem_cons] at hword
  obtain ⟨ha, hb, hs, -⟩ := hword
  simp only [circle, List.forall_mem_cons]
  refine ⟨⟨?_, rfl⟩, ⟨?_, rfl⟩, ⟨?_, rfl⟩, by simp⟩ <;>
    simp [clause, Clause.nodes, ha, hb, hs]

/-- Two edges in parallel into a circle. -/
def Sample.parallel : List (Edge ℕ ℕ) := [⟨0, 1, 5⟩, ⟨0, 1, 6⟩, ⟨1, 2, 7⟩, ⟨2, 1, 8⟩]

/-- Of edges, or clauses, that lead into a circle the circle alone is reported. -/
theorem reported_cycle_closedPath_tail :
    (TreeGraph.ofEdges 9 Sample.parallel = .error (.defect (.cycle [1, 2, 1])) ∧
      ClosedPath (TreeGraph.Joined Sample.parallel) (compare · · = .eq) [1, 2, 1]) ∧
    (∀ c ∈ Sample.circle, (Part.clause c).Built .issued) ∧
    Sentence.ofClauses 9 Sample.circle =
      .error (.invalidTree .sentence (.cycle ["[([b.])]", "[([s.])]", "[([b.])]"])) ∧
    ClosedPath (Sentence.NamesJoined Sample.circle) (· = ·)
      ["[([b.])]", "[([s.])]", "[([b.])]"] := by
  have hedges : TreeGraph.ofEdges 9 Sample.parallel = .error (.defect (.cycle [1, 2, 1])) := rfl
  have hclauses : Sentence.ofClauses 9 Sample.circle =
      .error (.invalidTree .sentence (.cycle ["[([b.])]", "[([s.])]", "[([b.])]"])) := rfl
  exact ⟨⟨hedges, reported_cycle_closedPath.1 9 _ _ hedges⟩, Sample.circle_built, hclauses,
    reported_cycle_closedPath.2.1 9 _ _ _ Sample.circle_built hclauses⟩

end Metalanguage
