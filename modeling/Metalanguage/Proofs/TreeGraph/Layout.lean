import Metalanguage.Proofs.TreeGraph.Stages

/-!
# Proofs/TreeGraph/Layout — the views of an accepted tree agree with its edges

Every view of a tree looks a node up by its number, so two facts carry them all: what has a number
(`position?_nodesOf`), and that a number has at most one arc into it, the one the tree keeps as
parent (`Passed.parentAt?_eq_some_iff`). Each view then says of two nodes whether an edge joins them.
`Layout` collects what an accepted tree promises about its edges, and `layout_of_ofEdges` keeps the
promise.
-/

namespace Metalanguage

open Std Ordered

namespace TreeGraph

variable {N P : Type} [Ord N]

/-- Some edge runs from `a` to `b`. -/
def Joined (edges : List (Edge N P)) (a b : N) : Prop :=
  ∃ e ∈ edges, compare e.source a = .eq ∧ compare e.target b = .eq

/-- The adjacency matrix is true in the row of `a` and the column of `b`. -/
def Marked (g : TreeGraph N P) (a b : N) : Prop :=
  ∃ i j row, position? compare a g.nodes = some i ∧ position? compare b g.nodes = some j ∧
    g.adjacencyMatrix[i]? = some row ∧ row[j]? = some true

/-! ## Views by number -/

/-- Adjacency asks for the numbers of both ends, and for the parent that is kept ... -/
theorem isAdjacent_eq_true_iff {g : TreeGraph N P} {a b : N} : g.isAdjacent a b = true ↔
    ∃ i j, position? compare a g.nodes = some i ∧ position? compare b g.nodes = some j ∧
      g.parentAt? j = some i := by
  rw [isAdjacent]
  cases position? compare a g.nodes <;> cases position? compare b g.nodes <;> simp

/-- ... as does the parent. -/
theorem parent?_eq_some_iff {g : TreeGraph N P} {b p : N} : g.parent? b = some p ↔
    ∃ i j, position? compare b g.nodes = some j ∧ g.parentAt? j = some i ∧
      g.nodes[i]? = some p := by
  simp only [parent?, Option.bind_eq_bind, Option.bind_eq_some_iff]
  constructor
  · rintro ⟨j, hj, i, hi, hp⟩
    exact ⟨i, j, hj, hi, hp⟩
  · rintro ⟨i, j, hj, hi, hp⟩
    exact ⟨j, hj, i, hi, hp⟩

/-- What leaves a node is looked for among all arcs by the number of their tail ... -/
theorem mem_outgoing_iff [Ord P] {g : TreeGraph N P} {a t : N} {p : P} :
    (t, p) ∈ g.outgoing a ↔ ∃ i, position? compare a g.nodes = some i ∧
      ∃ arc ∈ g.arcs, arc.tail = i ∧ g.nodes[arc.head]? = some t ∧ arc.payload = p := by
  rw [outgoing]
  cases position? compare a g.nodes with
  | none => simp
  | some i =>
    simp only [Arc.leaving, List.mem_filterMap, mem_sort, List.mem_filter, beq_iff_eq,
      Option.map_eq_some_iff, Prod.mk.injEq]
    constructor
    · rintro ⟨arc, ⟨harc, htail⟩, _, ht, rfl, rfl⟩
      exact ⟨i, rfl, arc, harc, htail, ht, rfl⟩
    · rintro ⟨_, ⟨⟩, arc, harc, htail, ht, rfl⟩
      exact ⟨arc, ⟨harc, htail⟩, t, ht, rfl, rfl⟩

/-- ... and the matrix marks both numbers of each arc. -/
theorem marked_iff {g : TreeGraph N P} {a b : N} : g.Marked a b ↔
    ∃ i j, position? compare a g.nodes = some i ∧ position? compare b g.nodes = some j ∧
      ∃ arc ∈ g.arcs, arc.tail = i ∧ arc.head = j := by
  constructor
  · rintro ⟨i, j, row, hi, hj, hrow, htrue⟩
    refine ⟨i, j, hi, hj, ?_⟩
    obtain ⟨hlt, rfl⟩ := List.getElem?_eq_some_iff.1 hrow
    obtain ⟨hlt', hmark⟩ := List.getElem?_eq_some_iff.1 htrue
    simpa [adjacencyMatrix, and_assoc] using hmark
  · rintro ⟨i, j, hi, hj, arc, harc, rfl, rfl⟩
    obtain ⟨x, hx, -⟩ := exists_of_position? hi
    obtain ⟨y, hy, -⟩ := exists_of_position? hj
    have hi' := (List.getElem?_eq_some_iff.1 hx).1
    have hj' := (List.getElem?_eq_some_iff.1 hy).1
    refine ⟨_, _, _, hi, hj, by
      rw [adjacencyMatrix, List.getElem?_map, List.getElem?_range hi']; rfl, ?_⟩
    rw [List.getElem?_map, List.getElem?_range hj']
    simpa using ⟨arc, ⟨harc, rfl⟩, rfl⟩

variable [TransOrd N] {edges : List (Edge N P)}

omit [TransOrd N] in
/-- **What has a number, and which.** -/
theorem position?_nodesOf {a : N} {i : ℕ} :
    position? compare a (nodesOf edges) = some i ↔ Occurs edges a ∧ place edges a = i := by
  constructor
  · intro hi
    obtain ⟨b, hb, hab⟩ := exists_of_position? hi
    exact ⟨⟨b, List.mem_of_getElem? hb, hab⟩, by rw [place, hi, Option.getD_some]⟩
  · rintro ⟨ha, rfl⟩
    exact ha.exists_getElem.1

/-- An edge joins two nodes when its arc joins their numbers. -/
theorem joined_iff_arc {a b : N} : Joined edges a b ↔ Occurs edges a ∧ Occurs edges b ∧
    ∃ e ∈ edges, place edges e.source = place edges a ∧ place edges e.target = place edges b := by
  constructor
  · rintro ⟨e, he, hea, heb⟩
    exact ⟨occurs_iff.2 ⟨e, he, .inl (OrientedCmp.eq_symm hea)⟩,
      occurs_iff.2 ⟨e, he, .inr (OrientedCmp.eq_symm heb)⟩, e, he, place_congr hea, place_congr heb⟩
  · rintro ⟨ha, hb, e, he, hea, heb⟩
    exact ⟨e, he, ((occurs_source he).place_eq_iff ha).1 hea,
      ((occurs_target he).place_eq_iff hb).1 heb⟩

variable [Ord P]

namespace Passed

variable {root : N} (h : Passed edges root)

/-! ## Views by node -/

include h

/-- **The parent of a number is where its one arc comes from.** -/
theorem parentAt?_eq_some_iff {i j : ℕ} : (treeOf edges root).parentAt? j = some i ↔
    ∃ e ∈ edges, place edges e.source = i ∧ place edges e.target = j := by
  have hparents : Arc.parents (treeOf edges root).arcs j =
      (edges.filter fun e => place edges e.target == j).map fun e => place edges e.source := by
    rw [Arc.parents, treeOf, arcsOf_eq, List.filter_map, List.map_map]
    rfl
  have hmem : ∀ e, e ∈ edges.filter (fun e => place edges e.target == j) ↔
      e ∈ edges ∧ place edges e.target = j := fun e => by rw [List.mem_filter, beq_iff_eq]
  have hle := h.entering_length_le j
  rw [parentAt?, hparents, List.head?_map, Option.map_eq_some_iff]
  constructor
  · rintro ⟨e, he, hei⟩
    obtain ⟨hedge, hej⟩ := (hmem e).1 (List.mem_of_mem_head? he)
    exact ⟨e, hedge, hei, hej⟩
  · rintro ⟨e, he, hei, hej⟩
    have hin := (hmem e).2 ⟨he, hej⟩
    obtain ⟨d, hd⟩ := List.length_eq_one_iff.1 (Nat.le_antisymm hle (List.length_pos_of_mem hin))
    rw [hd, List.mem_singleton] at hin
    exact ⟨e, by rw [hd, hin]; rfl, hei⟩

/-- **Two nodes are adjacent** if an edge joins them: the only arc into a node comes from its
parent. -/
theorem isAdjacent_iff {a b : N} :
    (treeOf edges root).isAdjacent a b = true ↔ Joined edges a b := by
  simp only [isAdjacent_eq_true_iff, h.parentAt?_eq_some_iff, joined_iff_arc]
  constructor
  · rintro ⟨i, j, hi, hj, e, he, rfl, rfl⟩
    obtain ⟨ha, hia⟩ := position?_nodesOf.1 hi
    obtain ⟨hb, hjb⟩ := position?_nodesOf.1 hj
    exact ⟨ha, hb, e, he, hia.symm, hjb.symm⟩
  · rintro ⟨ha, hb, e, he, hea, heb⟩
    exact ⟨_, _, position?_nodesOf.2 ⟨ha, rfl⟩, position?_nodesOf.2 ⟨hb, rfl⟩, e, he, hea, heb⟩

/-- ... and one is the parent of the other, up to level names, ... -/
theorem exists_parent?_iff {a b : N} :
    (∃ p, (treeOf edges root).parent? b = some p ∧ compare p a = .eq) ↔ Joined edges a b := by
  simp only [parent?_eq_some_iff, h.parentAt?_eq_some_iff, joined_iff_arc]
  constructor
  · rintro ⟨p, ⟨i, j, hj, ⟨e, he, rfl, rfl⟩, hp⟩, hpa⟩
    obtain ⟨hb, hjb⟩ := position?_nodesOf.1 hj
    refine ⟨⟨p, List.mem_of_getElem? hp, OrientedCmp.eq_symm hpa⟩, hb, e, he, ?_, hjb.symm⟩
    rw [← place_getElem hp, place_congr hpa]
  · rintro ⟨ha, hb, e, he, hea, heb⟩
    obtain ⟨-, p, hp, hap⟩ := ha.exists_getElem
    exact ⟨p, ⟨_, _, position?_nodesOf.2 ⟨hb, rfl⟩, ⟨e, he, hea, heb⟩, hp⟩, OrientedCmp.eq_symm hap⟩

omit h in
/-- ... which lists the edge with those that leave it, ... -/
theorem exists_outgoing_iff {a b : N} :
    (∃ entry ∈ (treeOf edges root).outgoing a, compare entry.1 b = .eq) ↔ Joined edges a b := by
  simp only [Prod.exists, mem_outgoing_iff, joined_iff_arc]
  constructor
  · rintro ⟨t, p, ⟨i, hi, arc, harc, rfl, ht, -⟩, htb⟩
    rw [treeOf, arcsOf_eq] at harc
    obtain ⟨e, he, rfl⟩ := List.mem_map.1 harc
    obtain ⟨ha, hia⟩ := position?_nodesOf.1 hi
    refine ⟨ha, ⟨t, List.mem_of_getElem? ht, OrientedCmp.eq_symm htb⟩, e, he, hia.symm, ?_⟩
    exact (place_getElem ht).symm.trans (place_congr htb)
  · rintro ⟨ha, hb, e, he, hea, heb⟩
    obtain ⟨-, t, ht, hbt⟩ := hb.exists_getElem
    refine ⟨t, e.payload, ⟨_, position?_nodesOf.2 ⟨ha, rfl⟩, arcOf edges e, ?_, hea, ?_, rfl⟩,
      OrientedCmp.eq_symm hbt⟩
    · rw [treeOf, arcsOf_eq]
      exact List.mem_map_of_mem he
    · rw [← heb] at ht
      exact ht

omit h in
/-- ... and the matrix marks the two. -/
theorem marked_iff_joined {a b : N} : (treeOf edges root).Marked a b ↔ Joined edges a b := by
  simp only [marked_iff, joined_iff_arc]
  constructor
  · rintro ⟨i, j, hi, hj, arc, harc, rfl, rfl⟩
    rw [treeOf, arcsOf_eq] at harc
    obtain ⟨e, he, rfl⟩ := List.mem_map.1 harc
    obtain ⟨ha, hia⟩ := position?_nodesOf.1 hi
    obtain ⟨hb, hjb⟩ := position?_nodesOf.1 hj
    exact ⟨ha, hb, e, he, hia.symm, hjb.symm⟩
  · rintro ⟨ha, hb, e, he, hea, heb⟩
    refine ⟨_, _, position?_nodesOf.2 ⟨ha, rfl⟩, position?_nodesOf.2 ⟨hb, rfl⟩, arcOf edges e, ?_,
      hea, heb⟩
    rw [treeOf, arcsOf_eq]
    exact List.mem_map_of_mem he

/-- **Of the nodes only the root has no parent.** -/
theorem parent?_eq_none_iff {a : N} (ha : Occurs edges a) :
    (treeOf edges root).parent? a = none ↔ compare a root = .eq := by
  have hsome : (treeOf edges root).parent? a ≠ none ↔ ∃ b, Joined edges b a := by
    rw [Option.ne_none_iff_exists']
    constructor
    · rintro ⟨p, hp⟩
      exact ⟨p, h.exists_parent?_iff.1 ⟨p, hp, level_self compare p⟩⟩
    · rintro ⟨b, hb⟩
      obtain ⟨p, hp, -⟩ := h.exists_parent?_iff.2 hb
      exact ⟨p, hp⟩
  rw [← not_iff_not, ← ne_eq, hsome, ← ha.place_eq_iff h.occurs_root]
  constructor
  · rintro ⟨b, hb⟩ hplace
    obtain ⟨-, -, e, he, -, heb⟩ := joined_iff_arc.1 hb
    exact h.rooted.no_arc _ (hasArc_iff.2 ⟨e, he, rfl, heb.trans hplace⟩)
  · intro hne
    obtain ⟨u, hu⟩ := h.rooted.exists_arc _ ha.place_lt hne
    obtain ⟨e, he, -, hplace⟩ := hasArc_iff.1 hu
    exact ⟨e.source, e, he, level_self compare _, ((occurs_target he).place_eq_iff ha).1 hplace⟩

end Passed

/-! ## The layout -/

/-- **What an accepted tree promises about its edges.** -/
structure Layout (edges : List (Edge N P)) (g : TreeGraph N P) : Prop where
  nodes_increasing : Increasing compare g.nodes
  nodes_subset : ∀ a ∈ g.nodes, ∃ e ∈ edges, a = e.source ∨ a = e.target
  /-- The ends of the edges, and nothing else, are nodes. -/
  hasNode : ∀ a, g.hasNode a = true ↔
    ∃ e ∈ edges, compare a e.source = .eq ∨ compare a e.target = .eq
  length_edges : edges.length = g.size - 1
  /-- The stages part the nodes. -/
  stages_partition : g.stageNodes.flatten.Perm g.nodes ∧ ∀ stage ∈ g.stageNodes, stage ≠ []
  stages_head : g.stageNodes.head? = some [g.root]
  stages_increasing : ∀ stage ∈ g.stageNodes, Increasing compare stage
  /-- The next stage holds the targets of the edges that leave a stage. -/
  onStage_succ : ∀ k a, g.OnStage (k + 1) a ↔
    ∃ e ∈ edges, g.OnStage k e.source ∧ compare a e.target = .eq
  depth : g.depth = g.stageNodes.length
  /-- The payloads are those of the edges, by the stage of the source and then by payload. -/
  payloads : ∃ listed : List (Edge N P), listed.Perm edges ∧
    g.payloads = listed.map (·.payload) ∧
    Sorted (compareLex (compareOn fun e => g.stageOf e.source) (compareOn (·.payload))) listed
  stageOf : ∀ e ∈ edges, g.OnStage (g.stageOf e.source) e.source
  isAdjacent : ∀ a b, g.isAdjacent a b = true ↔ Joined edges a b
  parent : ∀ a b, (∃ p, g.parent? b = some p ∧ compare p a = .eq) ↔ Joined edges a b
  outgoing : ∀ a b, (∃ entry ∈ g.outgoing a, compare entry.1 b = .eq) ↔ Joined edges a b
  matrix : ∀ a b, g.Marked a b ↔ Joined edges a b
  /-- Of the nodes only the root has no parent. -/
  parent_none : ∀ a, g.hasNode a = true → (g.parent? a = none ↔ compare a g.root = .eq)

theorem layout_of_ofEdges [TransOrd P] {limit : ℕ} {g : TreeGraph N P}
    (h : ofEdges limit edges = .ok g) : Layout edges g := by
  obtain ⟨root, hpassed, rfl⟩ := exists_passed h
  have hoccurs : ∀ a, (treeOf edges root).hasNode a = true ↔ Occurs edges a := fun a => has_iff
  exact {
    nodes_increasing := increasing_nodesOf edges
    nodes_subset := fun a ha => by
      obtain ⟨e, he, hae⟩ := List.mem_flatMap.1 (mem_of_mem_keepLast ha)
      exact ⟨e, he, List.mem_pair.1 hae⟩
    hasNode := fun a => (hoccurs a).trans occurs_iff
    length_edges := Nat.eq_sub_of_add_eq hpassed.length_add_one
    stages_partition := ⟨hpassed.stageNodes_flatten_perm, fun _ => hpassed.ne_nil_of_mem_stageNodes⟩
    stages_head := hpassed.head?_stageNodes
    stages_increasing := fun _ => Passed.increasing_of_mem_stageNodes
    onStage_succ := fun _ _ => hpassed.onStage_succ_iff
    depth := (List.length_map _).symm
    payloads := hpassed.exists_listing
    stageOf := fun e he => hpassed.onStage_stageOf (occurs_source he)
    isAdjacent := fun _ _ => hpassed.isAdjacent_iff
    parent := fun _ _ => hpassed.exists_parent?_iff
    outgoing := fun _ _ => Passed.exists_outgoing_iff
    matrix := fun _ _ => Passed.marked_iff_joined
    parent_none := fun a ha => hpassed.parent?_eq_none_iff ((hoccurs a).1 ha) }

/-- Three edges on two stages, listed from the bottom up and out of order. -/
theorem layout_of_ofEdges_fork :
    ∃ g, ofEdges 4 [(⟨2, 4, 9⟩ : Edge ℕ ℕ), ⟨1, 3, 6⟩, ⟨1, 2, 5⟩] = .ok g ∧
      g.stageNodes = [[1], [2, 3], [4]] ∧ g.payloads = [5, 6, 9] ∧
      Layout [(⟨2, 4, 9⟩ : Edge ℕ ℕ), ⟨1, 3, 6⟩, ⟨1, 2, 5⟩] g := by
  have h : ofEdges 4 [(⟨2, 4, 9⟩ : Edge ℕ ℕ), ⟨1, 3, 6⟩, ⟨1, 2, 5⟩] = .ok _ := rfl
  exact ⟨_, h, rfl, rfl, layout_of_ofEdges h⟩

end TreeGraph

end Metalanguage
