import Metalanguage.Proofs.TreeGraph.Layout

/-!
# Proofs/TreeGraph/Children — the edges out of a node of an accepted tree

The edges out of a node are listed once and by payload (`outgoing_payloads_perm`,
`sorted_outgoing_payloads`), each with the node that the tree holds at its far end
(`mem_outgoing_treeOf`). That node stands one stage further down, and its parent is the node that the
edge leaves; so no node is listed twice, out of one node or out of two. `Branching` collects this,
and that every node below the root is listed, and an accepted tree promises it (`branching_of_ofEdges`).
-/

namespace Metalanguage

open Std Ordered

namespace TreeGraph

variable {N P : Type} [Ord N] [Ord P] [TransOrd N] {edges : List (Edge N P)} {root : N}

/-! ## Outgoing edges by number -/

/-- The edges out of a node, read off the arcs out of its number. -/
theorem outgoing_treeOf {a : N} {i : ℕ} (hi : position? compare a (nodesOf edges) = some i) :
    (treeOf edges root).outgoing a = (Arc.leaving (arcsOf (nodesOf edges) edges) i).map fun arc =>
      ((nodesOf edges)[arc.head]?.getD root, arc.payload) := by
  have hout : (treeOf edges root).outgoing a =
      (Arc.leaving (arcsOf (nodesOf edges) edges) i).filterMap fun arc =>
        ((nodesOf edges)[arc.head]?).map fun target => (target, arc.payload) := by
    rw [outgoing, treeOf, hi]
  rw [hout, ← List.filterMap_eq_map]
  refine List.filterMap_congr fun arc harc => ?_
  have hmem := (Arc.mem_leaving.1 harc).1
  rw [arcsOf_eq] at hmem
  obtain ⟨e, he, rfl⟩ := List.mem_map.1 hmem
  have hlt : (arcOf edges e).head < (nodesOf edges).length := (occurs_target he).place_lt
  simp only [Function.comp_apply, List.getElem?_eq_getElem hlt, Option.map_some, Option.getD_some]

omit [TransOrd N] in
theorem outgoing_eq_nil {g : TreeGraph N P} {a : N} (h : position? compare a g.nodes = none) :
    g.outgoing a = [] := by
  rw [outgoing, h]

/-- **An edge out of a node** leads to the node that the tree holds for its target. -/
theorem mem_outgoing_treeOf {a t : N} {p : P} : (t, p) ∈ (treeOf edges root).outgoing a ↔
    t ∈ nodesOf edges ∧
      ∃ e ∈ edges, compare e.source a = .eq ∧ compare e.target t = .eq ∧ e.payload = p := by
  rw [mem_outgoing_iff]
  simp only [treeOf, arcsOf_eq, List.mem_map]
  constructor
  · rintro ⟨i, hi, _, ⟨e, he, rfl⟩, htail, ht, rfl⟩
    obtain ⟨ha, hplace⟩ := position?_nodesOf.1 hi
    have hsource := ((occurs_source he).place_eq_iff ha).1 (htail.trans hplace.symm)
    have htarget := ((occurs_target he).place_eq_iff_getElem ht).1 rfl
    exact ⟨List.mem_of_getElem? ht, e, he, hsource, htarget, rfl⟩
  · rintro ⟨ht, e, he, hsource, htarget, rfl⟩
    have ha : Occurs edges a := occurs_iff.2 ⟨e, he, .inl (OrientedCmp.eq_symm hsource)⟩
    obtain ⟨j, hj⟩ := List.mem_iff_getElem?.1 ht
    refine ⟨_, position?_nodesOf.2 ⟨ha, rfl⟩, arcOf edges e, ⟨e, he, rfl⟩, place_congr hsource, ?_,
      rfl⟩
    rwa [← ((occurs_target he).place_eq_iff_getElem hj).2 htarget] at hj

/-- The edges out of a node are listed by payload. -/
theorem sorted_outgoing_payloads [TransOrd P] (a : N) :
    Sorted compare (((treeOf edges root).outgoing a).map (·.2)) := by
  cases hi : position? compare a (nodesOf edges) with
  | none =>
    rw [outgoing_eq_nil (g := treeOf edges root) hi]
    exact .nil
  | some i =>
    have hsorted : Sorted (compareOn (·.payload))
        (Arc.leaving (arcsOf (nodesOf edges) edges) i) := sorted_sort _
    rw [outgoing_treeOf hi, List.map_map]
    exact List.pairwise_map.2 hsorted

/-- **The edges out of a node are listed once each.** -/
theorem outgoing_payloads_perm (a : N) : (((treeOf edges root).outgoing a).map (·.2)).Perm
    ((edges.filter fun e => compare e.source a == .eq).map (·.payload)) := by
  cases hi : position? compare a (nodesOf edges) with
  | none =>
    have hnone : edges.filter (fun e => compare e.source a == .eq) = [] := by
      refine List.filter_eq_nil_iff.2 fun e he hlevel => ?_
      have ha : Occurs edges a :=
        occurs_iff.2 ⟨e, he, .inl (OrientedCmp.eq_symm (by simpa using hlevel))⟩
      rw [ha.exists_getElem.1] at hi
      cases hi
    rw [outgoing_eq_nil (g := treeOf edges root) hi, hnone]
    exact .refl _
  | some i =>
    obtain ⟨ha, rfl⟩ := position?_nodesOf.1 hi
    have hfilter : (arcsOf (nodesOf edges) edges).filter (·.tail == place edges a) =
        (edges.filter fun e => compare e.source a == .eq).map (arcOf edges) := by
      rw [arcsOf_eq, List.filter_map]
      refine congrArg _ (List.filter_congr fun e he => ?_)
      rw [Bool.eq_iff_iff, beq_iff_eq, ← (occurs_source he).place_eq_iff ha]
      exact beq_iff_eq
    rw [outgoing_treeOf hi, List.map_map, Arc.leaving, hfilter]
    refine ((sort_perm _ _).map _).trans (.of_eq ?_)
    rw [List.map_map]
    rfl

/-! ## Branching -/

/-- **How a tree branches**: the edges out of its nodes lead one stage down, from the parent of a node
to the node, and reach each node below the root once. -/
structure Branching (g : TreeGraph N P) : Prop where
  nodes_increasing : Increasing compare g.nodes
  root_mem : g.root ∈ g.nodes
  onStage_zero : ∀ {a}, g.OnStage 0 a ↔ compare a g.root = .eq
  exists_onStage : ∀ {a}, a ∈ g.nodes → ∃ k, g.OnStage k a
  onStage_unique : ∀ {j k a}, g.OnStage j a → g.OnStage k a → j = k
  lt_size : ∀ {k a}, g.OnStage k a → k < g.size
  target_mem : ∀ {a t p}, (t, p) ∈ g.outgoing a → t ∈ g.nodes
  onStage_target : ∀ {k a t p}, g.OnStage k a → (t, p) ∈ g.outgoing a → g.OnStage (k + 1) t
  parent_target : ∀ {a t p}, a ∈ g.nodes → (t, p) ∈ g.outgoing a → g.parent? t = some a
  exists_source : ∀ {k t}, t ∈ g.nodes → g.OnStage (k + 1) t →
    ∃ a ∈ g.nodes, g.OnStage k a ∧ ∃ p, (t, p) ∈ g.outgoing a
  targets_nodup : ∀ a, ((g.outgoing a).map (·.1)).Nodup

omit [Ord P] in
theorem onStage_congr {g : TreeGraph N P} {k : ℕ} {a b : N} (h : compare a b = .eq)
    (ha : g.OnStage k a) : g.OnStage k b := by
  obtain ⟨stage, hstage, hhas⟩ := ha
  obtain ⟨c, hc, hac⟩ := has_iff.1 hhas
  exact ⟨stage, hstage, has_iff.2 ⟨c, hc, TransCmp.eq_trans (OrientedCmp.eq_symm h) hac⟩⟩

omit [Ord P] in
theorem stageOf_congr {g : TreeGraph N P} {a b : N} (h : compare a b = .eq) :
    g.stageOf a = g.stageOf b := by
  rw [stageOf, stageOf]
  congr 1
  funext stage
  simp only [has, TransCmp.congr_left h]

namespace Passed

variable (h : Passed edges root)

include h

theorem targets_nodup (a : N) : (((treeOf edges root).outgoing a).map (·.1)).Nodup := by
  cases hi : position? compare a (nodesOf edges) with
  | none =>
    rw [outgoing_eq_nil (g := treeOf edges root) hi]
    exact .nil
  | some i =>
    -- no two arcs end at one number, and no two numbers name one node
    have hheads : ((Arc.leaving (arcsOf (nodesOf edges) edges) i).map (·.head)).Nodup := by
      have hall : ((arcsOf (nodesOf edges) edges).map (·.head)).Nodup := by
        rw [arcsOf_eq, List.map_map]
        exact (List.nodup_cons.1 (h.targets_perm.nodup_iff.2 List.nodup_range)).2
      refine (((sort_perm _ _).map _).nodup_iff).2 ?_
      exact hall.sublist (List.filter_sublist.map _)
    have hlt : ∀ {arc}, arc ∈ Arc.leaving (arcsOf (nodesOf edges) edges) i →
        arc.head < (nodesOf edges).length := fun harc => by
      have hmem := (Arc.mem_leaving.1 harc).1
      rw [arcsOf_eq] at hmem
      obtain ⟨e, he, rfl⟩ := List.mem_map.1 hmem
      exact (occurs_target he).place_lt
    rw [outgoing_treeOf hi, List.map_map]
    refine List.Nodup.map_on (fun x hx y hy hxy => ?_) (List.Nodup.of_map _ hheads)
    have hnode : (nodesOf edges)[x.head]? = (nodesOf edges)[y.head]? := by
      simpa [hlt hx, hlt hy] using hxy
    exact List.inj_on_of_nodup_map hheads hx hy
      ((List.getElem?_inj (hlt hx) (increasing_nodesOf edges).nodup).1 hnode)

/-- **An accepted tree branches.** -/
theorem branching : Branching (treeOf edges root) where
  nodes_increasing := increasing_nodesOf edges
  root_mem := List.mem_of_getElem? h.root_getElem?
  onStage_zero {a} := by
    have hroot := h.head?_stageNodes
    rw [List.head?_eq_getElem?] at hroot
    simp only [OnStage, hroot, Option.some.injEq, exists_eq_left', has_iff, List.mem_singleton,
      exists_eq_left]
    rfl
  exists_onStage ha := ⟨_, h.onStage_stageOf (occurs_of_mem ha)⟩
  onStage_unique := h.onStage_unique
  lt_size {k a} hk := (h.onStage_iff.1 hk).2.lt h.rooted.within h.rooted.acyclic h.rooted.root_lt
  target_mem hmem := (mem_outgoing_treeOf.1 hmem).1
  onStage_target {k a t p} hk hmem := by
    obtain ⟨-, e, he, hsource, htarget, -⟩ := mem_outgoing_treeOf.1 hmem
    exact h.onStage_succ_iff.2
      ⟨e, he, onStage_congr (OrientedCmp.eq_symm hsource) hk, OrientedCmp.eq_symm htarget⟩
  parent_target {a t p} ha hmem := by
    obtain ⟨-, e, he, hsource, htarget, -⟩ := mem_outgoing_treeOf.1 hmem
    obtain ⟨q, hq, hqa⟩ := h.exists_parent?_iff.2 ⟨e, he, hsource, htarget⟩
    obtain ⟨_, _, -, -, hqmem⟩ := parent?_eq_some_iff.1 hq
    rwa [(increasing_nodesOf edges).eq_of_level (List.mem_of_getElem? hqmem) ha hqa] at hq
  exists_source {k t} ht hk := by
    obtain ⟨e, he, hsource, htarget⟩ := h.onStage_succ_iff.1 hk
    obtain ⟨a, ha, hea⟩ := occurs_source he
    exact ⟨a, ha, onStage_congr hea hsource, e.payload,
      mem_outgoing_treeOf.2 ⟨ht, e, he, hea, OrientedCmp.eq_symm htarget, rfl⟩⟩
  targets_nodup := h.targets_nodup

end Passed

theorem branching_of_ofEdges {limit : ℕ} {g : TreeGraph N P} (h : ofEdges limit edges = .ok g) :
    g.Branching := by
  obtain ⟨root, hpassed, rfl⟩ := exists_passed h
  exact hpassed.branching

end TreeGraph

end Metalanguage
