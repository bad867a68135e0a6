import Metalanguage.Proofs.TreeGraph.CanonicalOrder
import Metalanguage.Proofs.TreeGraph.Verdict

/-!
# Proofs/TreeGraph/Stages — an accepted tree is laid out by the distance from its root

A node stands on the stage of its distance from the root (`Passed.onStage_iff`). So the stages hold
every node once (`Passed.stageNodes_flatten_perm`), each edge leads from one stage to the next
(`Passed.onStage_succ_iff`), and the canonical order of the edges is by stage and then by payload
(`Passed.exists_listing`). Every node but the root is the target of one edge, which counts the edges
(`Passed.length_add_one`).
-/

namespace Metalanguage

open Std Ordered

namespace TreeGraph

variable {N P : Type} [Ord N]

/-- A node stands on the stage of this number. -/
def OnStage (g : TreeGraph N P) (k : ℕ) (a : N) : Prop :=
  ∃ stage, g.stageNodes[k]? = some stage ∧ has compare a stage = true

/-- The number of the stage that a node stands on. -/
def stageOf (g : TreeGraph N P) (a : N) : ℕ := g.stageNodes.findIdx (has compare a)

variable {edges : List (Edge N P)}

/-! ## Picking nodes in order -/

omit [Ord N] in
theorem mem_pick {nodes : List N} {positions : List ℕ} {a : N} :
    a ∈ pick nodes positions ↔ ∃ i ∈ positions, nodes[i]? = some a := List.mem_filterMap

theorem increasing_pick {nodes : List N} (hnodes : Increasing compare nodes) {positions : List ℕ}
    (h : Increasing compare positions) : Increasing compare (pick nodes positions) := by
  refine List.pairwise_filterMap.2 (h.imp fun {i j} hij a ha b hb => ?_)
  obtain ⟨hi, rfl⟩ := List.getElem?_eq_some_iff.1 ha
  obtain ⟨hj, rfl⟩ := List.getElem?_eq_some_iff.1 hb
  exact List.pairwise_iff_getElem.1 hnodes i j hi hj (Nat.compare_eq_lt.1 hij)

omit [Ord N] in
/-- All positions pick all nodes. -/
theorem pick_range (nodes : List N) : pick nodes (List.range nodes.length) = nodes := by
  have hmap : (List.range nodes.length).map (nodes[·]?) = nodes.map some :=
    List.ext_getElem (by simp) fun i hi hj => by simp at hj; simp [hj]
  have hpick := congrArg (List.filterMap id) hmap
  simpa [pick, List.filterMap_map, Function.comp_def] using hpick

omit [Ord N] in
theorem flatten_map_pick (nodes : List N) : ∀ stages : List (List ℕ),
    (stages.map (pick nodes)).flatten = pick nodes stages.flatten
  | [] => rfl
  | stage :: stages => by
    rw [List.map_cons, List.flatten_cons, flatten_map_pick nodes stages, List.flatten_cons, pick,
      pick, pick, List.filterMap_append]

variable [TransOrd N] [Ord P]

namespace Passed

variable {root : N} (h : Passed edges root)

/-! ## The edges -/

include h

/-- At most one edge enters each number. -/
theorem entering_length_le (v : ℕ) :
    (edges.filter fun e => place edges e.target == v).length ≤ 1 := by
  by_cases hv : v < (nodesOf edges).length
  · rw [← incoming_eq_filter (List.getElem?_eq_getElem hv)]
    exact incoming_length_le h.crowded _
  · rw [List.filter_eq_nil_iff.2 fun e he => ?_]
    · exact Nat.zero_le 1
    · have := (occurs_target he).place_lt
      simp only [beq_iff_eq]
      omega

/-- The numbers of the targets, with that of the root, are all numbers. -/
theorem targets_perm : (place edges root :: edges.map fun e => place edges e.target).Perm
    (List.range (nodesOf edges).length) := by
  have hnodup : (edges.map fun e => place edges e.target).Nodup := by
    rw [List.nodup_iff_count_le_one]
    intro v
    have hcount : (edges.map fun e => place edges e.target).count v =
        (edges.filter fun e => place edges e.target == v).length := by
      rw [List.count_eq_countP, List.countP_map, List.countP_eq_length_filter]
      rfl
    exact hcount ▸ h.entering_length_le v
  have hroot : place edges root ∉ edges.map fun e => place edges e.target := by
    intro hmem
    obtain ⟨e, he, hplace⟩ := List.mem_map.1 hmem
    exact h.rooted.no_arc _ (hasArc_iff.2 ⟨e, he, rfl, hplace⟩)
  refine (List.perm_ext_iff_of_nodup (List.nodup_cons.2 ⟨hroot, hnodup⟩) List.nodup_range).2
    fun v => ?_
  rw [List.mem_cons, List.mem_map, List.mem_range]
  constructor
  · rintro (rfl | ⟨e, he, rfl⟩)
    · exact h.rooted.root_lt
    · exact (occurs_target he).place_lt
  · intro hv
    by_cases hne : v = place edges root
    · exact .inl hne
    · obtain ⟨u, hu⟩ := h.rooted.exists_arc v hv hne
      obtain ⟨e, he, -, hplace⟩ := hasArc_iff.1 hu
      exact .inr ⟨e, he, hplace⟩

/-- **There is one edge less than nodes.** -/
theorem length_add_one : edges.length + 1 = (nodesOf edges).length := by
  have hlength := h.targets_perm.length_eq
  simpa using hlength

/-! ## The stages -/

theorem occurs_root : Occurs edges root := occurs_of_mem (List.mem_of_getElem? h.root_getElem?)

/-- **A node stands on the stage of its distance from the root.** -/
theorem onStage_iff {k : ℕ} {a : N} : (treeOf edges root).OnStage k a ↔
    Occurs edges a ∧ Digraph.Walks (nextOf edges) k (place edges root) (place edges a) := by
  simp only [OnStage, stageNodes, List.getElem?_map, Option.map_eq_some_iff, has_iff]
  constructor
  · rintro ⟨_, ⟨level, hlevel, rfl⟩, b, hb, hab⟩
    obtain ⟨i, hi, hib⟩ := mem_pick.1 hb
    have hplace : place edges a = i := (place_congr hab).trans (place_getElem hib)
    exact ⟨⟨b, List.mem_of_getElem? hib, hab⟩, hplace ▸ (Digraph.mem_level_iff hlevel).1 hi⟩
  · rintro ⟨ha, hwalk⟩
    obtain ⟨level, hlevel, hmem⟩ := h.rooted.exists_level hwalk
    obtain ⟨-, b, hb, hab⟩ := ha.exists_getElem
    exact ⟨_, ⟨level, hlevel, rfl⟩, b, mem_pick.2 ⟨_, hmem, hb⟩, hab⟩

theorem onStage_unique {j k : ℕ} {a : N} (hj : (treeOf edges root).OnStage j a)
    (hk : (treeOf edges root).OnStage k a) : j = k :=
  h.rooted.walks_unique (h.onStage_iff.1 hj).2 (h.onStage_iff.1 hk).2

theorem stageOf_eq {k : ℕ} {a : N} (hk : (treeOf edges root).OnStage k a) :
    (treeOf edges root).stageOf a = k := by
  obtain ⟨stage, hstage, hhas⟩ := id hk
  have hex : ∃ stage ∈ (treeOf edges root).stageNodes, has compare a stage = true :=
    ⟨stage, List.mem_of_getElem? hstage, hhas⟩
  have hlt := List.findIdx_lt_length.2 hex
  refine h.onStage_unique ⟨_, List.getElem?_eq_getElem hlt, ?_⟩ hk
  exact List.findIdx_getElem (w := hlt)

theorem onStage_stageOf {a : N} (ha : Occurs edges a) :
    (treeOf edges root).OnStage ((treeOf edges root).stageOf a) a := by
  obtain ⟨k, hk⟩ := h.rooted.exists_walks ha.place_lt
  have honStage := h.onStage_iff.2 ⟨ha, hk⟩
  rwa [h.stageOf_eq honStage]

/-- **The nodes of the next stage are the targets of the edges that leave this one.** -/
theorem onStage_succ_iff {k : ℕ} {a : N} : (treeOf edges root).OnStage (k + 1) a ↔
    ∃ e ∈ edges, (treeOf edges root).OnStage k e.source ∧ compare a e.target = .eq := by
  simp only [h.onStage_iff, Digraph.walks_succ_iff]
  constructor
  · rintro ⟨ha, u, hwalk, harc⟩
    obtain ⟨e, he, rfl, hplace⟩ := hasArc_iff.1 harc
    exact ⟨e, he, ⟨occurs_source he, hwalk⟩, (ha.place_eq_iff (occurs_target he)).1 hplace.symm⟩
  · rintro ⟨e, he, ⟨-, hwalk⟩, hae⟩
    refine ⟨occurs_iff.2 ⟨e, he, .inr hae⟩, _, hwalk, hasArc_iff.2 ⟨e, he, rfl, ?_⟩⟩
    exact (place_congr hae).symm

omit [TransOrd N] in
/-- The first stage is the root. -/
theorem head?_stageNodes : (treeOf edges root).stageNodes.head? = some [root] := by
  have hlevel : (treeOf edges root).stages[0]? = some [place edges root] :=
    (Digraph.levels_getElem? (by simp)).2 ⟨Nat.zero_lt_of_lt h.rooted.root_lt, rfl, by simp⟩
  rw [List.head?_eq_getElem?, stageNodes, List.getElem?_map, hlevel]
  exact congrArg some (List.filterMap_cons_some h.root_getElem?)

omit h in
theorem increasing_of_mem_stageNodes {stage : List N}
    (hstage : stage ∈ (treeOf edges root).stageNodes) : Increasing compare stage := by
  obtain ⟨level, hlevel, rfl⟩ := List.mem_map.1 hstage
  obtain ⟨k, hk⟩ := List.mem_iff_getElem?.1 hlevel
  obtain ⟨-, rfl, -⟩ := (Digraph.levels_getElem? (by simp)).1 hk
  refine increasing_pick (increasing_nodesOf edges) ?_
  cases k with
  | zero => exact List.pairwise_singleton _ _
  | succ k =>
    rw [Function.iterate_succ_apply']
    exact increasing_keepLast _

omit [TransOrd N] in
theorem ne_nil_of_mem_stageNodes {stage : List N}
    (hstage : stage ∈ (treeOf edges root).stageNodes) : stage ≠ [] := by
  obtain ⟨level, hlevel, rfl⟩ := List.mem_map.1 hstage
  obtain ⟨k, hk⟩ := List.mem_iff_getElem?.1 hlevel
  obtain ⟨-, -, hne⟩ := (Digraph.levels_getElem? (by simp)).1 hk
  obtain ⟨i, hi⟩ := List.exists_mem_of_ne_nil _ hne
  have hlt := h.rooted.lt_of_walks ((Digraph.mem_level_iff hk).1 hi)
  exact List.ne_nil_of_mem (mem_pick.2 ⟨i, hi, List.getElem?_eq_getElem hlt⟩)

omit [TransOrd N] in
/-- **The stages hold every node once.** -/
theorem stageNodes_flatten_perm :
    (treeOf edges root).stageNodes.flatten.Perm (nodesOf edges) := by
  have hlevels : (treeOf edges root).stages.flatten.Perm (List.range (nodesOf edges).length) :=
    h.rooted.levels_perm
  have hpick := hlevels.filterMap ((nodesOf edges)[·]?)
  rw [stageNodes, flatten_map_pick]
  exact hpick.trans (.of_eq (pick_range _))

/-! ## The canonical order -/

variable [TransOrd P]

omit h [TransOrd N] [TransOrd P] in
theorem tail_mem_of_mem_sort {arcs : List (Arc P)} {stage : List ℕ} {a : Arc P}
    (ha : a ∈ sort (compareOn (·.payload)) (stage.flatMap (Arc.leaving arcs))) :
    a.tail ∈ stage := by
  obtain ⟨v, hv, hav⟩ := List.mem_flatMap.1 (mem_sort.1 ha)
  obtain rfl : a.tail = v := by simpa using (List.mem_filter.1 (mem_sort.1 hav)).2
  exact hv

omit [TransOrd N] in
/-- The arcs stand in the order of the distances of their tails, then of their payloads. -/
theorem pairwise_arcsInOrder :
    (arcsInOrder (arcsOf (nodesOf edges) edges) (treeOf edges root).stages).Pairwise fun a b =>
      ∀ i j, Digraph.Walks (nextOf edges) i (place edges root) a.tail →
        Digraph.Walks (nextOf edges) j (place edges root) b.tail →
          i < j ∨ i = j ∧ (compare a.payload b.payload).isLE := by
  have hdistance : ∀ {k i : ℕ} {level : List ℕ} {a : Arc P},
      (treeOf edges root).stages[k]? = some level →
      a ∈ sort (compareOn (·.payload))
        (level.flatMap (Arc.leaving (arcsOf (nodesOf edges) edges))) →
      Digraph.Walks (nextOf edges) i (place edges root) a.tail → i = k := fun hlevel ha hi =>
    h.rooted.walks_unique hi ((Digraph.mem_level_iff hlevel).1 (tail_mem_of_mem_sort ha))
  refine List.pairwise_flatMap.2 ⟨fun level hlevel => ?_, ?_⟩
  · obtain ⟨k, hk⟩ := List.mem_iff_getElem?.1 hlevel
    have hsorted : Sorted (compareOn (·.payload)) (sort (compareOn (·.payload))
        (level.flatMap (Arc.leaving (arcsOf (nodesOf edges) edges)))) := sorted_sort _
    refine hsorted.imp_of_mem fun {a b} ha hb hab i j hi hj => .inr ⟨?_, hab⟩
    rw [hdistance hk ha hi, hdistance hk hb hj]
  · refine List.pairwise_iff_getElem.2 fun k l hk hl hkl a ha b hb i j hi hj => .inl ?_
    rwa [hdistance (List.getElem?_eq_getElem hk) ha hi,
      hdistance (List.getElem?_eq_getElem hl) hb hj]

/-- **The payloads are those of the edges, by stage and then by payload.** -/
theorem exists_listing : ∃ listed : List (Edge N P), listed.Perm edges ∧
    (treeOf edges root).payloads = listed.map (·.payload) ∧
    Sorted (compareLex (compareOn fun e => (treeOf edges root).stageOf e.source)
      (compareOn (·.payload))) listed := by
  have harcs : List.Forall₂ (fun a e => a = arcOf edges e) (arcsOf (nodesOf edges) edges) edges := by
    rw [arcsOf_eq]
    exact List.forall₂_map_left_iff.2 (List.forall₂_same.2 fun _ _ => rfl)
  obtain ⟨listed, hlisted, hperm⟩ :=
    List.perm_comp_forall₂ (arcsInOrder_perm h.rooted.levels_perm) harcs
  have hmap : arcsInOrder (arcsOf (nodesOf edges) edges) (treeOf edges root).stages =
      listed.map (arcOf edges) := by
    rw [← List.forall₂_eq_eq_eq]
    exact List.forall₂_map_right_iff.2 hlisted
  refine ⟨listed, hperm, ?_, ?_⟩
  · have hpayloads := flatMap_payloadsFrom (arcsOf (nodesOf edges) edges) (treeOf edges root).stages
    rw [hmap, List.map_map] at hpayloads
    exact hpayloads
  · have hpairwise := h.pairwise_arcsInOrder
    rw [hmap, List.pairwise_map] at hpairwise
    refine hpairwise.imp_of_mem fun {e d} he hd hed => ?_
    have hstage : ∀ {e : Edge N P}, e ∈ listed → Digraph.Walks (nextOf edges)
        ((treeOf edges root).stageOf e.source) (place edges root) (place edges e.source) :=
      fun he => (h.onStage_iff.1 (h.onStage_stageOf (occurs_source (hperm.mem_iff.1 he)))).2
    rw [compareLex, Ordering.isLE_then_iff_and]
    rcases hed _ _ (hstage he) (hstage hd) with hlt | ⟨heq, hle⟩
    · have hcompare := Nat.compare_eq_lt.2 hlt
      exact ⟨by rw [compareOn, hcompare]; rfl, .inl hcompare⟩
    · exact ⟨by rw [compareOn, heq, level_self compare]; rfl, .inr hle⟩

end Passed

end TreeGraph

end Metalanguage
