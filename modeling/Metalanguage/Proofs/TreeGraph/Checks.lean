import Metalanguage.Proofs.TreeGraph.Numbering

/-!
# Proofs/TreeGraph/Checks — what each check of `ofEdges` finds

The nodes that the checks single out are those that the edges say (`map_fst_rootsOf`,
`crowdedNode?_eq`, `pick_parents`). Edges that pass the first three checks make a rooted tree on the
numbers (`rooted_nextOf`), so the fourth one finds every node on some stage. Altogether the answer
is a function of four facts about the edges (`ofEdges_eq`).
-/

namespace Metalanguage

open Std Ordered

namespace TreeGraph

variable {N P : Type} [Ord N] {edges : List (Edge N P)}

/-! ## Picking nodes -/

omit [Ord N] in
theorem pick_subset {nodes : List N} {positions : List ℕ} : pick nodes positions ⊆ nodes := by
  intro a ha
  obtain ⟨i, -, hi⟩ := List.mem_filterMap.1 ha
  exact List.mem_of_getElem? hi

theorem sorted_pick {nodes : List N} (hnodes : Increasing compare nodes) {positions : List ℕ}
    (h : Sorted compare positions) (hnorm : ∀ a : N, compare a a = .eq) :
    Sorted compare (pick nodes positions) := by
  refine List.pairwise_filterMap.2 (h.imp fun {i j} hij a ha b hb => ?_)
  obtain ⟨hi, rfl⟩ := List.getElem?_eq_some_iff.1 ha
  obtain ⟨hj, rfl⟩ := List.getElem?_eq_some_iff.1 hb
  rcases lt_or_eq_of_le (Nat.isLE_compare.1 hij) with hlt | rfl
  · rw [List.pairwise_iff_getElem.1 hnodes i j hi hj hlt]; rfl
  · rw [hnorm]; rfl

variable [TransOrd N]

/-- The nodes at the numbers of some entries are alike to the entries. -/
theorem pick_map_place {l : List N} : (∀ a ∈ l, Occurs edges a) →
    Alike compare (pick (nodesOf edges) (l.map (place edges))) l := by
  induction l with
  | nil => exact fun _ => .nil
  | cons a l ih =>
    intro h
    obtain ⟨-, b, hb, hab⟩ := (h a (by simp)).exists_getElem
    rw [pick, List.map_cons, List.filterMap_cons_some hb]
    exact .cons (OrientedCmp.eq_symm hab) (ih fun c hc => h c (List.mem_cons_of_mem _ hc))

/-- **The parents that a refusal names are the sources of the edges**, sorted, as nodes. -/
theorem pick_parents {l : List N} (h : ∀ a ∈ l, Occurs edges a) :
    Alike compare (pick (nodesOf edges) (sort compare (l.map (place edges)))) (sort compare l) := by
  refine alike_of_sorted (sorted_pick (increasing_nodesOf edges) (sorted_sort _)
    (level_self compare)) (sorted_sort l) fun x => ?_
  have hperm : (pick (nodesOf edges) (sort compare (l.map (place edges)))).Perm
      (pick (nodesOf edges) (l.map (place edges))) := (sort_perm _ _).filterMap _
  rw [hperm.countP_eq, (pick_map_place h).countP_eq, (sort_perm compare l).countP_eq]

/-! ## Roots and crowded nodes -/

/-- **The roots are the nodes without incoming edge**, in order. -/
theorem map_fst_rootsOf (edges : List (Edge N P)) :
    (rootsOf (nodesOf edges) (arcsOf (nodesOf edges) edges)).map (·.1) = unparented edges := by
  have hfilter : rootsOf (nodesOf edges) (arcsOf (nodesOf edges) edges) =
      (nodesOf edges).zipIdx.filter fun p => (incoming edges p.1).isEmpty := by
    refine List.filter_congr fun ⟨node, i⟩ hnode => ?_
    have hi : (nodesOf edges)[i]? = some node := List.mem_zipIdx_iff_getElem?.1 hnode
    have hparents := parents_arcsOf hi
    simp only [hparents, List.isEmpty_map]
  have hmap := List.filter_map (f := Prod.fst) (p := fun node => (incoming edges node).isEmpty)
    (l := (nodesOf edges).zipIdx)
  rw [List.zipIdx_map_fst] at hmap
  rw [hfilter, unparented, hmap]
  rfl

/-- What is found among numbered entries is found among the entries, if the numbers play no part. -/
theorem findSome?_zipIdx {α β : Type} {f : α × ℕ → Option β} {p : α → Bool} {g : α → β} :
    ∀ {l : List α} {k : ℕ}, (∀ x ∈ l.zipIdx k, f x = if p x.1 then some (g x.1) else none) →
      (l.zipIdx k).findSome? f = ((l.filter p).head?).map g
  | [], _, _ => rfl
  | a :: l, k, h => by
    have ha : f (a, k) = if p a then some (g a) else none := h (a, k) (by simp)
    have hl := findSome?_zipIdx (l := l) (k := k + 1) fun x hx => h x (by simp [hx])
    rw [List.zipIdx_cons, List.findSome?_cons, ha]
    cases hp : p a <;> simp [hp, hl]

/-- **The crowded node is the first one with several incoming edges**, with the numbers of their
sources. -/
theorem crowdedNode?_eq (edges : List (Edge N P)) :
    crowdedNode? (nodesOf edges) (arcsOf (nodesOf edges) edges) = (crowded edges).head?.map
      fun node => (node, ((incoming edges node).map (·.source)).map (place edges)) := by
  refine findSome?_zipIdx fun ⟨node, i⟩ hnode => ?_
  have hi : (nodesOf edges)[i]? = some node := List.mem_zipIdx_iff_getElem?.1 hnode
  have hparents := parents_arcsOf hi
  rcases hin : incoming edges node with _ | ⟨e, _ | ⟨e', es⟩⟩
  · simp [hparents, hin]
  · simp [hparents, hin]
  · simp [hparents, hin, Function.comp_def]

theorem incoming_congr {a b : N} (h : compare a b = .eq) : incoming edges a = incoming edges b :=
  List.filter_congr fun _ _ => by rw [TransCmp.congr_right h]

/-- No node, whether among the ends or not, has two incoming edges. -/
theorem incoming_length_le (h : crowded edges = []) (b : N) : (incoming edges b).length ≤ 1 := by
  cases hb : incoming edges b with
  | nil => simp
  | cons e es =>
    have he : e ∈ incoming edges b := by simp [hb]
    obtain ⟨hmem, heb⟩ := mem_incoming.1 he
    obtain ⟨c, hc, hec⟩ := occurs_target hmem
    have hbc : compare b c = .eq := TransCmp.eq_trans (OrientedCmp.eq_symm heb) hec
    have := List.filter_eq_nil_iff.1 h c hc
    rw [← hb, incoming_congr hbc]
    simp only [decide_eq_true_eq] at this
    omega

/-- Two edges into one node are the same edge. -/
theorem eq_of_mem_incoming (h : crowded edges = []) {b : N} {e d : Edge N P}
    (he : e ∈ incoming edges b) (hd : d ∈ incoming edges b) : e = d := by
  have hlen : (incoming edges b).length = 1 :=
    Nat.le_antisymm (incoming_length_le h b) (List.length_pos_of_mem he)
  obtain ⟨c, hc⟩ := List.length_eq_one_iff.1 hlen
  rw [hc, List.mem_singleton] at he hd
  rw [he, hd]

/-! ## The tree on the numbers -/

section Tree

variable [Ord P]

/-- Without a cycle some node has no incoming edge, unless there is no edge at all. -/
theorem unparented_eq_nil_iff (hac : Digraph.Acyclic (nextOf edges)) :
    unparented edges = [] ↔ edges = [] := by
  refine ⟨fun h => ?_, fun h => by subst h; rfl⟩
  cases edges with
  | nil => rfl
  | cons e es =>
    have hsource : Occurs (e :: es) e.source := occurs_source List.mem_cons_self
    have hlt := hsource.place_lt
    obtain ⟨s, k, hs, hk⟩ := Digraph.exists_source within_nextOf hac hlt
    have hslt : s < (nodesOf (e :: es)).length := by
      cases k with
      | zero => obtain rfl := hk; exact hlt
      | succ k =>
        obtain ⟨b, hsb, -⟩ := hk
        exact (within_nextOf s b hsb).1
    have hnode := List.getElem?_eq_getElem hslt
    have hmem : (nodesOf (e :: es))[s] ∈ unparented (e :: es) :=
      mem_unparented.2 ⟨List.getElem_mem hslt, (incoming_eq_nil_iff hnode).2 hs⟩
    rw [h] at hmem
    simp at hmem

/-- **Edges without a cycle, with one root and no crowded node, make a rooted tree.** -/
theorem rooted_nextOf (hac : Digraph.Acyclic (nextOf edges)) {root : N} {i : ℕ}
    (hroot : unparented edges = [root]) (hi : (nodesOf edges)[i]? = some root)
    (hcrowded : crowded edges = []) : Digraph.Rooted (nextOf edges) (nodesOf edges).length i where
  within := within_nextOf
  acyclic := hac
  root_lt := (List.getElem?_eq_some_iff.1 hi).1
  no_arc := (incoming_eq_nil_iff hi).1 (exists_getElem_root hroot).1
  exists_arc v hv hne := by
    by_contra hnone
    have hnode := List.getElem?_eq_getElem hv
    have hmem : (nodesOf edges)[v] ∈ unparented edges :=
      mem_unparented.2 ⟨List.getElem_mem hv, (incoming_eq_nil_iff hnode).2 (not_exists.1 hnone)⟩
    rw [hroot, List.mem_singleton] at hmem
    rw [hmem] at hnode
    exact hne (by rw [← place_getElem hnode, place_getElem hi])
  arc_unique := by
    intro u w v hu hw
    obtain ⟨e, he, rfl, rfl⟩ := hasArc_iff.1 hu
    obtain ⟨d, hd, rfl, hde⟩ := hasArc_iff.1 hw
    have hed : compare d.target e.target = .eq :=
      ((occurs_target hd).place_eq_iff (occurs_target he)).1 hde
    rw [eq_of_mem_incoming hcrowded (mem_incoming.2 ⟨he, level_self compare _⟩)
      (mem_incoming.2 ⟨hd, hed⟩)]

/-- The tree below a root that is found. -/
def treeOf (edges : List (Edge N P)) (root : N) : TreeGraph N P :=
  let stages := Digraph.levels (nextOf edges) (nodesOf edges).length [place edges root]
  ⟨nodesOf edges, arcsOf (nodesOf edges) edges, root, stages,
    stages.flatMap (Arc.payloadsFrom (arcsOf (nodesOf edges) edges))⟩

/-- The nodes that a refusal names as the parents of `node`. -/
def parentsOf (edges : List (Edge N P)) (node : N) : List N :=
  pick (nodesOf edges) (sort compare (((incoming edges node).map (·.source)).map (place edges)))

omit [TransOrd N] in
/-- No node is missed by the stages of a rooted tree. -/
theorem missedBy_levels {i : ℕ} (h : Digraph.Rooted (nextOf edges) (nodesOf edges).length i) :
    missedBy (nodesOf edges)
      (Digraph.levels (nextOf edges) (nodesOf edges).length [i]) = [] := by
  refine List.filter_eq_nil_iff.2 fun v hv => ?_
  simpa using h.mem_levels.2 (List.mem_range.1 hv)

omit [TransOrd N] in
theorem ofEdges_of_cycle? (limit : ℕ) {walk : List ℕ}
    (h : Digraph.cycle? (nextOf edges) (nodesOf edges).length = some walk) :
    ofEdges limit edges = .error (.defect (.cycle (pick (nodesOf edges) walk))) := by
  simp only [ofEdges, h]

/-- A circle of edges is found as one. -/
theorem cycle?_of_cyclic (h : Cyclic edges) :
    ∃ walk, Digraph.cycle? (nextOf edges) (nodesOf edges).length = some walk := by
  cases hc : Digraph.cycle? (nextOf edges) (nodesOf edges).length with
  | some walk => exact ⟨walk, rfl⟩
  | none => exact absurd h (not_cyclic_iff.2 ((Digraph.cycle?_eq_none_iff within_nextOf).1 hc))

/-- **Without a circle the answer hangs on the nodes without incoming edge, then on the crowded
ones, then on the number of nodes.** -/
theorem ofEdges_eq (limit : ℕ) (h : ¬ Cyclic edges) :
    ofEdges limit edges =
      match unparented edges with
      | [] => .error (.defect .noRoot)
      | [root] =>
        match (crowded edges).head? with
        | some node => .error (.defect (.multipleParents node (parentsOf edges node)))
        | none =>
          if limit < (nodesOf edges).length then
            .error (.tooManyNodes limit (nodesOf edges).length)
          else .ok (treeOf edges root)
      | roots => .error (.defect (.multipleRoots roots)) := by
  have hac := not_cyclic_iff.1 h
  have hnone := (Digraph.cycle?_eq_none_iff within_nextOf).2 hac
  simp only [ofEdges, hnone]
  rw [← map_fst_rootsOf edges, crowdedNode?_eq]
  rcases hroots : rootsOf (nodesOf edges) (arcsOf (nodesOf edges) edges) with
    _ | ⟨⟨root, i⟩, _ | ⟨second, rest⟩⟩
  · rfl
  · have hi : (nodesOf edges)[i]? = some root := by
      have hmem : (root, i) ∈ rootsOf (nodesOf edges) (arcsOf (nodesOf edges) edges) := by
        simp [hroots]
      exact List.mem_zipIdx_iff_getElem?.1 (List.mem_filter.1 hmem).1
    have hroot : unparented edges = [root] := by rw [← map_fst_rootsOf, hroots]; rfl
    rcases hcrowded : crowded edges with _ | ⟨node, nodes⟩
    · have hmissed := missedBy_levels (rooted_nextOf hac hroot hi hcrowded)
      simp only [List.head?_nil, Option.map_none, hmissed, List.map_cons, List.map_nil, treeOf,
        place_getElem hi]
    · rfl
  · rfl

end Tree

end TreeGraph

end Metalanguage
