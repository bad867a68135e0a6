import Metalanguage.Proofs.Digraph.LevelsLoop
import Metalanguage.Proofs.Digraph.SearchAnswer
import Metalanguage.Proofs.TreeGraph.CanonicalOrder
import Metalanguage.Proofs.TreeGraph.Tabulated

/-!
# Proofs/TreeGraph/Building — what is built on tables is the tree of the edges

The tables hold what the checks ask of the edges, so the checks on tables refuse what `ofEdges`
refuses, and otherwise find the root of a rooted tree (`checkTables_cases`). Below that root the loop
of the stages ends, and the tree that is laid out is the one of the edges (`Passed.layOut_eq`).
Altogether `build` has the answer of `ofEdges` whenever it may make enough rounds (`build_eq`).
-/

namespace Metalanguage.TreeGraph

open Std Ordered
open Metalanguage.Digraph (Tables Search levelsRound)

variable {N P : Type} [Ord N]

/-! ## Naming nodes -/

omit [Ord N] in
/-- Positions within the nodes name a node each. -/
theorem named_eq_pick {nodes : List N} {positions : List ℕ}
    (h : ∀ i ∈ positions, i < nodes.length) : named nodes positions = .ok (pick nodes positions) :=
  Table.mapM_entry (forall₂_filterMap_of_isSome fun i hi => by simpa using h i hi)

variable [TransOrd N] {edges : List (Edge N P)}

theorem getElem?_place {node : N} (h : node ∈ nodesOf edges) :
    (nodesOf edges)[place edges node]? = some node := by
  obtain ⟨i, hi⟩ := List.mem_iff_getElem?.1 h
  rwa [place_getElem hi]

/-- The numbers of the nodes count them. -/
theorem map_place_nodesOf (edges : List (Edge N P)) :
    (nodesOf edges).map (place edges) = List.range (nodesOf edges).length := by
  refine List.ext_getElem (by simp) fun i hi _ => ?_
  rw [List.getElem_map, List.getElem_range]
  exact place_getElem (List.getElem?_eq_getElem (by simpa using hi))

theorem named_map_place {nodes : List N} (h : nodes ⊆ nodesOf edges) :
    named (nodesOf edges) (nodes.map (place edges)) = .ok nodes :=
  Table.mapM_entry (List.forall₂_map_left_iff.2 (List.forall₂_same.2 fun _ hnode =>
    getElem?_place (h hnode)))

/-! ## The tables of some edges -/

theorem numbered_eq (edges : List (Edge N P)) :
    numbered (nodesOf edges) edges = .ok (arcsOf (nodesOf edges) edges) := by
  rw [arcsOf_eq]
  refine Table.mapM_eq_map fun e he => ?_
  rw [numberOf, numberOf, (occurs_source he).exists_getElem.1, (occurs_target he).exists_getElem.1]
  rfl

theorem arcsOf_lt {a : Arc P} (ha : a ∈ arcsOf (nodesOf edges) edges) :
    a.tail < (nodesOf edges).length ∧ a.head < (nodesOf edges).length := by
  rw [arcsOf_eq] at ha
  obtain ⟨e, he, rfl⟩ := List.mem_map.1 ha
  exact ⟨(occurs_source he).place_lt, (occurs_target he).place_lt⟩

/-- A node with the numbers of its parents. -/
abbrev withParents (edges : List (Edge N P)) (node : N) : ℕ × List ℕ :=
  (place edges node, (incoming edges node).map fun e => place edges e.source)

variable [Ord P] {g : Tables} {entering : List (List ℕ)}

/-- The tables of some edges. -/
abbrev TabulatedEdges (edges : List (Edge N P)) : Tables → List (List ℕ) → Prop :=
  Tabulated (nodesOf edges).length (arcsOf (nodesOf edges) edges)

namespace Tabulated

section Edges

variable (h : TabulatedEdges edges g entering)

include h

theorem next_eq_nextOf : g.next = nextOf edges := h.next_eq fun _ ha => (arcsOf_lt ha).1

/-- Each number is looked up with its parents. -/
theorem mapM_entry_entering : ((List.range (nodesOf edges).length).mapM fun i => do
      return (i, ← Table.entry entering i)) =
    Except.ok ((nodesOf edges).map (withParents edges)) := by
  rw [← map_place_nodesOf]
  refine mapM_eq_ok_iff.2 (List.forall₂_map_left_iff.2 (List.forall₂_map_right_iff.2 ?_))
  refine List.forall₂_same.2 fun node hnode => ?_
  have hparents := h.incoming (place edges node) (occurs_of_mem hnode).place_lt
  rw [Table.entry_eq hparents, parents_arcsOf (getElem?_place hnode)]
  rfl

end Edges

end Tabulated

omit [TransOrd N] [Ord P] in
/-- The numbers without parents are those of the nodes without incoming edge. -/
theorem filter_withParents : ((nodesOf edges).map (withParents edges)).filter (·.2.isEmpty) =
    (unparented edges).map (withParents edges) := by
  rw [List.filter_map, unparented]
  refine congrArg (List.map _) (List.filter_congr fun node _ => ?_)
  simp

omit [TransOrd N] [Ord P] in
/-- The first number with several parents is that of the first crowded node. -/
theorem find?_withParents : ((nodesOf edges).map (withParents edges)).find? (1 < ·.2.length) =
    (crowded edges).head?.map (withParents edges) := by
  rw [List.find?_map, crowded, List.head?_filter]
  refine congrArg (Option.map _) (congrArg (List.find? · _) (funext fun node => ?_))
  simp [Nat.succ_le_iff]

/-! ## The checks -/

/-- The nodes of a walk that is found are named. -/
theorem named_walk {walk : List ℕ}
    (h : Digraph.cycle? (nextOf edges) (nodesOf edges).length = some walk) :
    named (nodesOf edges) walk = .ok (pick (nodesOf edges) walk) :=
  named_eq_pick fun _ hi => (Digraph.isCycle_of_cycle? within_nextOf h).lt within_nextOf hi

omit [Ord P] in
/-- The parents of a node are named. -/
theorem named_parents (node : N) :
    named (nodesOf edges) (sort compare ((incoming edges node).map fun e => place edges e.source)) =
      .ok (parentsOf edges node) := by
  rw [parentsOf, List.map_map]
  refine named_eq_pick fun i hi => ?_
  obtain ⟨e, he, rfl⟩ := List.mem_map.1 (mem_sort.1 hi)
  exact (occurs_source (mem_incoming.1 he).1).place_lt

omit [Ord P] in
/-- The nodes without incoming edge are named. -/
theorem named_unparented (edges : List (Edge N P)) :
    named (nodesOf edges) (((unparented edges).map (withParents edges)).map (·.1)) =
      .ok (unparented edges) := by
  rw [List.map_map]
  exact named_map_place (List.filter_subset_self _)

/-- **The checks on tables** refuse what `ofEdges` refuses, or find the root of a rooted tree. -/
theorem checkTables_cases (h : TabulatedEdges edges g entering) {rounds : ℕ} {last : Search}
    {found : Option (List ℕ)}
    (hloop : loop (Search.round g) rounds (.initial g) = .ok (last, found)) :
    (∃ refusal, checkTables rounds (nodesOf edges) g entering = .ok (.error refusal) ∧
      ∀ limit, ofEdges limit edges = .error refusal) ∨
    ∃ root, checkTables rounds (nodesOf edges) g entering = .ok (.ok (place edges root)) ∧
      Passed edges root ∧ ∀ limit, ofEdges limit edges =
        if limit < (nodesOf edges).length then .error (.tooManyNodes limit (nodesOf edges).length)
        else .ok (treeOf edges root) := by
  have hfound := Search.eq_cycle?_of_loop h.fit hloop
  rw [h.next_eq_nextOf, h.length_eq] at hfound
  subst hfound
  cases hcycle : Digraph.cycle? (nextOf edges) (nodesOf edges).length with
  | some walk =>
    refine .inl ⟨_, ?_, fun limit => ofEdges_of_cycle? limit hcycle⟩
    simp only [checkTables, hloop, hcycle, ok_bind, named_walk hcycle]
    rfl
  | none =>
    -- the further checks ask in the order of `ofEdges_eq`, which decides the cases
    have hcyclic : ¬ Cyclic edges :=
      not_cyclic_iff.2 ((Digraph.cycle?_eq_none_iff within_nextOf).1 hcycle)
    have hanswer := fun limit => ofEdges_eq limit hcyclic
    have hnamed := named_unparented edges
    simp only [checkTables, hloop, hcycle, ok_bind, h.mapM_entry_entering, filter_withParents,
      find?_withParents]
    rcases hroots : unparented edges with _ | ⟨root, _ | ⟨second, rest⟩⟩
    · exact .inl ⟨_, rfl, fun limit => by rw [hanswer, hroots]⟩
    · cases hcrowded : crowded edges with
      | nil =>
        refine .inr ⟨root, rfl, .of_unparented hcyclic hroots hcrowded, fun limit => ?_⟩
        simp only [hanswer, hroots, hcrowded, List.head?_nil]
      | cons node nodes =>
        have hnode : node ∈ nodesOf edges :=
          (List.mem_filter.1 (hcrowded ▸ List.mem_cons_self : node ∈ crowded edges)).1
        refine .inl ⟨.defect (.multipleParents node (parentsOf edges node)), ?_, fun limit => ?_⟩
        · simp only [List.map_cons, List.map_nil, List.head?_cons, Option.map_some,
            Table.entry_eq (getElem?_place hnode), named_parents, ok_bind]
          rfl
        · simp only [hanswer, hroots, hcrowded, List.head?_cons]
    · refine .inl ⟨.defect (.multipleRoots (root :: second :: rest)), ?_, fun limit => ?_⟩
      · rw [hroots] at hnamed
        simp only [List.map_cons] at hnamed ⊢
        rw [hnamed]
        rfl
      · simp only [hanswer, hroots]

/-! ## The tree -/

namespace Tabulated

section Stages

variable {n : ℕ} {arcs : List (Arc P)} (h : Tabulated n arcs g entering)

omit [TransOrd N]

include h

omit [Ord N] in
/-- **The numbers of the arcs out of a stage**, by payload. -/
theorem exists_order {stage : List ℕ} (hstage : ∀ v ∈ stage, v < n) :
    ∃ order, (stage.mapM (Table.entry g.leaving) >>= fun numbers =>
      byPayload arcs numbers.flatten) = .ok order ∧
      Numbers arcs order (sort (compareOn (·.payload)) (stage.flatMap (Arc.leaving arcs))) := by
  obtain ⟨numbers, hnumbers, hall⟩ := exists_mapM (f := Table.entry g.leaving)
    (Q := fun v numbers => Numbers arcs numbers (Arc.leaving arcs v))
    (List.forall₂_same.2 fun (v : ℕ) (_ : v ∈ stage) => rfl) fun {v _} hv heq => by
      subst heq
      obtain ⟨numbers, hget, -, hleaving⟩ := h.leaving v (hstage v hv)
      exact ⟨numbers, Table.entry_eq hget, hleaving⟩
  have hflatten : Numbers arcs numbers.flatten (stage.flatMap (Arc.leaving arcs)) := by
    rw [List.flatMap_def]
    exact List.rel_flatten (List.forall₂_map_right_iff.2 hall.flip)
  obtain ⟨order, horder, -, hsorted⟩ := exists_byPayload hflatten
  exact ⟨order, by rw [hnumbers, ok_bind, horder], hsorted⟩

/-- **The payloads by stage** are looked up by the numbers of their arcs. -/
theorem exists_orders {stages : List (List ℕ)} (hstages : ∀ v ∈ stages.flatten, v < n) :
    ∃ orders, (stages.mapM fun stage => stage.mapM (Table.entry g.leaving) >>= fun numbers =>
      byPayload arcs numbers.flatten) = .ok orders ∧
      (orders.flatten.mapM fun i => do return (← Table.entry arcs i).payload) =
        Except.ok (stages.flatMap (Arc.payloadsFrom arcs)) := by
  obtain ⟨orders, horders, hall⟩ := exists_mapM
    (Q := fun stage order => Numbers arcs order
      (sort (compareOn (·.payload)) (stage.flatMap (Arc.leaving arcs))))
    (List.forall₂_same.2 fun (stage : List ℕ) (_ : stage ∈ stages) => rfl)
    fun {stage _} hstage heq => by
      subst heq
      exact h.exists_order fun v hv => hstages v (List.mem_flatten.2 ⟨_, hstage, hv⟩)
  have hflatten : Numbers arcs orders.flatten (arcsInOrder arcs stages) := by
    rw [arcsInOrder, List.flatMap_def]
    exact List.rel_flatten (List.forall₂_map_right_iff.2 hall.flip)
  refine ⟨orders, horders, ?_⟩
  rw [flatMap_payloadsFrom]
  refine mapM_eq_ok_iff.2 (List.forall₂_map_right_iff.2 (hflatten.imp fun i a hia => ?_))
  rw [Table.entry_eq hia]
  rfl

end Stages

end Tabulated

/-- **Below the root that the checks find the tree of the edges is laid out**, unless it has too
many nodes. -/
theorem Passed.layOut_eq {root : N} (hpassed : Passed edges root)
    (h : TabulatedEdges edges g entering) {rounds : ℕ} (hrounds : (nodesOf edges).length ≤ rounds)
    (limit : ℕ) :
    layOut rounds limit (nodesOf edges) (arcsOf (nodesOf edges) edges) g (place edges root) =
      .ok (if limit < (nodesOf edges).length then .error (.tooManyNodes limit (nodesOf edges).length)
        else .ok (treeOf edges root)) := by
  have hroot : place edges root < g.leaving.length := h.length_eq ▸ hpassed.rooted.root_lt
  have hacyclic : Digraph.AcyclicFrom g.next (place edges root) :=
    h.next_eq_nextOf ▸ hpassed.rooted.acyclic.acyclicFrom _
  have hloop := Digraph.loop_levelsRound_of_acyclicFrom h.fit hroot hacyclic
    (h.length_eq ▸ hrounds)
  rw [h.next_eq_nextOf, h.length_eq] at hloop
  have hperm := hpassed.rooted.levels_perm
  obtain ⟨orders, horders, hpayloads⟩ :=
    h.exists_orders fun v hv => List.mem_range.1 (hperm.mem_iff.1 hv)
  -- the stages hold every node, so none is missed
  have hall : ¬ (Digraph.levels (nextOf edges) (nodesOf edges).length
      [place edges root]).flatten.length < (nodesOf edges).length := by
    simp [hperm.length_eq]
  simp only [layOut, hloop, ok_bind, hall, if_false]
  split
  case isTrue _ => rfl
  case isFalse _ =>
    rw [horders, ok_bind, hpayloads, ok_bind, Table.entry_eq hpassed.root_getElem?, ok_bind]
    rfl

/-! ## Building -/

/-- Rounds enough for both loops: more than there is to look at, push, pop and follow. -/
def roundsFor (edges : List (Edge N P)) : ℕ := 3 * (nodesOf edges).length + edges.length + 1

/-- The tables of some edges are made. -/
theorem exists_tabulatedEdges (edges : List (Edge N P)) : ∃ g entering,
    tabulate (nodesOf edges).length (arcsOf (nodesOf edges) edges) = .ok (g, entering) ∧
      TabulatedEdges edges g entering :=
  exists_tabulated fun _ ha => arcsOf_lt ha

theorem Tabulated.length_heads (h : TabulatedEdges edges g entering) :
    g.heads.length = edges.length := by
  rw [h.heads_eq, List.length_map, arcsOf_eq, List.length_map]

/-- **The search in the tables of some edges ends**, with the answer of the recursive search. -/
theorem Tabulated.exists_search (h : TabulatedEdges edges g entering) {rounds : ℕ}
    (hrounds : roundsFor edges ≤ rounds) : ∃ last, loop (Search.round g) rounds (.initial g) =
      .ok (last, Digraph.cycle? (nextOf edges) (nodesOf edges).length) ∧ last.Sound g := by
  have hbound : 3 * g.leaving.length + g.heads.length < rounds := by
    rw [h.length_eq, h.length_heads]
    exact hrounds
  rw [← h.next_eq_nextOf, ← h.length_eq]
  exact Search.exists_loop_eq_cycle? h.fit hbound

/-- **Built on tables, the tree is that of the edges**, and so is the refusal. -/
theorem build_eq (limit : ℕ) (edges : List (Edge N P)) {rounds : ℕ}
    (hrounds : roundsFor edges ≤ rounds) : build rounds limit edges = .ok (ofEdges limit edges) := by
  obtain ⟨g, entering, htabulate, h⟩ := exists_tabulatedEdges edges
  obtain ⟨last, hloop, -⟩ := h.exists_search hrounds
  simp only [build, numbered_eq, htabulate, ok_bind]
  rcases checkTables_cases h hloop with
    ⟨refusal, hchecks, hanswer⟩ | ⟨root, hchecks, hpassed, hanswer⟩
  · rw [hchecks, hanswer]
    rfl
  · rw [hchecks, hanswer, ok_bind]
    exact hpassed.layOut_eq h (by rw [roundsFor] at hrounds; omega) limit

end Metalanguage.TreeGraph
