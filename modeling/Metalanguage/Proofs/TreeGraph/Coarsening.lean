import Metalanguage.Proofs.TreeGraph.CanonicalOrder
import Metalanguage.Proofs.TreeGraph.Mapping

/-!
# Proofs/TreeGraph/Coarsening — what of the payloads the tree depends on

Forget a part of every payload, so that what is left is compared first among the payloads and still
decides the ends of the edges. Then the edges make the same tree as before with that part of the
payloads forgotten, or are refused for the same defect (`TreeGraph.ofEdges_of_refines`). The search
for a cycle meets the successors of a node in the same order, since level payloads lead to one node;
and once the checks are passed no two payloads are level even after forgetting, which leaves the
canonical order no choice.
-/

namespace Metalanguage

open Std Ordered

/-! ## Arcs -/

namespace Arc

variable {P Q : Type} [Ord P] [Ord Q] {g : P → Q}

theorem map_leaving_perm (g : P → Q) (arcs : List (Arc P)) (tail : ℕ) :
    ((leaving arcs tail).map (Arc.map g)).Perm (leaving (arcs.map (Arc.map g)) tail) := by
  have hfilter : (arcs.map (Arc.map g)).filter (·.tail == tail) =
      (arcs.filter (·.tail == tail)).map (Arc.map g) := List.filter_map
  rw [leaving, leaving, hfilter]
  exact ((sort_perm _ _).map _).trans (sort_perm _ _).symm

variable (hg : Refines compare compare g) {arcs : List (Arc P)}

include hg

theorem refines_payload : Refines (compareOn fun a : Arc P => a.payload)
    (compareOn fun a : Arc Q => a.payload) (Arc.map g) :=
  fun a b => hg a.payload b.payload

variable [TransOrd P] [TransOrd Q]

/-- Where level payloads lead to one node, the successors stand in the same order. -/
theorem successors_of_refines (harcs : ∀ a ∈ arcs.map (Arc.map g), ∀ b ∈ arcs.map (Arc.map g),
    compare a.payload b.payload = .eq → a.head = b.head) :
    successors (arcs.map (Arc.map g)) = successors arcs := by
  funext tail
  have hsub : (arcs.filter (·.tail == tail)).map (Arc.map g) ⊆ arcs.map (Arc.map g) :=
    List.map_subset _ List.filter_sublist.subset
  have hsort := (refines_payload hg).map_sort fun a ha b hb => harcs a (hsub ha) b (hsub hb)
  rw [List.map_map] at hsort
  rw [successors, successors, leaving, List.filter_map]
  exact hsort.symm

/-- Where level payloads are the same payload, those out of a stage stand in the same order. -/
theorem payloadsFrom_of_refines (harcs : ∀ a ∈ arcs.map (Arc.map g), ∀ b ∈ arcs.map (Arc.map g),
    compare a.payload b.payload = .eq → a.payload = b.payload) :
    payloadsFrom (arcs.map (Arc.map g)) = fun stage => (payloadsFrom arcs stage).map g := by
  funext stage
  have hperm : ((stage.flatMap (leaving arcs)).map (Arc.map g)).Perm
      (stage.flatMap (leaving (arcs.map (Arc.map g)))) := by
    rw [List.map_flatMap]
    exact List.Perm.flatMap_left stage fun tail _ => map_leaving_perm g arcs tail
  have hsub : (stage.flatMap (leaving arcs)).map (Arc.map g) ⊆ arcs.map (Arc.map g) := by
    refine List.map_subset _ fun a ha => ?_
    obtain ⟨tail, -, ha⟩ := List.mem_flatMap.1 ha
    exact (List.mem_filter.1 (mem_sort.1 ha)).1
  have hlevel : ∀ a ∈ (stage.flatMap (leaving arcs)).map (Arc.map g),
      ∀ b ∈ (stage.flatMap (leaving arcs)).map (Arc.map g),
        compareOn (·.payload) a b = .eq → a.payload = b.payload :=
    fun a ha b hb => harcs a (hsub ha) b (hsub hb)
  have hfine := (refines_payload hg).map_sort hlevel
  rw [List.map_map] at hfine
  rw [payloadsFrom, ← map_sort_eq_of_perm hperm hlevel, ← hfine, payloadsFrom, List.map_map]
  rfl

end Arc

/-! ## Trees -/

namespace TreeGraph

variable {N P Q : Type} [Ord N]

/-- Parents are told by the arcs alone. -/
theorem parent?_map_payloads (g : P → Q) (t : TreeGraph N P) :
    (t.map id g).parent? = t.parent? := by
  funext node
  simp only [parent?, parentAt?, map, List.map_id, Arc.parents_map]

variable [Ord P] [Ord Q] [TransOrd N] [TransOrd P] [TransOrd Q]

/-- **Forgetting a part of the payloads** that is compared last forgets it in the tree, and leaves a
refusal as it is. -/
theorem ofEdges_of_refines {g : P → Q} (hg : Refines compare compare g) {edges : List (Edge N P)}
    (hd : PayloadDecides (edges.map (Edge.map id g))) (limit : ℕ) :
    ofEdges limit (edges.map (Edge.map id g)) = (ofEdges limit edges).map (map id g) := by
  -- Nodes and arcs are those of the edges, and a node is entered by the same arcs, so only the order
  -- among the arcs that leave a node is left to compare.
  have hnodes : nodesOf (edges.map (Edge.map id g)) = nodesOf edges := by
    simpa using nodesOf_map (f := (id : N → N)) (fun _ _ => rfl) g edges
  have harcs : arcsOf (nodesOf edges) (edges.map (Edge.map id g)) =
      (arcsOf (nodesOf edges) edges).map (Arc.map g) := by
    simpa using arcsOf_map (f := (id : N → N)) (fun _ _ => rfl) g (nodesOf edges) edges
  have hedge : ∀ a ∈ (arcsOf (nodesOf edges) edges).map (Arc.map g),
      ∃ e ∈ edges.map (Edge.map id g), arcOf (edges.map (Edge.map id g)) e = a := by
    rw [← harcs, ← hnodes, arcsOf_eq]
    exact fun a ha => List.mem_map.1 ha
  have hsuccessors : Arc.successors ((arcsOf (nodesOf edges) edges).map (Arc.map g)) =
      Arc.successors (arcsOf (nodesOf edges) edges) := by
    refine Arc.successors_of_refines hg fun a ha b hb hab => ?_
    obtain ⟨e, he, rfl⟩ := hedge a ha
    obtain ⟨d, hd', rfl⟩ := hedge b hb
    exact place_congr (hd e he d hd' hab).2
  have hcrowded : crowdedNode? (nodesOf edges) ((arcsOf (nodesOf edges) edges).map (Arc.map g)) =
      crowdedNode? (nodesOf edges) (arcsOf (nodesOf edges) edges) := by
    simp only [crowdedNode?, Arc.parents_map]
  -- Two arcs of a node may carry one payload only where a node is crowded, which is refused before
  -- the payloads are listed.
  have hpayloads : crowdedNode? (nodesOf edges) (arcsOf (nodesOf edges) edges) = none →
      Arc.payloadsFrom ((arcsOf (nodesOf edges) edges).map (Arc.map g)) =
        fun stage => (Arc.payloadsFrom (arcsOf (nodesOf edges) edges) stage).map g := by
    intro hnone
    have hempty : crowded (edges.map (Edge.map id g)) = [] := by
      rw [← hcrowded, ← harcs, ← hnodes, crowdedNode?_eq] at hnone
      simpa using hnone
    refine Arc.payloadsFrom_of_refines hg fun a ha b hb hab => ?_
    obtain ⟨e, he, rfl⟩ := hedge a ha
    obtain ⟨d, hd', rfl⟩ := hedge b hb
    exact payload_eq_of_level hempty hd (List.mem_map_of_mem he) (List.mem_map_of_mem hd') hab
  have hroots : rootsOf (nodesOf edges) ((arcsOf (nodesOf edges) edges).map (Arc.map g)) =
      rootsOf (nodesOf edges) (arcsOf (nodesOf edges) edges) := by
    simp only [rootsOf, Arc.parents_map]
  simp only [ofEdges, hnodes, harcs, hsuccessors, hroots, hcrowded]
  generalize nodesOf edges = nodes at hpayloads ⊢
  generalize arcsOf nodes edges = arcs at hpayloads ⊢
  cases Digraph.cycle? (Arc.successors arcs) nodes.length with
  | some path => rfl
  | none =>
    rcases rootsOf nodes arcs with _ | ⟨⟨root, position⟩, _ | ⟨second, rest⟩⟩
    · rfl
    · cases hnone : crowdedNode? nodes arcs with
      | some crowded => rfl
      | none =>
        simp only
        cases missedBy nodes (Digraph.levels (Arc.successors arcs) nodes.length [position]) with
        | cons first missed => rfl
        | nil =>
          simp only
          split
          · rfl
          · simp only [Except.map, map, List.map_id, List.map_flatMap, hpayloads hnone, id]
    · rfl

end TreeGraph

end Metalanguage
