import Metalanguage.Proofs.Ordered.Mapping
import Metalanguage.TreeGraph.Basic

/-!
# Proofs/TreeGraph/Mapping — trees of renamed nodes and payloads, and other limits

Where the nodes and the payloads are renamed without a change to their orders, the edges make the
same tree with the names replaced, or are refused for the same defect of the renamed nodes
(`TreeGraph.ofEdges_map`). A limit only matters once every other check is passed: with a wider one
edges are answered the same, unless it was the limit that refused them
(`TreeGraph.ofEdges_of_limit_le`).
-/

namespace Metalanguage

open Ordered

variable {N M P Q : Type}

/-- The edge with its ends and its payload renamed. -/
def Edge.map (f : N → M) (g : P → Q) (e : Edge N P) : Edge M Q :=
  ⟨f e.source, f e.target, g e.payload⟩

/-- The arc with its payload renamed. -/
def Arc.map (g : P → Q) (a : Arc P) : Arc Q := ⟨a.tail, a.head, g a.payload⟩

/-- The tree with its nodes and its payloads renamed. -/
def TreeGraph.map (f : N → M) (g : P → Q) (t : TreeGraph N P) : TreeGraph M Q :=
  ⟨t.nodes.map f, t.arcs.map (Arc.map g), f t.root, t.stages, t.payloads.map g⟩

/-! ## Arcs -/

namespace Arc

/-- Payloads have no part in who is whose parent ... -/
theorem parents_map (g : P → Q) (arcs : List (Arc P)) (head : Nat) :
    parents (arcs.map (Arc.map g)) head = parents arcs head := by
  rw [parents, List.filter_map, List.map_map]
  rfl

variable [Ord P] [Ord Q] {g : P → Q} (hg : ∀ a b, compare (g a) (g b) = compare a b)

include hg

/-- ... and are looked at in the order of the edges that leave a node, where only their order
counts. -/
theorem leaving_map (arcs : List (Arc P)) :
    leaving (arcs.map (Arc.map g)) = fun tail => (leaving arcs tail).map (Arc.map g) := by
  funext tail
  rw [leaving, List.filter_map, sort_map fun a b => hg a.payload b.payload]
  rfl

theorem successors_map (arcs : List (Arc P)) :
    successors (arcs.map (Arc.map g)) = successors arcs := by
  funext tail
  rw [successors, leaving_map hg, List.map_map]
  rfl

theorem payloadsFrom_map (arcs : List (Arc P)) :
    payloadsFrom (arcs.map (Arc.map g)) = fun stage => (payloadsFrom arcs stage).map g := by
  funext stage
  rw [payloadsFrom, leaving_map hg, ← List.map_flatMap, sort_map fun a b => hg a.payload b.payload,
    List.map_map, payloadsFrom, List.map_map]
  rfl

end Arc

namespace TreeGraph

/-! ## Nodes -/

theorem pick_map (f : N → M) (nodes : List N) (positions : List Nat) :
    pick (nodes.map f) positions = (pick nodes positions).map f := by
  simp only [pick, List.map_filterMap, List.getElem?_map]

/-- The root is the one node without parent: names play no part in it. -/
theorem rootsOf_map (f : N → M) (g : P → Q) (nodes : List N) (arcs : List (Arc P)) :
    rootsOf (nodes.map f) (arcs.map (Arc.map g)) = (rootsOf nodes arcs).map (Prod.map f id) := by
  rw [rootsOf, List.zipIdx_map, List.filter_map, rootsOf]
  simp only [Function.comp_def, Arc.parents_map, Prod.map, id]

/-- The first node with several parents is first by its number, and it is named by its own name. -/
theorem crowdedNode?_map (f : N → M) (g : P → Q) (nodes : List N) (arcs : List (Arc P)) :
    crowdedNode? (nodes.map f) (arcs.map (Arc.map g)) =
      (crowdedNode? nodes arcs).map (Prod.map f id) := by
  rw [crowdedNode?, crowdedNode?, List.zipIdx_map, List.findSome?_map, List.map_findSome?]
  congr 1
  funext ⟨node, i⟩
  simp only [Function.comp_def, Prod.map, Arc.parents_map, id]
  rcases Arc.parents arcs i with _ | ⟨_, _ | _⟩ <;> rfl

section Orders

variable [Ord N] [Ord M] {f : N → M} (hf : ∀ a b, compare (f a) (f b) = compare a b)

include hf

/-- **Nodes keep their numbers**, because they are sorted and equal ones dropped by their order ...
-/
theorem nodesOf_map (g : P → Q) (edges : List (Edge N P)) :
    nodesOf (edges.map (Edge.map f g)) = (nodesOf edges).map f := by
  rw [nodesOf, List.flatMap_map, nodesOf, ← keepLast_map hf, List.map_flatMap]
  rfl

/-- ... so edges lead between the same numbers. -/
theorem arcsOf_map (g : P → Q) (nodes : List N) (edges : List (Edge N P)) :
    arcsOf (nodes.map f) (edges.map (Edge.map f g)) = (arcsOf nodes edges).map (Arc.map g) := by
  rw [arcsOf, List.filterMap_map, arcsOf, List.map_filterMap]
  congr 1
  funext e
  simp only [Function.comp_def, Edge.map, position?_map hf]
  cases position? compare e.source nodes with
  | none => rfl
  | some tail => cases position? compare e.target nodes <;> rfl

variable [Ord P] [Ord Q] {g : P → Q} (hg : ∀ a b, compare (g a) (g b) = compare a b)

include hg

/-- **Renamed edges make the renamed tree**, or have the same defect of renamed nodes. -/
theorem ofEdges_map (limit : Nat) (edges : List (Edge N P)) :
    ofEdges limit (edges.map (Edge.map f g)) =
      ((ofEdges limit edges).map (map f g)).mapError (TreeRefusal.map f) := by
  simp only [ofEdges, nodesOf_map hf, arcsOf_map hf, Arc.successors_map hg, List.length_map,
    rootsOf_map, crowdedNode?_map, pick_map]
  generalize nodesOf edges = nodes
  generalize arcsOf nodes edges = arcs
  cases Digraph.cycle? (Arc.successors arcs) nodes.length with
  | some path => rfl
  | none =>
    rcases rootsOf nodes arcs with _ | ⟨⟨root, position⟩, _ | ⟨second, rest⟩⟩
    · rfl
    · cases crowdedNode? nodes arcs with
      | some crowded => rfl
      | none =>
        simp only [List.map_cons, List.map_nil, Prod.map, id, Option.map_none]
        generalize Digraph.levels (Arc.successors arcs) nodes.length [position] = stages
        have hmissed : missedBy (nodes.map f) stages = missedBy nodes stages := by
          rw [missedBy, List.length_map, missedBy]
        rw [hmissed]
        cases missedBy nodes stages with
        | cons first missed => rfl
        | nil =>
          simp only
          split
          · rfl
          · refine congrArg Except.ok ?_
            simp only [map, List.map_flatMap, Arc.payloadsFrom_map hg]
    · refine congrArg Except.error ?_
      simp only [List.map_cons, TreeRefusal.map, TreeDefect.map, List.map_map, Function.comp_def,
        Prod.map]

end Orders

/-! ## Limits -/

/-- **A wider limit changes no other answer** than that there are too many nodes. -/
theorem ofEdges_of_limit_le [Ord N] [Ord P] {limit limit' : Nat} (h : limit ≤ limit')
    (edges : List (Edge N P)) :
    ofEdges limit' edges = ofEdges limit edges ∨
      ∃ actual, ofEdges limit edges = .error (.tooManyNodes limit actual) := by
  simp only [ofEdges]
  split
  · exact .inl rfl
  · split
    · exact .inl rfl
    · split
      · exact .inl rfl
      · split
        · by_cases hlimit : limit < (nodesOf edges).length
          · exact .inr ⟨_, if_pos hlimit⟩
          · rw [if_neg hlimit, if_neg (by omega)]
            exact .inl rfl
        · exact .inl rfl
    · exact .inl rfl

end TreeGraph

end Metalanguage
