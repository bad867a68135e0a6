import Metalanguage.Digraph
import Metalanguage.TreeGraph.Defect

/-!
# TreeGraph — a directed tree built from labelled edges

An edge runs from a source to a target and carries a payload. `TreeGraph.ofEdges` numbers the
distinct nodes in increasing order, checks that the edges form one rooted tree, and lays the tree out
in stages: the root, then the targets of the edges that leave the stage before. Walking the stages
in order, and the edges that leave a stage by payload, gives the canonical order of the payloads,
which does not depend on the order the edges came in.
-/

namespace Metalanguage

/-- An edge from a source to a target. -/
structure Edge (N P : Type) where
  source : N
  target : N
  payload : P

/-- An edge between numbered nodes. -/
structure Arc (P : Type) where
  tail : Nat
  head : Nat
  payload : P

/-- **A rooted tree with payloads on its edges.** Arcs and stages name a node by its position in
`nodes`. -/
structure TreeGraph (N P : Type) where
  /-- The distinct nodes, in increasing order. -/
  nodes : List N
  /-- The edges, in the order they were given. -/
  arcs : List (Arc P)
  /-- The node without incoming edge. -/
  root : N
  /-- The nodes by their distance from the root. -/
  stages : List (List Nat)
  /-- The payloads in canonical order. -/
  payloads : List P

namespace Arc

variable {P : Type}

/-- The nodes at the far end of the edges into `head`, in the order of the edges. -/
def parents (arcs : List (Arc P)) (head : Nat) : List Nat :=
  (arcs.filter (·.head == head)).map (·.tail)

/-- The edges out of `tail`, by payload. -/
def leaving [Ord P] (arcs : List (Arc P)) (tail : Nat) : List (Arc P) :=
  Ordered.sort (compareOn (·.payload)) (arcs.filter (·.tail == tail))

/-- The nodes the edges out of `tail` lead to, by payload. -/
def successors [Ord P] (arcs : List (Arc P)) (tail : Nat) : List Nat :=
  (leaving arcs tail).map (·.head)

/-- The payloads on the edges out of a stage, in increasing order. -/
def payloadsFrom [Ord P] (arcs : List (Arc P)) (stage : List Nat) : List P :=
  (Ordered.sort (compareOn (·.payload)) (stage.flatMap (leaving arcs))).map (·.payload)

end Arc

namespace TreeGraph

variable {N P : Type} [Ord N]

/-! ## Numbering -/

/-- The distinct ends of the edges; of equal nodes the last one stays. -/
def nodesOf (edges : List (Edge N P)) : List N :=
  Ordered.keepLast compare (edges.flatMap fun e => [e.source, e.target])

/-- The edges between the positions of their ends. -/
def arcsOf (nodes : List N) (edges : List (Edge N P)) : List (Arc P) :=
  edges.filterMap fun e => do
    let tail ← Ordered.position? compare e.source nodes
    let head ← Ordered.position? compare e.target nodes
    return ⟨tail, head, e.payload⟩

/-- The nodes at the given positions. -/
def pick (nodes : List N) (positions : List Nat) : List N :=
  positions.filterMap (nodes[·]?)

/-! ## Building -/

/-- The nodes without incoming edge, with their positions. -/
def rootsOf (nodes : List N) (arcs : List (Arc P)) : List (N × Nat) :=
  nodes.zipIdx.filter fun (_, i) => (Arc.parents arcs i).isEmpty

/-- The first node with several incoming edges, with the far ends of these edges. -/
def crowdedNode? (nodes : List N) (arcs : List (Arc P)) : Option (N × List Nat) :=
  nodes.zipIdx.findSome? fun (node, i) =>
    match Arc.parents arcs i with
    | [] | [_] => none
    | parents => some (node, parents)

/-- The positions that no stage holds. -/
def missedBy (nodes : List N) (stages : List (List Nat)) : List Nat :=
  (List.range nodes.length).filter fun i => !stages.flatten.contains i

/-- **Builds the tree, or says why the edges are none.** A cycle is reported first, then the lack or
surplus of roots, a node with several parents, a node out of reach, and last a surplus of nodes. -/
def ofEdges [Ord P] (limit : Nat) (edges : List (Edge N P)) :
    Except (TreeRefusal N) (TreeGraph N P) :=
  let nodes := nodesOf edges
  let arcs := arcsOf nodes edges
  match Digraph.cycle? (Arc.successors arcs) nodes.length with
  | some path => .error (.defect (.cycle (pick nodes path)))
  | none =>
    match rootsOf nodes arcs with
    | [] => .error (.defect .noRoot)
    | [(root, position)] =>
      match crowdedNode? nodes arcs with
      | some (node, parents) =>
        .error (.defect (.multipleParents node (pick nodes (Ordered.sort compare parents))))
      | none =>
        let stages := Digraph.levels (Arc.successors arcs) nodes.length [position]
        match missedBy nodes stages with
        | [] =>
          if limit < nodes.length then .error (.tooManyNodes limit nodes.length)
          else .ok ⟨nodes, arcs, root, stages, stages.flatMap (Arc.payloadsFrom arcs)⟩
        | missed => .error (.defect (.disconnected (pick nodes missed)))
    | roots => .error (.defect (.multipleRoots (roots.map (·.1))))

end TreeGraph

end Metalanguage
