import Metalanguage.TreeGraph.Basic

/-!
# TreeGraph/Views — reading a tree graph

The nodes, their parents, the edges between them and the stages, all in terms of node values. A node
that is asked for is looked up by comparison, and an answer names the node that the graph holds.
-/

namespace Metalanguage.TreeGraph

variable {N P : Type} [Ord N]

/-- The number of nodes. -/
def size (g : TreeGraph N P) : Nat := g.nodes.length

/-- Whether there is no node. -/
def isEmpty (g : TreeGraph N P) : Bool := g.nodes.isEmpty

/-- The number of stages. -/
def depth (g : TreeGraph N P) : Nat := g.stages.length

/-- Whether `node` is one of the nodes. -/
def hasNode (g : TreeGraph N P) (node : N) : Bool := Ordered.has compare node g.nodes

/-- The nodes of each stage. -/
def stageNodes (g : TreeGraph N P) : List (List N) := g.stages.map (pick g.nodes)

/-- The position of the parent of the node at a position. -/
def parentAt? (g : TreeGraph N P) (position : Nat) : Option Nat :=
  (Arc.parents g.arcs position).head?

/-- The parent of `node`; the root has none. -/
def parent? (g : TreeGraph N P) (node : N) : Option N := do
  let position ← Ordered.position? compare node g.nodes
  let parent ← g.parentAt? position
  g.nodes[parent]?

/-- The targets of the edges out of `node`, with their payloads, by payload. -/
def outgoing [Ord P] (g : TreeGraph N P) (node : N) : List (N × P) :=
  match Ordered.position? compare node g.nodes with
  | none => []
  | some position =>
    (Arc.leaving g.arcs position).filterMap fun arc =>
      (g.nodes[arc.head]?).map fun target => (target, arc.payload)

/-- Whether an edge runs from `source` to `target`. -/
def isAdjacent (g : TreeGraph N P) (source target : N) : Bool :=
  match Ordered.position? compare source g.nodes, Ordered.position? compare target g.nodes with
  | some tail, some head => g.parentAt? head == some tail
  | _, _ => false

/-- Row `i`, column `j` says whether an edge runs from the node at `i` to the node at `j`. -/
def adjacencyMatrix (g : TreeGraph N P) : List (List Bool) :=
  (List.range g.nodes.length).map fun i =>
    let heads := (g.arcs.filter (·.tail == i)).map (·.head)
    (List.range g.nodes.length).map heads.contains

end Metalanguage.TreeGraph
