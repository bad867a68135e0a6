import Metalanguage.Digraph.Tables
import Metalanguage.TreeGraph.Basic

/-!
# TreeGraph/Tables — building the tree by loops over tables

`TreeGraph.build` goes through the checks of `TreeGraph.ofEdges` on tables of arcs. It names every
place that it looks up in a table, and its two loops, the search for a cycle and the stages, may make
a number of rounds.
-/

namespace Metalanguage.TreeGraph

open Metalanguage.Digraph (Tables Search levelsRound)

variable {N P : Type} [Ord N]

/-! ## Tables -/

/-- The number of a node. -/
def numberOf (nodes : List N) (node : N) : Except Halt Nat :=
  match Ordered.position? compare node nodes with
  | some i => .ok i
  | none => .error .outOfRange

/-- The edges between the numbers of their ends. -/
def numbered (nodes : List N) (edges : List (Edge N P)) : Except Halt (List (Arc P)) :=
  edges.mapM fun e => do return ⟨← numberOf nodes e.source, ← numberOf nodes e.target, e.payload⟩

/-- The numbers of some arcs, by payload. -/
def byPayload [Ord P] (arcs : List (Arc P)) (numbers : List Nat) : Except Halt (List Nat) := do
  let keyed ← numbers.mapM fun i => do return (i, (← Table.entry arcs i).payload)
  return (Ordered.sort (compareOn (·.2)) keyed).map (·.1)

/-- The graph that arcs make on `n` nodes, and for each node the far ends of the arcs into it. -/
def tabulate [Ord P] (n : Nat) (arcs : List (Arc P)) : Except Halt (Tables × List (List Nat)) := do
  let leaving ← Table.group n (arcs.zipIdx.map fun z => (z.1.tail, z.2))
  let incoming ← Table.group n (arcs.map fun arc => (arc.head, arc.tail))
  return (⟨← leaving.mapM (byPayload arcs), arcs.map (·.head)⟩, incoming)

/-- The nodes at some places. -/
def named (nodes : List N) (positions : List Nat) : Except Halt (List N) :=
  positions.mapM (Table.entry nodes)

/-! ## Building -/

/-- The checks that come before the stages: a refusal, or the number of the root. -/
def checkTables (rounds : Nat) (nodes : List N) (g : Tables) (incoming : List (List Nat)) :
    Except Halt (Except (TreeRefusal N) Nat) := do
  let (_, found) ← loop (Search.round g) rounds (.initial g)
  match found with
  | some walk => return .error (.defect (.cycle (← named nodes walk)))
  | none =>
    let parents ← (List.range nodes.length).mapM fun i => do return (i, ← Table.entry incoming i)
    match parents.filter (·.2.isEmpty) with
    | [] => return .error (.defect .noRoot)
    | [(root, _)] =>
      match parents.find? (1 < ·.2.length) with
      | some (i, sources) =>
        return .error (.defect (.multipleParents (← Table.entry nodes i)
          (← named nodes (Ordered.sort compare sources))))
      | none => return .ok root
    | roots => return .error (.defect (.multipleRoots (← named nodes (roots.map (·.1)))))

/-- The places that no stage holds. -/
def missedPlaces (n : Nat) (stages : List (List Nat)) : Except Halt (List Nat) := do
  let reached ← stages.flatten.foldlM (fun reached i => Table.put reached i true)
    (List.replicate n false)
  let marks ← (List.range n).mapM fun i => do return (i, ← Table.entry reached i)
  return (marks.filter (!·.2)).map (·.1)

/-- The stages below a root, the checks that come behind them, and the payloads by stage. -/
def layOut [Ord P] (rounds limit : Nat) (nodes : List N) (arcs : List (Arc P)) (g : Tables)
    (root : Nat) : Except Halt (Except (TreeRefusal N) (TreeGraph N P)) := do
  let (stages, _) ← loop (levelsRound g) rounds [[root]]
  if stages.flatten.length < nodes.length then
    let missed ← missedPlaces nodes.length stages
    return .error (.defect (.disconnected (← named nodes missed)))
  else if limit < nodes.length then return .error (.tooManyNodes limit nodes.length)
  else
    let order ← stages.mapM fun stage => do
      byPayload arcs (← stage.mapM (Table.entry g.leaving)).flatten
    let payloads ← order.flatten.mapM fun i => do return (← Table.entry arcs i).payload
    return .ok ⟨nodes, arcs, ← Table.entry nodes root, stages, payloads⟩

/-- **Builds the tree on tables**, or says why the edges are none. -/
def build [Ord P] (rounds limit : Nat) (edges : List (Edge N P)) :
    Except Halt (Except (TreeRefusal N) (TreeGraph N P)) := do
  let nodes := nodesOf edges
  let arcs ← numbered nodes edges
  let (g, incoming) ← tabulate nodes.length arcs
  match ← checkTables rounds nodes g incoming with
  | .error refusal => return .error refusal
  | .ok root => layOut rounds limit nodes arcs g root

end Metalanguage.TreeGraph
