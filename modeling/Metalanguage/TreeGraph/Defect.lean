/-!
# TreeGraph/Defect — why a list of edges is not a tree

The nodes a defect names are of any type; `map` renames them, and `message` words a defect whose
nodes are already text.
-/

namespace Metalanguage

/-- What keeps a list of edges from being a tree. -/
inductive TreeDefect (N : Type)
  /-- The nodes of a closed walk, which starts and ends on the same one. -/
  | cycle (path : List N)
  /-- No node is without incoming edges; so it is when there are no edges at all. -/
  | noRoot
  /-- Several nodes have no incoming edge. -/
  | multipleRoots (roots : List N)
  /-- A node has several incoming edges, from these nodes. -/
  | multipleParents (node : N) (parents : List N)
  /-- No path leads from the root to these nodes. -/
  | disconnected (nodes : List N)
  deriving DecidableEq, Repr

namespace TreeDefect

variable {N M : Type}

/-- Renames the nodes. -/
def map (f : N → M) : TreeDefect N → TreeDefect M
  | cycle path => cycle (path.map f)
  | noRoot => noRoot
  | multipleRoots roots => multipleRoots (roots.map f)
  | multipleParents node parents => multipleParents (f node) (parents.map f)
  | disconnected nodes => disconnected (nodes.map f)

/-- The wording of a defect. -/
def message : TreeDefect String → String
  | cycle path => "cycle detected: " ++ " -> ".intercalate path
  | noRoot => "no root node"
  | multipleRoots roots => "multiple root nodes: " ++ ", ".intercalate roots
  | multipleParents node parents =>
    "node " ++ node ++ " has more than one parent: " ++ ", ".intercalate parents
  | disconnected nodes => "nodes not reachable from the root: " ++ ", ".intercalate nodes

end TreeDefect

/-- Why no tree graph is built: the edges are no tree, or they join too many nodes. -/
inductive TreeRefusal (N : Type)
  | defect (defect : TreeDefect N)
  | tooManyNodes (limit actual : Nat)
  deriving DecidableEq, Repr

namespace TreeRefusal

variable {N M : Type}

/-- Renames the nodes. -/
def map (f : N → M) : TreeRefusal N → TreeRefusal M
  | defect d => defect (d.map f)
  | tooManyNodes limit actual => tooManyNodes limit actual

/-- The wording of a refusal. -/
def message : TreeRefusal String → String
  | defect d => d.message
  | tooManyNodes limit actual =>
    "too many distinct nodes: " ++ toString actual ++ " > " ++ toString limit

end TreeRefusal

end Metalanguage
