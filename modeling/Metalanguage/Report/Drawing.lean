import Metalanguage.Expression.Sentence

/-!
# Report/Drawing — sentences drawn as trees

The root stands first, and below it a line for every other node: the branches of a node follow it
directly, each three characters further in and with the mode of the clause that leads there.
-/

namespace Metalanguage

/-- A line of a drawing: a node, the mode that leads to it, how far in it stands, and whether it is the
last branch of its parent. -/
structure Branch (N : Type) where
  indent : String
  isLast : Bool
  node : N
  mode : N

namespace Branch

/-- The sign in front of a node. -/
def sign (isLast : Bool) : String := if isLast then "└─" else "├─"

/-- What the lines below a branch are indented with. -/
def continuation (isLast : Bool) : String := if isLast then "   " else "│  "

/-- The line of a branch. -/
def line {N : Type} [ClauseNode N] (b : Branch N) : String :=
  b.indent ++ sign b.isLast ++ " " ++ ClauseNode.display b.node ++ "  (mode " ++
    ClauseNode.display b.mode ++ ")\n"

end Branch

namespace Sentence

variable {N : Type} [ClauseNode N]

/-- The branches below `node`, each followed by those below it. A way down has no more branches than
the tree has nodes, which is what the fuel counts. -/
def branchesBelow (s : Sentence N) : Nat → String → N → List (Branch N)
  | 0, _, _ => []
  | fuel + 1, indent, node =>
    let children := s.graph.outgoing node
    children.zipIdx.flatMap fun ((child, clause), i) =>
      let isLast := i + 1 == children.length
      ⟨indent, isLast, child, clause.mode⟩ ::
        branchesBelow s fuel (indent ++ Branch.continuation isLast) child

/-- All branches of the tree, from the root down. -/
def branches (s : Sentence N) : List (Branch N) := s.branchesBelow s.nodes.length "" s.root

/-- **The drawing of a sentence**, with the size of its tree and its class below. -/
def drawing (s : Sentence N) : String :=
  ClauseNode.display s.root ++ "\n" ++ String.join (s.branches.map Branch.line) ++ "\n" ++
    toString s.nodes.length ++ " node(s), " ++ toString s.graph.depth ++ " stage(s), class " ++
    s.grammaticalClass.name ++ "\n"

end Sentence

end Metalanguage
