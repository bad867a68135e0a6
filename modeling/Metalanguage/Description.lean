import Metalanguage.Expression.Basic
import Metalanguage.Json.Basic

/-!
# Description — expressions described in JSON

A description gives the kind and the rank, the written and the canonical form, the class if there is
one, the children in canonical form, the literals if there are any, and the tree of a sentence.
-/

namespace Metalanguage

/-- The tree of a sentence: its root, its stages and its clauses as edges. -/
def Sentence.describeGraph {N : Type} [ClauseNode N] (s : Sentence N) : Json :=
  .record
    [("root", .ofString (ClauseNode.canonical s.root)),
      ("stages", .array (s.stages.map fun stage => .ofStrings (stage.map ClauseNode.canonical))),
      ("edges", .array (s.clauses.map fun c =>
        .record
          [("substance", .ofString (ClauseNode.canonical c.substance)),
            ("attribute", .ofString (ClauseNode.canonical c.attr)),
            ("mode", .ofString (ClauseNode.canonical c.mode))]))]

namespace Expression

/-- The literals of an expression itself, not those of its parts. -/
def literals : Expression → List Literal
  | part (.word w) => w.literals
  | part (.sentence s) => s.literals
  | part (.superSentence s) => s.literals
  | _ => []

/-- The member that describes the class, if there is one. -/
def describeClass (x : Expression) : List (String × Json) :=
  match x.grammaticalClass? with
  | some c => [("class", .ofString c.name)]
  | none => []

/-- The member that describes the literals, if there are any. -/
def describeLiterals (x : Expression) : List (String × Json) :=
  match x.literals with
  | [] => []
  | literals => [("literals", .ofStrings (literals.map Literal.raw))]

/-- The member that describes the tree of a sentence. -/
def describeTree : Expression → List (String × Json)
  | part (.sentence s) => [("graph", s.describeGraph)]
  | part (.superSentence s) => [("graph", s.describeGraph)]
  | _ => []

/-- **The description of an expression.** -/
def describe (x : Expression) : Json :=
  .record <|
    [("type", .ofString x.kind.name), ("rank", .ofNat x.rank), ("ieml", .ofString x.display),
      ("canonical", .ofString x.canonical)] ++
    x.describeClass ++
    [("children", .ofStrings (x.children.map canonical))] ++
    x.describeLiterals ++ x.describeTree

end Expression

/-- The description of a hypertext by its links. -/
def Hypertext.describe (h : Hypertext) : Json :=
  .record
    [("type", .ofString Kind.hypertext.name), ("rank", .ofNat Kind.hypertext.rank),
      ("ieml", .ofString h.canonical),
      ("links", .array (h.links.map fun l =>
        .record
          [("source", .ofString l.source.canonical), ("target", .ofString l.target.canonical),
            ("path", .ofStrings (l.anchor.steps.map Part.canonical))]))]

end Metalanguage
