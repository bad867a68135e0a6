import Metalanguage.Expression.Clause
import Metalanguage.TreeGraph.Views

/-!
# Expression/Sentence — trees of clauses

The clauses of a sentence are the edges of a tree, each from its substance to its attribute. The tree
fixes the order of the clauses. A super-sentence is a sentence whose nodes are sentences.
-/

namespace Metalanguage

/-- **A sentence** over nodes of one type. -/
structure Sentence (N : Type) where
  graph : TreeGraph N (Clause N)
  literals : List Literal

/-- A clause over sentences. -/
abbrev SuperClause := Clause (Sentence Word)

/-- A sentence over sentences. -/
abbrev SuperSentence := Sentence (Sentence Word)

namespace Sentence

variable {N : Type}

/-- The clauses in canonical order. -/
def clauses (s : Sentence N) : List (Clause N) := s.graph.payloads

/-- The number of clauses. -/
def size (s : Sentence N) : Nat := s.clauses.length

/-- The root of the tree. -/
def root (s : Sentence N) : N := s.graph.root

/-- The nodes of the tree, in order. -/
def nodes (s : Sentence N) : List N := s.graph.nodes

/-- The sentence with these literals instead of its own. -/
def withLiterals (s : Sentence N) (literals : List Literal) : Sentence N := { s with literals }

variable [ClauseNode N]

/-- The nodes by their distance from the root. -/
def stages (s : Sentence N) : List (List N) := s.graph.stageNodes

/-! ## Building -/

/-- The edge that a clause stands for. -/
def edgeOf (c : Clause N) : Edge N (Clause N) := ⟨c.substance, c.attr, c⟩

/-- Why some clauses make no sentence. -/
def refusal (e : TreeRefusal N) : Error :=
  match e with
  | .defect d => .invalidTree (ClauseNode.level N).sentence (d.map ClauseNode.canonical)
  | .tooManyNodes limit actual =>
    .sizeExceeded (.distinctNodes (ClauseNode.level N).sentence) limit actual

/-- **The sentence of some clauses**, given in any order, with at most `maxNodes` distinct nodes,
which are counted again once the tree is there. -/
def ofClauses (maxNodes : Nat) (clauses : List (Clause N)) : Except Error (Sentence N) :=
  match TreeGraph.ofEdges maxNodes (clauses.map edgeOf) with
  | .ok graph =>
    if maxNodes < graph.size then .error (refusal (N := N) (.tooManyNodes maxNodes graph.size))
    else .ok ⟨graph, []⟩
  | .error e => .error (refusal e)

/-! ## Forms and order -/

/-- The canonical form, without literals. -/
def canonical (s : Sentence N) : String :=
  "[" ++ "+".intercalate (s.clauses.map Clause.canonical) ++ "]"

/-- The written form, with literals. -/
def display (s : Sentence N) : String :=
  "[" ++ "+".intercalate (s.clauses.map Clause.display) ++ "]" ++ Literal.displayAll s.literals

/-- The class of the root. -/
def grammaticalClass (s : Sentence N) : GrammaticalClass := ClauseNode.grammaticalClass s.root

/-- The literals anywhere in a sentence, as a set. -/
def literalSet (s : Sentence N) : List Literal :=
  Literal.setOf (s.literals ++ s.clauses.flatMap fun c => c.nodes.flatMap ClauseNode.literalSet)

/-- Equality of canonical forms. -/
instance : BEq (Sentence N) := ⟨fun s t => s.canonical == t.canonical⟩

/-- Clause by clause, in canonical order. -/
instance : Ord (Sentence N) := ⟨compareOn (·.clauses)⟩

instance : ClauseNode (Sentence Word) where
  level := .sentences
  canonical := canonical
  display := display
  grammaticalClass := grammaticalClass
  literalSet := literalSet

end Sentence

end Metalanguage
