import Metalanguage.Expression.Word

/-!
# Expression/Clause — clauses, and what they join

A clause joins a substance to an attribute by way of a mode. Its three nodes are of one type: words
in the clauses of a sentence, sentences in the clauses of a super-sentence. `ClauseNode` is what both
types have in common, so that one type of clause and one of sentence serve both levels.
-/

namespace Metalanguage

/-- What the nodes of a clause are. -/
inductive Level
  | words
  | sentences
  deriving DecidableEq, Repr

namespace Level

/-- What the nodes of the level are. -/
def node : Level → Construct
  | words => .word
  | sentences => .sentence

/-- What the clauses over the level are. -/
def clause : Level → Construct
  | words => .clause
  | sentences => .superClause

/-- What the sentences over the level are. -/
def sentence : Level → Construct
  | words => .sentence
  | sentences => .superSentence

end Level

/-- A type of nodes for clauses. -/
class ClauseNode (N : Type) extends Ord N where
  level : Level
  canonical : N → String
  display : N → String
  grammaticalClass : N → GrammaticalClass
  /-- The literals anywhere in a node, as a set. -/
  literalSet : N → List Literal

/-- Literals as a set, in their order. -/
def Literal.setOf (ls : List Literal) : List Literal := Ordered.keepLast compare ls

instance : ClauseNode Word where
  level := .words
  canonical := Word.canonical
  display := Word.display
  grammaticalClass := Word.grammaticalClass
  literalSet := fun w => Literal.setOf w.literals

/-- **A clause** over nodes of one type. -/
structure Clause (N : Type) where
  substance : N
  attr : N
  mode : N
  deriving Repr

namespace Clause

variable {N : Type}

/-- The nodes of a clause: substance, attribute, mode. -/
def nodes (c : Clause N) : List N := [c.substance, c.attr, c.mode]

variable [ClauseNode N]

/-- The canonical form. -/
def canonical (c : Clause N) : String :=
  "(" ++ "*".intercalate (c.nodes.map ClauseNode.canonical) ++ ")"

/-- The written form, with the literals of the nodes. -/
def display (c : Clause N) : String :=
  "(" ++ "*".intercalate (c.nodes.map ClauseNode.display) ++ ")"

/-- The class of the attribute. -/
def grammaticalClass (c : Clause N) : GrammaticalClass := ClauseNode.grammaticalClass c.attr

/-- Equality of canonical forms. -/
instance : BEq (Clause N) := ⟨fun c d => c.canonical == d.canonical⟩

/-- By substance, then by attribute, then by mode. -/
instance : Ord (Clause N) :=
  ⟨fun c d => ((compare c.substance d.substance).then (compare c.attr d.attr)).then
    (compare c.mode d.mode)⟩

/-- The clause of three nodes; its substance and its attribute must differ. -/
def of (substance attr mode : N) : Except Error (Clause N) :=
  if ClauseNode.canonical substance == ClauseNode.canonical attr then
    .error (.structuralConflict (ClauseNode.level N).clause (ClauseNode.canonical substance))
  else .ok ⟨substance, attr, mode⟩

/-- The clause of a list of nodes, which must be three. -/
def ofNodes : List N → Except Error (Clause N)
  | [substance, attr, mode] => of substance attr mode
  | nodes =>
    .error (.invalidArgument (ClauseNode.level N).clause (.childCount nodes.length))

end Clause

end Metalanguage
