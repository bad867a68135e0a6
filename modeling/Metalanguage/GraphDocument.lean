import Metalanguage.Json.Decode
import Metalanguage.Json.Parser
import Metalanguage.Reader.Basic

/-!
# GraphDocument — words and sentences given as graphs

A graph document is a JSON text that lists nodes, each with a number and an expression, and says by
their numbers how they make a word or a sentence: the terms of a substance and of a mode, or the words
that each clause joins.
-/

namespace Metalanguage

/-- A numbered expression. -/
structure NumberedNode where
  id : Nat
  written : String
  deriving DecidableEq, Repr

/-- The terms of a word by the numbers of their nodes. -/
structure WordRoles where
  substance : List Nat
  mode : List Nat
  deriving DecidableEq, Repr

/-- The words of a clause by the numbers of their nodes. -/
structure ClauseRoles where
  substance : Nat
  attr : Nat
  mode : Nat
  deriving DecidableEq, Repr

namespace GraphDocument

/-! ## Reading documents -/

/-- A node: the record of its number and its expression. -/
def nodeOf? (value : Json) : Option NumberedNode := do
  match ← value.fields? ["id", "ieml_string"] with
  | [some id, some written] => return ⟨← id.word64?, ← written.string?⟩
  | _ => none

/-- The roles in a word: the record of the substance and the mode, which may be missing. -/
def wordRolesOf? (value : Json) : Option WordRoles := do
  match ← value.fields? ["substance", "mode"] with
  | [some substance, none] => return ⟨← Json.listOf? Json.word64? substance, []⟩
  | [some substance, some mode] =>
    return ⟨← Json.listOf? Json.word64? substance, ← Json.listOf? Json.word64? mode⟩
  | _ => none

/-- The roles in a clause: the record of substance, attribute and mode. -/
def clauseRolesOf? (value : Json) : Option ClauseRoles := do
  match ← value.fields? ["substance", "attribute", "mode"] with
  | [some substance, some attr, some mode] =>
    return ⟨← substance.word64?, ← attr.word64?, ← mode.word64?⟩
  | _ => none

/-- A document: the record of its nodes and its graph, which `graphOf?` reads. -/
def contentOf? {α : Type} (graphOf? : Json → Option α) (text : String) :
    Option (List NumberedNode × α) := do
  match ← (← Json.parse? text).fields? ["nodes", "graph"] with
  | [some nodes, some graph] => return (← Json.listOf? nodeOf? nodes, ← graphOf? graph)
  | _ => none

/-- A document that lists the roles in a word. -/
def wordContentOf? : String → Option (List NumberedNode × WordRoles) := contentOf? wordRolesOf?

/-- A document that lists the roles in each clause of a sentence. -/
def sentenceContentOf? : String → Option (List NumberedNode × List ClauseRoles) :=
  contentOf? (Json.listOf? clauseRolesOf?)

/-! ## Building from numbered nodes -/

/-- Numbered expressions. -/
abbrev Table := List (Nat × Expression)

/-- Reads one more node into the table, under a number that is not taken. -/
def readNode (r : Reader) (table : Table) (node : NumberedNode) : Except Error Table := do
  let x ← r.parse ("node " ++ toString node.id) node.written
  if table.any (·.1 == node.id) then .error (.document (.duplicateNode node.id))
  else return table ++ [(node.id, x)]

/-- Reads the nodes in order. -/
def readNodes (r : Reader) (nodes : List NumberedNode) : Except Error Table :=
  nodes.foldlM (readNode r) []

/-- The expression of a number. -/
def lookup (table : Table) (id : Nat) : Except Error Expression :=
  match List.lookup id table with
  | some x => .ok x
  | none => .error (.document (.unknownNode id))

/-- The term of a number. -/
def termAt (table : Table) (id : Nat) : Except Error Term := do
  match ← lookup table id with
  | .part (.term t) => return t
  | x => .error (.invalidArgument .word (.nodeKind id x.kind .term))

/-- The word of a number. -/
def wordAt (table : Table) (id : Nat) : Except Error Word := do
  match ← lookup table id with
  | .part (.word w) => return w
  | x => .error (.invalidArgument .clause (.nodeKind id x.kind .word))

/-- The morpheme of the terms of some numbers. -/
def morphemeAt (table : Table) (ids : List Nat) : Except Error Morpheme := do
  Morpheme.ofTerms (← ids.mapM (termAt table))

/-- The clause of some roles. -/
def clauseAt (table : Table) (roles : ClauseRoles) : Except Error (Clause Word) := do
  Clause.of (← wordAt table roles.substance) (← wordAt table roles.attr)
    (← wordAt table roles.mode)

/-- The word of some roles; without terms for a mode it has none. -/
def wordOf (r : Reader) (nodes : List NumberedNode) (roles : WordRoles) : Except Error Word := do
  let table ← readNodes r nodes
  let substance ← morphemeAt table roles.substance
  match roles.mode with
  | [] => return ⟨substance, none, []⟩
  | mode => return ⟨substance, some (← morphemeAt table mode), []⟩

/-- The sentence of the clauses of some roles. -/
def sentenceOf (r : Reader) (nodes : List NumberedNode) (graph : List ClauseRoles) :
    Except Error (Sentence Word) := do
  let table ← readNodes r nodes
  Sentence.ofClauses r.limits.maxNodes (← graph.mapM (clauseAt table))

end GraphDocument

namespace Reader

/-- **The word that a graph document describes.** -/
def wordFromGraph (r : Reader) (text : String) : Except Error Word :=
  match GraphDocument.wordContentOf? text with
  | some (nodes, roles) => GraphDocument.wordOf r nodes roles
  | none => .error (.document .malformed)

/-- **The sentence that a graph document describes.** -/
def sentenceFromGraph (r : Reader) (text : String) : Except Error (Sentence Word) :=
  match GraphDocument.sentenceContentOf? text with
  | some (nodes, graph) => GraphDocument.sentenceOf r nodes graph
  | none => .error (.document .malformed)

end Reader

end Metalanguage
