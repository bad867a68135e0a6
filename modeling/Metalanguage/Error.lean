import Metalanguage.Bracket
import Metalanguage.Grammar.Rule
import Metalanguage.Kind
import Metalanguage.Position
import Metalanguage.TreeGraph.Defect

/-!
# Error — what can go wrong

An error is its cause; `Error.message` is the one place that words it.
-/

namespace Metalanguage

/-- Why the parts given to a construct do not fit. -/
inductive Misfit
  /-- A morpheme without terms. -/
  | noTerms
  /-- A morpheme with a term twice, here in canonical form. -/
  | repeatedTerm (term : String)
  /-- A clause of other than three nodes. -/
  | childCount (count : Nat)
  /-- A part of the wrong kind. -/
  | childKind (wanted : Construct) (found : Kind)
  /-- A text with a part that is neither a proposition nor a text. -/
  | notForTexts (found : Kind)
  /-- A text without members. -/
  | noMembers
  /-- A path without steps. -/
  | noSteps
  /-- A step of a path that is no child of the step before it, both as displayed. -/
  | notAChild (step parent : String)
  /-- A path that starts on no member of the source of its link. -/
  | unreachable (path source : String)
  /-- A hypertext without links. -/
  | noLinks
  /-- A node of a graph document that is of another kind than its place asks for. -/
  | nodeKind (id : Nat) (found wanted : Kind)
  deriving DecidableEq, Repr

/-- What there can be too much of. -/
inductive Quantity
  | inputBytes
  | distinctNodes (construct : Construct)
  deriving DecidableEq, Repr

/-- How a tree of rules can differ from those that the grammar makes. -/
inductive Oddity
  /-- A rule in a place that is for others. -/
  | unexpected (rule : Rule)
  /-- A whole text without any rule in it. -/
  | noExpression
  | termWithoutScript
  | wordWithoutSubstance
  | memberWithoutProposition
  | linkWithoutTarget
  deriving DecidableEq, Repr

/-- Why a text is no expression. -/
inductive ParseReason
  /-- One of these rules was expected. -/
  | expected (rules : List Rule)
  /-- The dictionary has no term of this script. -/
  | unknownTerm (script : String)
  /-- The rules that were read do not fit together. -/
  | odd (oddity : Oddity)
  deriving DecidableEq, Repr

/-- A text that is no expression, and where it fails to be one. -/
structure ParseFailure where
  reason : ParseReason
  range : ByteRange
  place : LineColumn
  /-- What the text is called. -/
  source : String
  /-- The brackets to look at. -/
  suggestion : Option Bracket
  deriving DecidableEq, Repr

/-- Why a list of entries is no dictionary. -/
inductive DictionaryFault
  | malformedFile
  | invalidScript (script : String)
  | duplicateScript (script : String)
  | unknownRelated (kind script target : String)
  deriving DecidableEq, Repr

/-- Why a graph document is unusable. -/
inductive DocumentFault
  | malformed
  | duplicateNode (id : Nat)
  | unknownNode (id : Nat)
  deriving DecidableEq, Repr

/-- **The errors of the library.** -/
inductive Error
  | invalidArgument (construct : Construct) (misfit : Misfit)
  /-- The substance and the attribute of a clause are the same node. -/
  | structuralConflict (construct : Construct) (node : String)
  | invalidTree (construct : Construct) (defect : TreeDefect String)
  | sizeExceeded (quantity : Quantity) (limit actual : Nat)
  | termNotFound (script : String)
  | parse (failure : ParseFailure)
  | dictionary (fault : DictionaryFault)
  | document (fault : DocumentFault)
  deriving DecidableEq, Repr

/-! ## Wording -/

/-- The wording of a misfit among the parts of a construct. -/
def Misfit.message (construct : Construct) : Misfit → String
  | noTerms => "a morpheme must contain at least one term"
  | repeatedTerm term => "duplicate term " ++ term ++ " in morpheme"
  | childCount count =>
    "a clause must have three children (" ++ toString count ++ " provided)"
  | childKind wanted found =>
    "the children of a " ++ construct.name ++ " must be " ++ wanted.name ++ " instances, got a " ++
      found.name
  | notForTexts found =>
    "a text can only contain words, sentences and super-sentences, got a " ++ found.name
  | noMembers => "a text must contain at least one proposition"
  | noSteps => "a path must have at least one step"
  | notAChild step parent => step ++ " is not a child of " ++ parent
  | unreachable path source => "the path " ++ path ++ " is not reachable in " ++ source
  | noLinks => "a hypertext must contain at least one hyperlink"
  | nodeKind id found wanted =>
    "node " ++ toString id ++ " is a " ++ found.name ++ ", expected a " ++ wanted.name

/-- The wording of a quantity. -/
def Quantity.name : Quantity → String
  | inputBytes => "bytes of input"
  | distinctNodes construct => "distinct nodes in a " ++ construct.name

/-- The wording of an oddity among rules. -/
def Oddity.message : Oddity → String
  | unexpected rule => "unexpected " ++ rule.name
  | noExpression => "empty input"
  | termWithoutScript => "a term must contain a script"
  | wordWithoutSubstance => "a word must have a substance"
  | memberWithoutProposition => "a member must hold a proposition"
  | linkWithoutTarget => "a link must end on a text"

/-- The wording of a reason. -/
def ParseReason.message : ParseReason → String
  | expected rules => "expected " ++ Rule.choice (rules.map Rule.name)
  | unknownTerm script => "unknown term '" ++ script ++ "'"
  | odd oddity => oddity.message

/-- Where a text fails: its name, the line and the column. -/
def ParseFailure.location (f : ParseFailure) : String :=
  f.source ++ ":" ++ toString f.place.line ++ ":" ++ toString f.place.column

/-- The wording of a failure to parse. -/
def ParseFailure.message (f : ParseFailure) : String :=
  let hint := match f.suggestion with
    | some bracket => " (suggestion: " ++ bracket.suggestion ++ ")"
    | none => ""
  "Parse error: " ++ f.reason.message ++ hint ++ " at " ++ f.location

/-- The wording of a fault in a dictionary. -/
def DictionaryFault.message : DictionaryFault → String
  | malformedFile => "Malformed dictionary file"
  | invalidScript script => "Invalid script '" ++ script ++ "'"
  | duplicateScript script => "Duplicate script '" ++ script ++ "'"
  | unknownRelated kind script target =>
    "Relation '" ++ kind ++ "' of '" ++ script ++ "' points to unknown script '" ++ target ++ "'"

/-- The wording of a fault in a graph document. -/
def DocumentFault.message : DocumentFault → String
  | malformed => "malformed document"
  | duplicateNode id => "duplicate node id " ++ toString id
  | unknownNode id => "unknown node id " ++ toString id

/-- **The wording of an error.** -/
def Error.message : Error → String
  | invalidArgument construct misfit =>
    "Invalid " ++ construct.name ++ " argument: " ++ misfit.message construct
  | structuralConflict construct node =>
    "Invalid " ++ construct.name ++ ": the substance and the attribute (" ++ node ++
      ") must be distinct"
  | invalidTree construct defect =>
    "Invalid " ++ construct.name ++ " tree structure: " ++ defect.message
  | sizeExceeded quantity limit actual =>
    "Too many " ++ quantity.name ++ ": " ++ toString actual ++ " > " ++ toString limit
  | termNotFound script => "Term not found in dictionary: " ++ script
  | parse failure => failure.message
  | dictionary fault => "Dictionary error: " ++ fault.message
  | document fault => "Serialization error: " ++ fault.message

end Metalanguage
