import Metalanguage.Literal
import Metalanguage.Position

/-!
# Grammar/Form — what the grammar reads

A form is the shape of a text before any script is looked up: the grammar turns a text into a form, and
a dictionary turns a form into an expression. A term keeps its place, for the error that there is no
such term.
-/

namespace Metalanguage

/-- A term as written: its script, and where it stands, brackets included. -/
structure TermForm where
  range : ByteRange
  script : String
  deriving DecidableEq, Repr

/-- A morpheme as written. -/
structure MorphemeForm where
  terms : List TermForm
  deriving DecidableEq, Repr

/-- A word as written. -/
structure WordForm where
  substance : MorphemeForm
  mode : Option MorphemeForm
  literals : List Literal
  deriving DecidableEq, Repr

/-- A clause as written, over nodes of one type. -/
structure ClauseForm (F : Type) where
  substance : F
  attr : F
  mode : F
  deriving DecidableEq, Repr

/-- A sentence as written, over nodes of one type. -/
structure SentenceForm (F : Type) where
  clauses : List (ClauseForm F)
  literals : List Literal
  deriving DecidableEq, Repr

/-- A member of a text as written. -/
inductive PropositionForm
  | word (w : WordForm)
  | sentence (s : SentenceForm WordForm)
  | superSentence (s : SentenceForm (SentenceForm WordForm))
  deriving DecidableEq, Repr

/-- A part as written. -/
inductive PartForm
  | term (t : TermForm)
  | morpheme (m : MorphemeForm)
  | clause (c : ClauseForm WordForm)
  | superClause (c : ClauseForm (SentenceForm WordForm))
  | proposition (p : PropositionForm)
  deriving DecidableEq, Repr

/-- A text as written. -/
structure TextForm where
  members : List PropositionForm
  deriving DecidableEq, Repr

/-- A link as written behind a member: the steps below the member, and the target. -/
structure AnchorForm where
  steps : List PartForm
  target : TextForm
  deriving DecidableEq, Repr

/-- A member of a source text as written, with its links. -/
structure MemberForm where
  proposition : PropositionForm
  anchors : List AnchorForm
  deriving DecidableEq, Repr

/-- A source text as written. -/
structure BlockForm where
  members : List MemberForm
  deriving DecidableEq, Repr

/-- An expression as written. -/
inductive ExpressionForm
  | part (p : PartForm)
  | text (t : TextForm)
  | hypertext (blocks : List BlockForm)
  deriving DecidableEq, Repr

end Metalanguage
