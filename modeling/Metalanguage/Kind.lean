/-!
# Kind — the kinds of expressions

The nine kinds of expressions in the order of their levels, and the names of the constructs that an
error can be about.
-/

namespace Metalanguage

/-- The kinds of expressions, from the lowest level to the highest. -/
inductive Kind
  | term
  | morpheme
  | word
  | clause
  | sentence
  | superClause
  | superSentence
  | text
  | hypertext
  deriving DecidableEq, Repr, Ord

/-- The name of a kind. -/
def Kind.name : Kind → String
  | term => "term"
  | morpheme => "morpheme"
  | word => "word"
  | clause => "clause"
  | sentence => "sentence"
  | superClause => "super-clause"
  | superSentence => "super-sentence"
  | text => "text"
  | hypertext => "hypertext"

/-- The rank of a kind; a morpheme shares the rank of the terms it groups. -/
def Kind.rank : Kind → Nat
  | term => 1
  | morpheme => 1
  | word => 2
  | clause => 3
  | sentence => 4
  | superClause => 5
  | superSentence => 6
  | text => 7
  | hypertext => 8

/-- What can fail to be built. -/
inductive Construct
  | morpheme
  | word
  | clause
  | sentence
  | superClause
  | superSentence
  | text
  | path
  | hyperlink
  | hypertext
  deriving DecidableEq, Repr

/-- The name of a construct. -/
def Construct.name : Construct → String
  | morpheme => "Morpheme"
  | word => "Word"
  | clause => "Clause"
  | sentence => "Sentence"
  | superClause => "SuperClause"
  | superSentence => "SuperSentence"
  | text => "Text"
  | path => "PropositionPath"
  | hyperlink => "Hyperlink"
  | hypertext => "Hypertext"

end Metalanguage
