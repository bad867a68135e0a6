/-!
# Grammar/Rule — the names of the rules of the grammar

An error in a text names the rules that were expected where the text goes wrong, in the order of this
list.
-/

namespace Metalanguage

/-- The named rules; `endOfInput` is the demand that the text is over. -/
inductive Rule
  | endOfInput
  | script
  | literal
  | term
  | morpheme
  | word
  | clause
  | sentence
  | superClause
  | superSentence
  | text
  | anchor
  | plainMember
  | anchoredMember
  | hypertextBlock
  | hypertext
  | expression
  deriving DecidableEq, Repr

namespace Rule

/-- All rules, in the order they are listed in. -/
def all : List Rule :=
  [endOfInput, script, literal, term, morpheme, word, clause, sentence, superClause, superSentence,
    text, anchor, plainMember, anchoredMember, hypertextBlock, hypertext, expression]

/-- The name of a rule. -/
def name : Rule → String
  | endOfInput => "EOI"
  | script => "script"
  | literal => "literal"
  | term => "term"
  | morpheme => "morpheme"
  | word => "word"
  | clause => "clause"
  | sentence => "sentence"
  | superClause => "super_clause"
  | superSentence => "super_sentence"
  | text => "text"
  | anchor => "anchor"
  | plainMember => "plain_member"
  | anchoredMember => "anchored_member"
  | hypertextBlock => "hypertext_block"
  | hypertext => "hypertext"
  | expression => "ieml"

theorem mem_all (r : Rule) : r ∈ all := by cases r <;> decide

/-- The given rules, each once and in order. -/
def listed (rules : List Rule) : List Rule := all.filter (· ∈ rules)

/-- Names joined as a choice: commas between them, and "or" before the last. -/
def choice : List String → String
  | [] => ""
  | [a] => a
  | [a, b] => a ++ " or " ++ b
  | names => ", ".intercalate names.dropLast ++ ", or " ++ names.getLastD ""

end Rule

end Metalanguage
