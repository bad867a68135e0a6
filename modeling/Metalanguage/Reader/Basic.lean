import Metalanguage.Grammar.Attempts
import Metalanguage.Grammar.Productions
import Metalanguage.Reader.Resolve

/-!
# Reader — reading expressions

A reader has a dictionary and limits. It checks the size of a text, reads its form by the grammar, and
resolves the form; each stage has errors of its own.
-/

namespace Metalanguage

/-- **What it takes to read expressions.** -/
structure Reader where
  dictionary : Dictionary
  limits : Limits

namespace Reader

/-- The error of a text that the grammar does not read: the rules that were expected at the furthest
place where one fails. -/
def formError (text : List Char) (source : String) : Error :=
  let attempts := Productions.expression.attempts text
  .parse ⟨.expected (Rule.listed attempts.rules), ⟨attempts.offset, attempts.offset⟩,
    .ofOffset text attempts.offset, source, Bracket.unbalanced? text⟩

/-- The form of a text. -/
def form? (text : List Char) : Option ExpressionForm :=
  (Productions.expression.read (.start text)).map (·.1)

/-- **The expression that a text holds**; errors call the text `source`. -/
def parse (r : Reader) (source input : String) : Except Error Expression :=
  if r.limits.maxBytes < input.utf8ByteSize then
    .error (.sizeExceeded .inputBytes r.limits.maxBytes input.utf8ByteSize)
  else
    let text := input.toList
    match form? text with
    | none => .error (formError text source)
    | some form => form.resolve ⟨r.dictionary, r.limits.maxNodes, source, text⟩

end Reader

end Metalanguage
