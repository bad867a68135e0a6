import Metalanguage.Expression.Basic
import Metalanguage.Error

/-!
# Report/Summary — expressions and errors as a terminal shows them
-/

namespace Metalanguage

/-- A few lines on an expression: its kind and rank, its canonical form, its written form if that
differs, and its class if it has one. -/
def Expression.summary (x : Expression) : String :=
  let written := if x.display == x.canonical then "" else "  written:   " ++ x.display ++ "\n"
  let grammaticalClass := match x.grammaticalClass? with
    | some c => "  class:     " ++ c.name ++ "\n"
    | none => ""
  x.kind.name ++ " (rank " ++ toString x.rank ++ ")\n  canonical: " ++ x.canonical ++ "\n" ++
    written ++ grammaticalClass

/-- What helps against too much of a quantity. -/
def Quantity.advice : Quantity → String
  | inputBytes => ""
  | distinctNodes _ => "\n  Raise the limit with --max-nodes"

/-- An error in the wording for a terminal. A failure to parse is told by the first line alone, and
without its colours: on a terminal the piece of the text that it is about is drawn below that, with
the place marked and the hint at open brackets. -/
def Error.report : Error → String
  | parse failure =>
    "Error: Parse error: " ++ failure.reason.message ++ " (at " ++ failure.location ++ ")"
  | invalidTree construct defect => "Invalid " ++ construct.name ++ " tree: " ++ defect.message
  | sizeExceeded quantity limit actual =>
    "Size limit exceeded: " ++ quantity.name ++ "\n  Limit: " ++ toString limit ++
      "\n  Actual: " ++ toString actual ++ quantity.advice
  | e => e.message

end Metalanguage
