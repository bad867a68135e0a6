/-!
# Bracket — the bracket pairs of a text

Literals hold free text, so brackets are counted outside of them only. The scanner here reads a text
of any form: a literal that is never closed reaches to the end.
-/

namespace Metalanguage

/-- A pair of brackets. -/
inductive Bracket
  | square
  | round
  | curly
  deriving DecidableEq, Repr

namespace Bracket

/-- The opening bracket. -/
def opening : Bracket → Char
  | square => '['
  | round => '('
  | curly => '{'

/-- The closing bracket. -/
def closing : Bracket → Char
  | square => ']'
  | round => ')'
  | curly => '}'

/-- Where a scan stands: outside of literals, inside of one, or behind a backslash in one. -/
inductive Zone
  | outside
  | inside
  | escaped
  deriving DecidableEq, Repr

/-- The zone behind one more character. -/
def Zone.next : Zone → Char → Zone
  | outside, c => if c == '<' then inside else outside
  | inside, c => if c == '\\' then escaped else if c == '>' then outside else inside
  | escaped, _ => inside

/-- One step of a scan that collects, last first, the characters outside of literals. -/
def scanStep (state : Zone × List Char) (c : Char) : Zone × List Char :=
  (state.1.next c, if state.1 = .outside then c :: state.2 else state.2)

/-- The characters outside of literals, the `<` that open them among them. -/
def outsideLiterals (cs : List Char) : List Char := (cs.foldl scanStep (.outside, [])).2.reverse

/-- The first pair whose two brackets do not occur equally often outside of literals. -/
def unbalanced? (cs : List Char) : Option Bracket :=
  let bare := outsideLiterals cs
  [square, round, curly].find? fun b => bare.count b.opening != bare.count b.closing

/-- The advice to close a bracket. -/
def suggestion (b : Bracket) : String :=
  "every '" ++ b.opening.toString ++ "' must be closed by a '" ++ b.closing.toString ++ "'"

end Bracket

end Metalanguage
