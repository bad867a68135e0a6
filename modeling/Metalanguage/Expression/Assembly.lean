import Metalanguage.Expression.Path
import Metalanguage.Limits

/-!
# Expression/Assembly — clauses and sentences from expressions of any kind

Where the parts of a clause or a sentence come as expressions, each must be of the level that the whole
asks for; the first that is not is the error.
-/

namespace Metalanguage

namespace Expression

/-- The part that an expression is, if it is one. -/
def part? : Expression → Option Part
  | part p => some p
  | _ => none

/-- What `pick?` finds in an expression; an error if the expression is of another kind. -/
def expect {α : Type} (construct wanted : Construct) (pick? : Part → Option α) (x : Expression) :
    Except Error α :=
  match x.part?.bind pick? with
  | some a => .ok a
  | none => .error (.invalidArgument construct (.childKind wanted x.kind))

end Expression

section

variable {N : Type} [PartNode N]

/-- The clause of three expressions. -/
def Clause.ofExpressions (children : List Expression) : Except Error (Clause N) := do
  let level := ClauseNode.level N
  let nodes ← children.mapM (Expression.expect level.clause level.node PartNode.node?)
  Clause.ofNodes nodes

/-- The sentence of some expressions, under the standard limits. -/
def Sentence.ofExpressions (children : List Expression) : Except Error (Sentence N) := do
  let level := ClauseNode.level N
  let clauses ← children.mapM (Expression.expect level.sentence level.clause PartNode.clause?)
  Sentence.ofClauses Limits.standard.maxNodes clauses

end

end Metalanguage
