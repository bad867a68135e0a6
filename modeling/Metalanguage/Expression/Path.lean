import Metalanguage.Expression.Basic

/-!
# Expression/Path — ways down, and the links along them

A path goes down from an expression, each step to a child of the step before. A link along a path
starts where the path does, which must be a member of the source.
-/

namespace Metalanguage

/-- **A way down from an expression.** -/
structure Path where
  first : Expression
  rest : List Expression

namespace Path

/-- The steps of a path. -/
def steps (p : Path) : List Expression := p.first :: p.rest

/-- The expression that a path ends on. -/
def target (p : Path) : Expression := p.rest.getLastD p.first

/-- The number of steps. -/
def size (p : Path) : Nat := p.steps.length

/-- The canonical form: the canonical forms of the steps. -/
def canonical (p : Path) : String := ">".intercalate (p.steps.map Expression.canonical)

/-- Equality of canonical forms. -/
instance : BEq Path := ⟨fun p q => p.canonical == q.canonical⟩

/-- Step by step. -/
instance : Ord Path := ⟨compareOn (·.steps)⟩

/-- **The path of some steps**; each must be a child of the step before. -/
def ofSteps : List Expression → Except Error Path
  | [] => .error (.invalidArgument .path .noSteps)
  | first :: rest =>
    match Ordered.neighbours? (fun x y => !x.hasChild y) (first :: rest) with
    | some (parent, step) =>
      .error (.invalidArgument .path (.notAChild step.display parent.display))
    | none => .ok ⟨first, rest⟩

/-- Whether a path starts on a member of a text. -/
def isReachableIn (p : Path) (t : Text) : Bool := Expression.hasChild (.text t) p.first

/-- The place that a path leads to, if it starts on a proposition. Everything below a proposition is a
part. -/
def anchor? (p : Path) : Option Anchor := do
  match p.first with
  | .part first =>
    let member ← Proposition.ofPart? first
    let descent ← p.rest.mapM fun
      | .part step => some step
      | _ => none
    return ⟨member, descent⟩
  | _ => none

end Path

/-- The path to a place in a text. -/
def Anchor.path (a : Anchor) : Path := ⟨.part a.member.toPart, a.descent.map .part⟩

/-- **The link along a path**, which must start on a member of the source. -/
def Hyperlink.along (source target : Text) (path : Path) : Except Error Hyperlink :=
  match path.isReachableIn source, path.anchor? with
  | true, some anchor => .ok ⟨source, target, anchor⟩
  | _, _ => .error (.invalidArgument .hyperlink (.unreachable path.canonical source.display))

end Metalanguage
