import Metalanguage.Expression.Hypertext

/-!
# Expression/Handle — hypertexts in hand

A hypertext in hand keeps its canonical form once that was asked for, so that it is not written twice,
and drops it when a link is added that is new. A clone starts with what was kept. A session has any
number of handles, which all come from one, and does one operation with them after the other.
-/

namespace Metalanguage

/-- **A hypertext in hand**: its links, and its canonical form if it is kept. -/
structure Handle where
  web : Hypertext
  kept : Option String

namespace Handle

/-- A new hypertext, of which nothing is written yet. -/
def ofLinks (links : List Hyperlink) : Except Error Handle :=
  return ⟨← Hypertext.ofLinks links, none⟩

/-- The canonical form, as it is kept or else written now. -/
def canonical (h : Handle) : String := h.kept.getD h.web.canonical

/-- The handle when its canonical form was asked for. -/
def read (h : Handle) : Handle := { h with kept := some h.canonical }

/-- Adds a link and says whether it is new; then the canonical form is dropped. -/
def addLink (h : Handle) (link : Hyperlink) : Bool × Handle :=
  let inserted := !h.web.hasLink link
  (inserted, ⟨h.web.addLink link, if inserted then none else h.kept⟩)

/-- Equality of canonical forms. -/
instance : BEq Handle := ⟨fun h k => h.canonical == k.canonical⟩

/-- Link by link. -/
instance : Ord Handle := ⟨compareOn (·.web)⟩

end Handle

/-! ## Sessions -/

/-- What is done with the handles of a session, by their numbers. -/
inductive Operation
  | read (i : Nat)
  | equal (i j : Nat)
  | order (i j : Nat)
  | clone (i : Nat)
  | add (i : Nat) (link : Hyperlink)

/-- The handles after an operation. Equality asks for both canonical forms, the order only looks at
the links; a clone comes behind all other handles. -/
def Operation.step (handles : List Handle) : Operation → List Handle
  | read i => handles.modify i Handle.read
  | equal i j => (handles.modify i Handle.read).modify j Handle.read
  | order _ _ => handles
  | clone i => handles ++ handles[i]?.toList
  | add i link => handles.modify i fun h => (h.addLink link).2

/-- **A session**: the links of its first hypertext, and what is done with that and its clones. -/
structure Session where
  links : List Hyperlink
  operations : List Operation

/-- The handles at the end of a session. -/
def Session.handles (s : Session) : Except Error (List Handle) :=
  return s.operations.foldl Operation.step [← Handle.ofLinks s.links]

end Metalanguage
