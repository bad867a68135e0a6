import Metalanguage.Expression.Text

/-!
# Expression/Hypertext — texts linked to each other

A link leads from a place in a source text to a target text. The place, an anchor, is a member of the
source and a way down from it, each step to a child of the step before. A hypertext is a set of links
that is not empty. It is written as its source texts, one after the other, each with its targets behind
the members that they are linked to.
-/

namespace Metalanguage

/-- A place in a text: a member, and the parts on the way down from it. -/
structure Anchor where
  member : Proposition
  descent : List Part

/-- The member and the parts below it. -/
def Anchor.steps (a : Anchor) : List Part := a.member.toPart :: a.descent

/-- The canonical form of a way: the canonical forms of its steps. -/
def Anchor.canonical (a : Anchor) : String := ">".intercalate (a.steps.map Part.canonical)

/-- **A link** from a place in a source text to a target text. -/
structure Hyperlink where
  source : Text
  target : Text
  anchor : Anchor

namespace Hyperlink

/-- The canonical form: source, way and target. -/
def canonical (l : Hyperlink) : String :=
  "(" ++ l.source.canonical ++ "@" ++ l.anchor.canonical ++ "@" ++ l.target.canonical ++ ")"

/-- Equality of canonical forms. -/
instance : BEq Hyperlink := ⟨fun l k => l.canonical == k.canonical⟩

/-- By source, then by the steps of the way, then by target. -/
instance : Ord Hyperlink :=
  ⟨fun l k => ((compare l.source k.source).then (compare l.anchor.steps k.anchor.steps)).then
    (compare l.target k.target)⟩

end Hyperlink

/-- **A hypertext**, by its links in increasing order. -/
structure Hypertext where
  links : List Hyperlink

namespace Hypertext

/-- The hypertext of some links; of equal ones the last stays. -/
def ofLinks (links : List Hyperlink) : Except Error Hypertext :=
  match Ordered.keepLast compare links with
  | [] => .error (.invalidArgument .hypertext .noLinks)
  | links => .ok ⟨links⟩

/-- Whether a link equal to `link` is there. -/
def hasLink (h : Hypertext) (link : Hyperlink) : Bool := Ordered.has compare link h.links

/-- The hypertext with one more link; an equal one that is there already stays instead. -/
def addLink (h : Hypertext) (link : Hyperlink) : Hypertext :=
  ⟨Ordered.insertNew compare link h.links⟩

/-- The number of links. -/
def size (h : Hypertext) : Nat := h.links.length

/-- Whether there is no link. -/
def isEmpty (h : Hypertext) : Bool := h.links.isEmpty

/-- The distinct sources and targets, in order; of equal texts the last stays. -/
def texts (h : Hypertext) : List Text :=
  Ordered.keepLast compare (h.links.flatMap fun l => [l.source, l.target])

/-- The distinct sources, in order. -/
def sources (h : Hypertext) : List Text :=
  Ordered.keepFirst compare (h.links.map (·.source))

/-! ## Written form -/

/-- What is written behind a member for a link that starts there. -/
def linkSuffix (l : Hyperlink) : String :=
  String.join (l.anchor.descent.map fun step => ">" ++ step.canonical) ++ l.target.canonical

/-- A member with the links that start there. -/
def memberForm (links : List Hyperlink) (member : Proposition) : String :=
  member.canonical ++
    String.join ((links.filter fun l => member == l.anchor.member).map linkSuffix)

/-- A source text with its links. -/
def blockForm (h : Hypertext) (source : Text) : String :=
  let links := h.links.filter fun l => compare l.source source == .eq
  Text.enclose (source.members.map (memberForm links))

/-- The canonical form, which is the written form too: literals do not show in it. -/
def canonical (h : Hypertext) : String := String.join (h.sources.map h.blockForm)

/-- Equality of canonical forms. -/
instance : BEq Hypertext := ⟨fun h k => h.canonical == k.canonical⟩

/-- Link by link. -/
instance : Ord Hypertext := ⟨compareOn (·.links)⟩

end Hypertext

end Metalanguage
