import Metalanguage.Expression.Part

/-!
# Expression/Text — sets of propositions

A proposition is a word, a sentence or a super-sentence; a text is a set of them that is not empty.
Two builders differ in which of several equal propositions they keep, which shows in the literals:
`Text.gather` keeps the first, `Text.ofPropositions` the last.
-/

namespace Metalanguage

/-! ## Propositions -/

/-- **A member of a text.** -/
inductive Proposition
  | word (w : Word)
  | sentence (s : Sentence Word)
  | superSentence (s : SuperSentence)

namespace Proposition

/-- The proposition as a part. -/
def toPart : Proposition → Part
  | word w => .word w
  | sentence s => .sentence s
  | superSentence s => .superSentence s

/-- The proposition that a part is, if it is one. -/
def ofPart? : Part → Option Proposition
  | .word w => some (word w)
  | .sentence s => some (sentence s)
  | .superSentence s => some (superSentence s)
  | _ => none

@[simp] theorem ofPart?_toPart (p : Proposition) : ofPart? p.toPart = some p := by cases p <;> rfl

/-- The kind of a proposition. -/
def kind (p : Proposition) : Kind := p.toPart.kind

/-- The canonical form, without literals. -/
def canonical (p : Proposition) : String := p.toPart.canonical

/-- The written form, with literals. -/
def display (p : Proposition) : String := p.toPart.display

/-- Whether a part is this very proposition. -/
def isPart (p : Proposition) (q : Part) : Bool := p.toPart == q

/-- Whether a part is this proposition or below it. -/
def covers (p : Proposition) (q : Part) : Bool := p.isPart q || p.toPart.contains q

/-- Same kind and same canonical form. -/
instance : BEq Proposition := ⟨fun p q => p.toPart == q.toPart⟩

/-- Words, then sentences, then super-sentences; propositions of one kind by canonical form. -/
instance : Ord Proposition :=
  ⟨fun p q => (compare p.kind q.kind).then (compare p.canonical q.canonical)⟩

end Proposition

/-! ## Texts -/

/-- **A text**, by its members in increasing order. -/
structure Text where
  members : List Proposition

namespace Text

/-- The text of a set of members. -/
def ofSet : List Proposition → Except Error Text
  | [] => .error (.invalidArgument .text .noMembers)
  | members => .ok ⟨members⟩

/-- The text of some propositions; of equal ones the first stays. -/
def gather (propositions : List Proposition) : Except Error Text :=
  ofSet (Ordered.keepFirst compare propositions)

/-- The text of some propositions; of equal ones the last stays. -/
def ofPropositions (propositions : List Proposition) : Except Error Text :=
  ofSet (Ordered.keepLast compare propositions)

/-- The number of members. -/
def size (t : Text) : Nat := t.members.length

/-- Forms of members, enclosed as the members of a text. -/
def enclose (members : List String) : String :=
  "\x7b" ++ String.join (members.map fun m => "/" ++ m ++ "/") ++ "\x7d"

/-- The canonical form, without literals. -/
def canonical (t : Text) : String := enclose (t.members.map Proposition.canonical)

/-- The written form, with literals. -/
def display (t : Text) : String := enclose (t.members.map Proposition.display)

/-- Equality of canonical forms. -/
instance : BEq Text := ⟨fun t u => t.canonical == u.canonical⟩

/-- Member by member. -/
instance : Ord Text := ⟨compareOn (·.members)⟩

/-- Whether a part is one of the members. -/
def hasMember (t : Text) (p : Part) : Bool := t.members.any (·.isPart p)

/-- Whether a part is a member or below one. -/
def covers (t : Text) (p : Part) : Bool := t.members.any (·.covers p)

/-- Whether every member of another text is a member or below one. -/
def coversText (t other : Text) : Bool := other.members.all fun m => t.covers m.toPart

end Text

end Metalanguage
