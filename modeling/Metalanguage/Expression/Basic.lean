import Metalanguage.Expression.Hypertext

/-!
# Expression — expressions of all kinds

An expression is a part, a text or a hypertext. `Expression.hasChild` says what an expression is made
of directly, `Expression.contains` what it holds at any depth; a text is held by whatever holds all its
members.
-/

namespace Metalanguage

/-- **An expression of any kind.** -/
inductive Expression
  | part (p : Part)
  | text (t : Text)
  | hypertext (h : Hypertext)

namespace Expression

/-- The kind of an expression. -/
def kind : Expression → Kind
  | part p => p.kind
  | text _ => .text
  | hypertext _ => .hypertext

/-- The rank of an expression. -/
def rank (x : Expression) : Nat := x.kind.rank

/-- The canonical form, without literals. -/
def canonical : Expression → String
  | part p => p.canonical
  | text t => t.canonical
  | hypertext h => h.canonical

/-- The written form, with the literals of parts and texts. -/
def display : Expression → String
  | part p => p.display
  | text t => t.display
  | hypertext h => h.canonical

/-- The grammatical class; texts and hypertexts have none. -/
def grammaticalClass? : Expression → Option GrammaticalClass
  | part p => some p.grammaticalClass
  | _ => none

/-- Same kind and same canonical form. -/
instance : BEq Expression := ⟨fun x y => x.kind == y.kind && x.canonical == y.canonical⟩

/-- By level, then by the order of the level. -/
instance : Ord Expression where
  compare
    | part p, part q => compare p q
    | text t, text u => compare t u
    | hypertext h, hypertext k => compare h k
    | x, y => compare x.kind y.kind

/-- The expressions that an expression is made of directly. -/
def children : Expression → List Expression
  | part p => p.children.map part
  | text t => t.members.map fun m => part m.toPart
  | hypertext h => h.texts.map text

/-- Whether `child` is a direct child. A hypertext looks for a text by the order of its texts. -/
def hasChild : Expression → Expression → Bool
  | part p, part q => p.hasChild q
  | text t, part q => t.hasMember q
  | hypertext h, text t => Ordered.has compare t h.texts
  | _, _ => false

/-- Whether a text holds an expression. -/
def textContains (t : Text) : Expression → Bool
  | part q => t.covers q
  | text u => t.coversText u
  | hypertext _ => false

/-- Whether `needle` is below `x`, at any depth. -/
def contains (x needle : Expression) : Bool :=
  match x, needle with
  | part p, part q => p.contains q
  | part _, _ => false
  | text t, needle => textContains t needle
  | hypertext h, needle => h.texts.any (textContains · needle)

end Expression

/-! ## Texts of expressions -/

namespace Text

/-- The propositions that a child brings to a text: itself, or its members if it is a text. -/
def propositionsOf : Expression → Except Error (List Proposition)
  | .text t => .ok t.members
  | .part p =>
    match Proposition.ofPart? p with
    | some member => .ok [member]
    | none => .error (.invalidArgument .text (.notForTexts p.kind))
  | .hypertext _ => .error (.invalidArgument .text (.notForTexts .hypertext))

/-- **The text of some expressions.** Texts among them bring their members; of equal propositions the
first stays. -/
def ofExpressions (children : List Expression) : Except Error Text := do
  gather (← children.mapM propositionsOf).flatten

end Text

end Metalanguage
