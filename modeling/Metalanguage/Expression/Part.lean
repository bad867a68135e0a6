import Metalanguage.Expression.Sentence

/-!
# Expression/Part — the levels below texts

A part is a term, a morpheme, a word, a clause, a sentence, a super-clause or a super-sentence. Each
level has its children on the level below (`Part.children`). `Part.descendants` lists what is below at
any depth, and `Part.contains` looks for it level by level.
-/

namespace Metalanguage

/-- **An expression below the level of texts.** -/
inductive Part
  | term (t : Term)
  | morpheme (m : Morpheme)
  | word (w : Word)
  | clause (c : Clause Word)
  | sentence (s : Sentence Word)
  | superClause (c : SuperClause)
  | superSentence (s : SuperSentence)

namespace Part

/-- The kind of a part. -/
def kind : Part → Kind
  | term _ => .term
  | morpheme _ => .morpheme
  | word _ => .word
  | clause _ => .clause
  | sentence _ => .sentence
  | superClause _ => .superClause
  | superSentence _ => .superSentence

/-- The canonical form, without literals. -/
def canonical : Part → String
  | term t => t.canonical
  | morpheme m => m.canonical
  | word w => w.canonical
  | clause c => c.canonical
  | sentence s => s.canonical
  | superClause c => c.canonical
  | superSentence s => s.canonical

/-- The written form, with literals. -/
def display : Part → String
  | term t => t.display
  | morpheme m => m.display
  | word w => w.display
  | clause c => c.display
  | sentence s => s.display
  | superClause c => c.display
  | superSentence s => s.display

/-- The grammatical class. -/
def grammaticalClass : Part → GrammaticalClass
  | term t => t.grammaticalClass
  | morpheme m => m.grammaticalClass
  | word w => w.grammaticalClass
  | clause c => c.grammaticalClass
  | sentence s => s.grammaticalClass
  | superClause c => c.grammaticalClass
  | superSentence s => s.grammaticalClass

/-- Same kind and same canonical form. -/
instance : BEq Part := ⟨fun p q => p.kind == q.kind && p.canonical == q.canonical⟩

/-- By level, then by the order of the level. -/
instance : Ord Part where
  compare
    | term t, term u => compare t u
    | morpheme m, morpheme n => compare m n
    | word w, word v => compare w v
    | clause c, clause d => compare c d
    | sentence s, sentence t => compare s t
    | superClause c, superClause d => compare c d
    | superSentence s, superSentence t => compare s t
    | p, q => compare p.kind q.kind

/-! ## Children and descendants -/

/-- The parts that a part is made of directly. -/
def children : Part → List Part
  | term _ => []
  | morpheme m => m.terms.map term
  | word w => w.morphemes.map morpheme
  | clause c => c.nodes.map word
  | sentence s => s.clauses.map clause
  | superClause c => c.nodes.map sentence
  | superSentence s => s.clauses.map superClause

/-- What is below a morpheme. -/
def ofMorpheme (m : Morpheme) : List Part := m.terms.map term

/-- What is below a word. -/
def ofWord (w : Word) : List Part := w.morphemes.flatMap fun m => morpheme m :: ofMorpheme m

/-- What is below a clause. -/
def ofClause (c : Clause Word) : List Part := c.nodes.flatMap fun w => word w :: ofWord w

/-- What is below a sentence. -/
def ofSentence (s : Sentence Word) : List Part := s.clauses.flatMap fun c => clause c :: ofClause c

/-- What is below a super-clause. -/
def ofSuperClause (c : SuperClause) : List Part :=
  c.nodes.flatMap fun s => sentence s :: ofSentence s

/-- What is below a super-sentence. -/
def ofSuperSentence (s : SuperSentence) : List Part :=
  s.clauses.flatMap fun c => superClause c :: ofSuperClause c

/-- The parts that a part is made of, at any depth. -/
def descendants : Part → List Part
  | term _ => []
  | morpheme m => ofMorpheme m
  | word w => ofWord w
  | clause c => ofClause c
  | sentence s => ofSentence s
  | superClause c => ofSuperClause c
  | superSentence s => ofSuperSentence s

/-- Whether `child` is a direct part of `p`. A morpheme looks for a term by the order of its terms;
other parts ask each of their own whether it is equal. -/
def hasChild : Part → Part → Bool
  | morpheme m, term t => m.hasTerm t
  | p, child => p.children.any (· == child)

end Part

/-! ## Containment

Each level asks its own parts whether they are the needle, and those that have parts themselves
whether it is below them. -/

/-- Whether a part is one of the morphemes of a word or one of their terms. -/
def Word.contains (w : Word) : Part → Bool
  | .morpheme m => w.morphemes.any (· == m)
  | .term t => w.morphemes.any (·.hasTerm t)
  | _ => false

/-- A type of nodes that some parts are, with the clauses that some parts are over it. -/
class PartNode (N : Type) extends ClauseNode N where
  node? : Part → Option N
  clause? : Part → Option (Clause N)
  /-- Whether a part is below a node. -/
  nodeContains : N → Part → Bool

section Nodes

variable {N : Type} [PartNode N]

/-- Whether a part is one of the nodes of a clause. -/
def Clause.hasNode (c : Clause N) (needle : Part) : Bool :=
  match (PartNode.node? needle : Option N) with
  | some node => c.nodes.any fun own => ClauseNode.canonical own == ClauseNode.canonical node
  | none => false

/-- Whether a part is one of the nodes of a clause or below one. -/
def Clause.contains (c : Clause N) (needle : Part) : Bool :=
  c.hasNode needle || c.nodes.any (PartNode.nodeContains · needle)

/-- Whether a part is one of the clauses of a sentence or below one; what is a clause over the nodes of
the sentence is below none. -/
def Sentence.contains (s : Sentence N) (needle : Part) : Bool :=
  match (PartNode.clause? needle : Option (Clause N)) with
  | some c => s.clauses.any (· == c)
  | none => s.clauses.any (·.contains needle)

end Nodes

instance : PartNode Word where
  node?
    | .word w => some w
    | _ => none
  clause?
    | .clause c => some c
    | _ => none
  nodeContains := Word.contains

instance : PartNode (Sentence Word) where
  node?
    | .sentence s => some s
    | _ => none
  clause?
    | .superClause c => some c
    | _ => none
  nodeContains := Sentence.contains

/-- Whether `needle` is a part of `p` at any depth. -/
def Part.contains : Part → Part → Bool
  | term _, _ => false
  | morpheme m, term t => m.hasTerm t
  | morpheme _, _ => false
  | word w, needle => w.contains needle
  | clause c, needle => c.contains needle
  | sentence s, needle => s.contains needle
  | superClause c, needle => c.contains needle
  | superSentence s, needle => s.contains needle

end Metalanguage
