import Mathlib.Data.List.Forall2
import Metalanguage.Expression.Basic
import Metalanguage.Grammar.Form

/-!
# Proofs/Expression/Form — which form stands for which expression

A form stands for an expression when it has the same shape over the same scripts; where it was read
does not matter. In the written style it has the literals too, in the canonical style it has none.
Hypertexts are written in the canonical style only: a form lists for each source text, member by
member, the links that start there.
-/

namespace Metalanguage

open List (Forall₂)

/-- The two ways to write an expression. -/
inductive Style
  | canonical
  | written

namespace Style

/-- The literals that show. -/
def literals : Style → List Literal → List Literal
  | canonical, _ => []
  | written, ls => ls

/-- One of two texts. -/
def choose : Style → String → String → String
  | canonical, s, _ => s
  | written, _, s => s

end Style

variable (s : Style)

/-! ## Levels below texts -/

def TermForm.StandsFor (f : TermForm) (t : Term) : Prop := f.script = t.script

def MorphemeForm.StandsFor (f : MorphemeForm) (m : Morpheme) : Prop :=
  Forall₂ TermForm.StandsFor f.terms m.terms

structure WordForm.StandsFor (f : WordForm) (w : Word) : Prop where
  substance : f.substance.StandsFor w.substance
  mode : Option.Rel MorphemeForm.StandsFor f.mode w.mode
  literals : f.literals = s.literals w.literals

section Nodes

variable {F N : Type} (node : F → N → Prop)

structure ClauseForm.StandsFor (f : ClauseForm F) (c : Clause N) : Prop where
  substance : node f.substance c.substance
  attr : node f.attr c.attr
  mode : node f.mode c.mode

structure SentenceForm.StandsFor (f : SentenceForm F) (t : Sentence N) : Prop where
  clauses : Forall₂ (ClauseForm.StandsFor node) f.clauses t.clauses
  literals : f.literals = s.literals t.literals

end Nodes

/-! ## Propositions and parts -/

/-- A sentence over words. -/
abbrev SentenceForm.OverWords := SentenceForm.StandsFor s (WordForm.StandsFor s)

inductive PropositionForm.StandsFor : PropositionForm → Proposition → Prop
  | word {f : WordForm} {w : Word} (h : f.StandsFor s w) : StandsFor (.word f) (.word w)
  | sentence {f : SentenceForm WordForm} {t : Sentence Word} (h : SentenceForm.OverWords s f t) :
    StandsFor (.sentence f) (.sentence t)
  | superSentence {f : SentenceForm (SentenceForm WordForm)} {t : SuperSentence}
    (h : f.StandsFor s (SentenceForm.OverWords s) t) :
    StandsFor (.superSentence f) (.superSentence t)

inductive PartForm.StandsFor : PartForm → Part → Prop
  | term {f : TermForm} {t : Term} (h : f.StandsFor t) : StandsFor (.term f) (.term t)
  | morpheme {f : MorphemeForm} {m : Morpheme} (h : f.StandsFor m) :
    StandsFor (.morpheme f) (.morpheme m)
  | clause {f : ClauseForm WordForm} {c : Clause Word} (h : f.StandsFor (WordForm.StandsFor s) c) :
    StandsFor (.clause f) (.clause c)
  | superClause {f : ClauseForm (SentenceForm WordForm)} {c : SuperClause}
    (h : f.StandsFor (SentenceForm.OverWords s) c) : StandsFor (.superClause f) (.superClause c)
  | proposition {f : PropositionForm} {p : Proposition} {q : Part} (h : f.StandsFor s p)
    (eq : p.toPart = q) : StandsFor (.proposition f) q

/-! ## Texts and hypertexts -/

def TextForm.StandsFor (f : TextForm) (t : Text) : Prop :=
  Forall₂ (PropositionForm.StandsFor s) f.members t.members

/-- The way below the member, and the target. -/
structure AnchorForm.StandsFor (f : AnchorForm) (l : Hyperlink) : Prop where
  steps : Forall₂ (PartForm.StandsFor .canonical) f.steps l.anchor.descent
  target : f.target.StandsFor .canonical l.target

/-- A member, with those of the links that start there. -/
structure MemberForm.StandsFor (links : List Hyperlink) (f : MemberForm) (p : Proposition) :
    Prop where
  proposition : f.proposition.StandsFor .canonical p
  anchors : Forall₂ AnchorForm.StandsFor f.anchors (links.filter fun l => p == l.anchor.member)

/-- A source text, with the links of the hypertext that start in it. -/
def BlockForm.StandsFor (h : Hypertext) (f : BlockForm) (source : Text) : Prop :=
  Forall₂ (MemberForm.StandsFor (h.links.filter fun l => compare l.source source == .eq))
    f.members source.members

inductive ExpressionForm.StandsFor : ExpressionForm → Expression → Prop
  | part {f : PartForm} {p : Part} (h : f.StandsFor s p) : StandsFor (.part f) (.part p)
  | text {f : TextForm} {t : Text} (h : f.StandsFor s t) : StandsFor (.text f) (.text t)
  | hypertext {blocks : List BlockForm} {h : Hypertext}
    (blocks_stand : Forall₂ (BlockForm.StandsFor h) blocks h.sources) :
    StandsFor (.hypertext blocks) (.hypertext h)

end Metalanguage
