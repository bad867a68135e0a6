import Metalanguage.Dictionary.Basic
import Metalanguage.Expression.Path
import Metalanguage.Grammar.Form
import Metalanguage.Limits

/-!
# Reader/Resolve — from forms to expressions

Scripts are looked up and expressions are built in the order of the text, so that the first object that
cannot be built gives the error. In a link the target comes before the steps that lead to it.
-/

namespace Metalanguage

/-- What resolving needs beside the form: a dictionary, the bound on nodes, and the text with its name,
which an error points into. -/
structure Context where
  dictionary : Dictionary
  maxNodes : Nat
  source : String
  text : List Char

/-- The error that there is no term where one stands. -/
def Context.unknownTerm (c : Context) (f : TermForm) : Error :=
  .parse ⟨.unknownTerm f.script, f.range, .ofOffset c.text f.range.start, c.source, none⟩

/-- The term of a form. -/
def TermForm.resolve (c : Context) (f : TermForm) : Except Error Term :=
  match c.dictionary.term? f.script with
  | some t => .ok t
  | none => .error (c.unknownTerm f)

/-- The morpheme of a form. -/
def MorphemeForm.resolve (c : Context) (f : MorphemeForm) : Except Error Morpheme := do
  Morpheme.ofTerms (← f.terms.mapM (·.resolve c))

/-- The word of a form. -/
def WordForm.resolve (c : Context) (f : WordForm) : Except Error Word := do
  let substance ← f.substance.resolve c
  match f.mode with
  | none => return ⟨substance, none, f.literals⟩
  | some mode => return ⟨substance, some (← mode.resolve c), f.literals⟩

section Nodes

variable {F N : Type} [ClauseNode N]

/-- The clause of a form, each of whose nodes `node` resolves. -/
def ClauseForm.resolve (node : F → Except Error N) (f : ClauseForm F) : Except Error (Clause N) := do
  Clause.of (← node f.substance) (← node f.attr) (← node f.mode)

/-- The sentence of a form, each of whose nodes `node` resolves. -/
def SentenceForm.resolve (maxNodes : Nat) (node : F → Except Error N) (f : SentenceForm F) :
    Except Error (Sentence N) := do
  let sentence ← Sentence.ofClauses maxNodes (← f.clauses.mapM (ClauseForm.resolve node))
  return sentence.withLiterals f.literals

end Nodes

namespace Context

/-- The clause over words of a form. -/
def clause (c : Context) (f : ClauseForm WordForm) : Except Error (Clause Word) :=
  f.resolve (WordForm.resolve c)

/-- The sentence over words of a form. -/
def sentence (c : Context) (f : SentenceForm WordForm) : Except Error (Sentence Word) :=
  f.resolve c.maxNodes (WordForm.resolve c)

/-- The clause over sentences of a form. -/
def superClause (c : Context) (f : ClauseForm (SentenceForm WordForm)) :
    Except Error SuperClause :=
  f.resolve c.sentence

/-- The sentence over sentences of a form. -/
def superSentence (c : Context) (f : SentenceForm (SentenceForm WordForm)) :
    Except Error SuperSentence :=
  f.resolve c.maxNodes c.sentence

end Context

/-- The proposition of a form. -/
def PropositionForm.resolve (c : Context) : PropositionForm → Except Error Proposition
  | word f => return .word (← f.resolve c)
  | sentence f => return .sentence (← c.sentence f)
  | superSentence f => return .superSentence (← c.superSentence f)

/-- The part of a form. -/
def PartForm.resolve (c : Context) : PartForm → Except Error Part
  | term f => return .term (← f.resolve c)
  | morpheme f => return .morpheme (← f.resolve c)
  | clause f => return .clause (← c.clause f)
  | superClause f => return .superClause (← c.superClause f)
  | proposition f => return (← f.resolve c).toPart

/-- The text of a form. -/
def TextForm.resolve (c : Context) (f : TextForm) : Except Error Text := do
  Text.gather (← f.members.mapM (·.resolve c))

/-- The way and the target of a link behind `member`. -/
def AnchorForm.resolve (c : Context) (member : Proposition) (f : AnchorForm) :
    Except Error (Path × Text) := do
  let target ← f.target.resolve c
  let steps ← f.steps.mapM (·.resolve c)
  let path ← Path.ofSteps ((member.toPart :: steps).map .part)
  return (path, target)

/-- A member of a source text, with the ways and the targets of its links. -/
def MemberForm.resolve (c : Context) (f : MemberForm) :
    Except Error (Proposition × List (Path × Text)) := do
  let member ← f.proposition.resolve c
  return (member, ← f.anchors.mapM (·.resolve c member))

/-- The links of a source text. -/
def BlockForm.resolve (c : Context) (f : BlockForm) : Except Error (List Hyperlink) := do
  let members ← f.members.mapM (·.resolve c)
  let source ← Text.gather (members.map (·.1))
  (members.flatMap (·.2)).mapM fun (path, target) => Hyperlink.along source target path

/-- **The expression of a form.** -/
def ExpressionForm.resolve (c : Context) : ExpressionForm → Except Error Expression
  | part f => return .part (← f.resolve c)
  | text f => return .text (← f.resolve c)
  | hypertext blocks => do
    let links ← blocks.mapM (·.resolve c)
    return .hypertext (← Hypertext.ofLinks links.flatten)

end Metalanguage
