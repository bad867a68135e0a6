import Metalanguage.Grammar.Basic
import Metalanguage.Grammar.Form

/-!
# Grammar/Productions — the grammar of expressions

Brackets nest by level: terms, words, sentences and super-sentences stand in square ones, morphemes and
clauses in round ones, texts in curly ones. Where several forms begin alike, the most deeply nested one
is tried first.
-/

namespace Metalanguage.Productions

open Grammar

/-! ## Words -/

/-- A script. -/
def script : Grammar String := .named .script .script

/-- A literal. -/
def literal : Grammar Literal := .named .literal .literal

/-- A term in its brackets. -/
def term : Grammar TermForm :=
  .map (fun (range, script) => ⟨range, script⟩)
    (.placed (.named .term (between '[' ']' script)))

/-- A script that stands for a term without brackets. -/
def bareTerm : Grammar TermForm := .map (fun (range, script) => ⟨range, script⟩) (.placed script)

/-- Terms between round brackets, with bars between them. -/
def morpheme : Grammar MorphemeForm :=
  .named .morpheme (.map MorphemeForm.mk (between '(' ')' (separated '|' term)))

/-- A substance and perhaps a mode between square brackets, then literals. -/
def word : Grammar WordForm :=
  .named .word <|
    .map (fun ((substance, mode), literals) => ⟨substance, mode, literals⟩) <|
      .seq (between '[' ']' (.seq morpheme (optional (seqRight (.mark '*') morpheme))))
        (.many literal)

/-! ## Clauses and sentences -/

/-- Three nodes between round brackets, with stars between them. -/
def clauseOver {F : Type} (rule : Rule) (node : Grammar F) : Grammar (ClauseForm F) :=
  .named rule <|
    .map (fun (substance, attr, mode) => ⟨substance, attr, mode⟩) <|
      between '(' ')'
        (.seq node (seqRight (.mark '*') (.seq node (seqRight (.mark '*') node))))

/-- Clauses between square brackets, with plus signs between them, then literals. -/
def sentenceOver {F : Type} (rule : Rule) (clause : Grammar (ClauseForm F)) :
    Grammar (SentenceForm F) :=
  .named rule <|
    .map (fun (clauses, literals) => ⟨clauses, literals⟩) <|
      .seq (between '[' ']' (separated '+' clause)) (.many literal)

/-- A clause over words. -/
def clause : Grammar (ClauseForm WordForm) := clauseOver .clause word

/-- A sentence over words. -/
def sentence : Grammar (SentenceForm WordForm) := sentenceOver .sentence clause

/-- A clause over sentences. -/
def superClause : Grammar (ClauseForm (SentenceForm WordForm)) := clauseOver .superClause sentence

/-- A sentence over sentences. -/
def superSentence : Grammar (SentenceForm (SentenceForm WordForm)) :=
  sentenceOver .superSentence superClause

/-! ## Texts -/

/-- A member of a text. -/
def proposition : Grammar PropositionForm :=
  .either (.map .superSentence superSentence) (.either (.map .sentence sentence) (.map .word word))

/-- Members between slashes, in curly brackets. -/
def text : Grammar TextForm :=
  .named .text (.map TextForm.mk (between '{' '}' (some1 (between '/' '/' proposition))))

/-! ## Hypertexts -/

/-- A step on the way to a place in a text. -/
def pathStep : Grammar PartForm :=
  .either (.map (.proposition ∘ .superSentence) superSentence) <|
  .either (.map (.proposition ∘ .sentence) sentence) <|
  .either (.map .superClause superClause) <|
  .either (.map .clause clause) <|
  .either (.map (.proposition ∘ .word) word) <|
  .either (.map .morpheme morpheme) (.map .term term)

/-- The steps below a member, each behind a `>`, and the target text. -/
def anchor : Grammar AnchorForm :=
  .named .anchor <|
    .map (fun (steps, target) => ⟨steps, target⟩) <|
      .seq (.many (seqRight (.mark '>') pathStep)) text

/-- A member without links. -/
def plainMember : Grammar MemberForm :=
  .named .plainMember (.map (fun p => ⟨p, []⟩) (between '/' '/' proposition))

/-- A member with links. -/
def anchoredMember : Grammar MemberForm :=
  .named .anchoredMember <|
    .map (fun (proposition, anchors) => ⟨proposition, anchors⟩) <|
      between '/' '/' (.seq proposition (some1 anchor))

/-- A source text: its members, of which one at least has a link. -/
def hypertextBlock : Grammar BlockForm :=
  .named .hypertextBlock <|
    .map (fun (plain, anchored, more) => ⟨plain ++ anchored :: more⟩) <|
      between '{' '}' <|
        .seq (.many plainMember)
          (.seq anchoredMember (.many (.either anchoredMember plainMember)))

/-- One source text or more. -/
def hypertext : Grammar (List BlockForm) := .named .hypertext (some1 hypertextBlock)

/-! ## Expressions -/

/-- An expression of any kind. -/
def anyExpression : Grammar ExpressionForm :=
  .either (.map .hypertext hypertext) <|
  .either (.map .text text) <|
  .either (.map (.part ∘ .proposition) proposition) <|
  .either (.map (.part ∘ .superClause) superClause) <|
  .either (.map (.part ∘ .clause) clause) <|
  .either (.map (.part ∘ .morpheme) morpheme) <|
  .either (.map (.part ∘ .term) term) (.map (.part ∘ .term) bareTerm)

/-- **A whole text that holds one expression**, with any blanks around it. -/
def expression : Grammar ExpressionForm :=
  .named .expression <|
    seqRight .empty (seqLeft anyExpression (.named .endOfInput .finish))

end Metalanguage.Productions
