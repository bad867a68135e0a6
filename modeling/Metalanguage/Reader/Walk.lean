import Metalanguage.Grammar.Tree
import Metalanguage.Reader.Basic

/-!
# Reader/Walk — from rules to expressions

An expression can be built from the tree of the rules that its text is read by, without a form in
between. A walk over a tree takes nothing for granted: a rule in a place that is for others, or a
place without a rule that belongs there, is an error of its own.
-/

namespace Metalanguage

namespace Context

/-- The error that a rule does not fit where it stands. -/
def odd (c : Context) (oddity : Oddity) (t : RuleTree) : Error :=
  .parse ⟨.odd oddity, t.range, .ofOffset c.text t.range.start, c.source, none⟩

/-- The error that a rule stands where there should be another. -/
def unexpected (c : Context) (t : RuleTree) : Error := c.odd (.unexpected t.rule) t

/-- The stretch of the text that a rule was read from. -/
def slice (c : Context) (t : RuleTree) : List Char := t.range.of c.text

/-- The literal of a rule: what stands between its first and its last character. -/
def walkLiteral (c : Context) (t : RuleTree) : Literal :=
  ⟨String.ofList (c.slice t).tail.dropLast⟩

/-- The script of a term, in brackets or without. -/
def walkScript (c : Context) (t : RuleTree) : Except Error String :=
  match t.rule with
  | .script => return String.ofList (c.slice t)
  | .term =>
    match t.inner with
    | [] => throw (c.odd .termWithoutScript t)
    | script :: _ => return String.ofList (c.slice script)
  | _ => throw (c.unexpected t)

/-- The term of a rule, which is looked for before it is looked up. -/
def walkTerm (c : Context) (t : RuleTree) : Except Error Term := do
  let script ← c.walkScript t
  if c.dictionary.contains script then c.dictionary.term script
  else throw (c.unknownTerm ⟨t.range, script⟩)

/-- The morpheme of a rule. -/
def walkMorpheme (c : Context) (t : RuleTree) : Except Error Morpheme := do
  Morpheme.ofTerms (← t.inner.mapM c.walkTerm)

/-- The parts that are meant to stand before the literals, each of one of the given rules, and the
literals. -/
def walkParts {α : Type} (c : Context) (rules : List Rule) (walk : RuleTree → Except Error α) :
    List RuleTree → Except Error (List α × List Literal)
  | [] => return ([], [])
  | t :: ts =>
    if rules.contains t.rule then do
      let part ← walk t
      let (parts, literals) ← walkParts c rules walk ts
      return (part :: parts, literals)
    else if t.rule = .literal then do
      let (parts, literals) ← walkParts c rules walk ts
      return (parts, c.walkLiteral t :: literals)
    else throw (c.unexpected t)

/-- The word of a rule. -/
def walkWord (c : Context) (t : RuleTree) : Except Error Word := do
  let (morphemes, literals) ← c.walkParts [.morpheme] c.walkMorpheme t.inner
  match morphemes with
  | [] => throw (c.odd .wordWithoutSubstance t)
  | substance :: rest => return ⟨substance, rest.head?, literals⟩

/-- The clause of a rule, each of whose nodes `node` walks over. -/
def walkClause {N : Type} [ClauseNode N] (node : RuleTree → Except Error N) (t : RuleTree) :
    Except Error (Clause N) := do
  Clause.ofNodes (← t.inner.mapM node)

/-- The sentence of a rule, each of whose nodes `node` walks over. -/
def walkSentence {N : Type} [ClauseNode N] (c : Context) (node : RuleTree → Except Error N)
    (t : RuleTree) : Except Error (Sentence N) := do
  let (clauses, literals) ← c.walkParts [.clause, .superClause] (walkClause node) t.inner
  return (← Sentence.ofClauses c.maxNodes clauses).withLiterals literals

/-- The proposition of a rule. -/
def walkProposition (c : Context) (t : RuleTree) : Except Error Expression :=
  match t.rule with
  | .word => return .part (.word (← c.walkWord t))
  | .sentence => return .part (.sentence (← c.walkSentence c.walkWord t))
  | .superSentence =>
    return .part (.superSentence (← c.walkSentence (c.walkSentence c.walkWord) t))
  | _ => throw (c.unexpected t)

/-- The text of a rule. -/
def walkText (c : Context) (t : RuleTree) : Except Error Text := do
  Text.ofExpressions (← t.inner.mapM c.walkProposition)

/-- The text that the rules of a link end on. -/
def walkTarget (c : Context) (link : RuleTree) : Except Error Text :=
  match link.inner.getLast? with
  | some target =>
    if target.rule = .text then c.walkText target else throw (c.odd .linkWithoutTarget link)
  | none => throw (c.odd .linkWithoutTarget link)

mutual

/-- **The expression of a rule.** -/
def walk (c : Context) : RuleTree → Except Error Expression
  | .node .script range inner => return .part (.term (← c.walkTerm (.node .script range inner)))
  | .node .term range inner => return .part (.term (← c.walkTerm (.node .term range inner)))
  | .node .morpheme range inner =>
    return .part (.morpheme (← c.walkMorpheme (.node .morpheme range inner)))
  | .node .word range inner => return .part (.word (← c.walkWord (.node .word range inner)))
  | .node .clause range inner =>
    return .part (.clause (← walkClause c.walkWord (.node .clause range inner)))
  | .node .sentence range inner =>
    return .part (.sentence (← c.walkSentence c.walkWord (.node .sentence range inner)))
  | .node .superClause range inner =>
    return .part (.superClause
      (← walkClause (c.walkSentence c.walkWord) (.node .superClause range inner)))
  | .node .superSentence range inner =>
    return .part (.superSentence
      (← c.walkSentence (c.walkSentence c.walkWord) (.node .superSentence range inner)))
  | .node .text range inner => return .text (← c.walkText (.node .text range inner))
  | .node .hypertext _ blocks => do
    let links ← c.walkBlocks blocks
    return .hypertext (← Hypertext.ofLinks links)
  | .node rule range inner => throw (c.unexpected (.node rule range inner))

/-- The links of source texts. -/
def walkBlocks (c : Context) : List RuleTree → Except Error (List Hyperlink)
  | [] => return []
  | .node _ _ members :: blocks => do
    let (propositions, ways) ← c.walkMembers members
    let source ← Text.ofExpressions propositions
    let links ← ways.mapM fun (path, target) => Hyperlink.along source target path
    return links ++ (← c.walkBlocks blocks)

/-- Members, and the ways and targets of all their links. -/
def walkMembers (c : Context) : List RuleTree → Except Error (List Expression × List (Path × Text))
  | [] => return ([], [])
  | .node rule range [] :: _ => throw (c.odd .memberWithoutProposition (.node rule range []))
  | .node _ _ (first :: links) :: members => do
    let member ← c.walkProposition first
    let ways ← c.walkLinks member links
    let (propositions, more) ← c.walkMembers members
    return (member :: propositions, ways ++ more)

/-- The ways and targets of the links behind a member. -/
def walkLinks (c : Context) (member : Expression) :
    List RuleTree → Except Error (List (Path × Text))
  | [] => return []
  | .node rule range parts :: links => do
    let target ← c.walkTarget (.node rule range parts)
    let steps ← c.walkSteps parts
    let path ← Path.ofSteps (member :: steps)
    return (path, target) :: (← c.walkLinks member links)

/-- The steps of a link: all rules but the last. -/
def walkSteps (c : Context) : List RuleTree → Except Error (List Expression)
  | [] => return []
  | step :: parts =>
    if parts.isEmpty then return []
    else return (← c.walk step) :: (← c.walkSteps parts)

end

end Context

/-- **The expression that a text holds**, by way of the rules that it is read by. -/
def Reader.walk (r : Reader) (source input : String) : Except Error Expression :=
  if r.limits.maxBytes < input.utf8ByteSize then
    .error (.sizeExceeded .inputBytes r.limits.maxBytes input.utf8ByteSize)
  else
    let text := input.toList
    match Productions.expression.trees? text with
    | none => .error (formError text source)
    | some trees =>
      match trees.head?.bind fun whole => whole.inner.find? (·.rule != .endOfInput) with
      | none => .error (.parse ⟨.odd .noExpression, ⟨0, 0⟩, ⟨1, 1⟩, source, none⟩)
      | some top => Context.walk ⟨r.dictionary, r.limits.maxNodes, source, text⟩ top

end Metalanguage
