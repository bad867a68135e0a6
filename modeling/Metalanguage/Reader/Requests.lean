import Metalanguage.Dictionary.Interning
import Metalanguage.Reader.Basic

/-!
# Reader/Requests — what is looked up, and when

To resolve a form is to look its terms up one after the other. The first that the dictionary does
not contain ends this before it is looked up itself, and so does the first object that cannot be
built of the terms before it.
-/

namespace Metalanguage

/-- What steps look up that are taken one after the other, up to the first that fails. -/
def untilError {F α C : Type} (step : F → Except Error α) (looksUp : F → List C) : List F → List C
  | [] => []
  | f :: fs => looksUp f ++ if (step f).isOk then untilError step looksUp fs else []

/-! ## Forms -/

/-- A term is looked up if the dictionary contains it. -/
def TermForm.consulted (c : Context) (f : TermForm) : List TermForm :=
  if c.dictionary.contains f.script then [f] else []

/-- The terms that are looked up for a morpheme. -/
def MorphemeForm.consulted (c : Context) (f : MorphemeForm) : List TermForm :=
  untilError (·.resolve c) (·.consulted c) f.terms

/-- The terms that are looked up for a word. -/
def WordForm.consulted (c : Context) (f : WordForm) : List TermForm :=
  untilError (·.resolve c) (·.consulted c) (f.substance :: f.mode.toList)

section Nodes

variable {F N : Type} [ClauseNode N]

/-- The terms that are looked up for a clause, each of whose nodes `node` resolves. -/
def ClauseForm.consulted (node : F → Except Error N) (looksUp : F → List TermForm)
    (f : ClauseForm F) : List TermForm :=
  untilError node looksUp [f.substance, f.attr, f.mode]

/-- The terms that are looked up for a sentence, each of whose nodes `node` resolves. -/
def SentenceForm.consulted (node : F → Except Error N) (looksUp : F → List TermForm)
    (f : SentenceForm F) : List TermForm :=
  untilError (ClauseForm.resolve node) (ClauseForm.consulted node looksUp) f.clauses

end Nodes

/-- The terms that are looked up for a sentence over words. -/
def Context.consulted (c : Context) (f : SentenceForm WordForm) : List TermForm :=
  f.consulted (WordForm.resolve c) (WordForm.consulted c)

/-- The terms that are looked up for a proposition. -/
def PropositionForm.consulted (c : Context) : PropositionForm → List TermForm
  | word f => f.consulted c
  | sentence f => c.consulted f
  | superSentence f => f.consulted c.sentence c.consulted

/-- The terms that are looked up for a part. -/
def PartForm.consulted (c : Context) : PartForm → List TermForm
  | term f => f.consulted c
  | morpheme f => f.consulted c
  | clause f => f.consulted (WordForm.resolve c) (WordForm.consulted c)
  | superClause f => f.consulted c.sentence c.consulted
  | proposition f => f.consulted c

/-- The terms that are looked up for a text. -/
def TextForm.consulted (c : Context) (f : TextForm) : List TermForm :=
  untilError (·.resolve c) (·.consulted c) f.members

/-- The terms that are looked up for a link: those of the target, then those of the steps. -/
def AnchorForm.consulted (c : Context) (f : AnchorForm) : List TermForm :=
  f.target.consulted c ++
    if (f.target.resolve c).isOk then untilError (·.resolve c) (·.consulted c) f.steps else []

/-- The terms that are looked up for a member of a source text and its links. -/
def MemberForm.consulted (c : Context) (f : MemberForm) : List TermForm :=
  f.proposition.consulted c ++
    match f.proposition.resolve c with
    | .ok member => untilError (·.resolve c member) (·.consulted c) f.anchors
    | .error _ => []

/-- The terms that are looked up for a source text. -/
def BlockForm.consulted (c : Context) (f : BlockForm) : List TermForm :=
  untilError (·.resolve c) (·.consulted c) f.members

/-- **The terms that are looked up for an expression**, in this order. -/
def ExpressionForm.consulted (c : Context) : ExpressionForm → List TermForm
  | part f => f.consulted c
  | text f => f.consulted c
  | hypertext blocks => untilError (·.resolve c) (·.consulted c) blocks

/-- **The terms that are looked up when a text is read**; none if it is too long or has no form. -/
def Reader.consulted (r : Reader) (source input : String) : List TermForm :=
  if r.limits.maxBytes < input.utf8ByteSize then []
  else
    match form? input.toList with
    | none => []
    | some form => form.consulted ⟨r.dictionary, r.limits.maxNodes, source, input.toList⟩

/-! ## Requests -/

/-- **What a dictionary is asked for.** -/
inductive Request
  | term (script : String)
  | terms
  | related (t : TermHandle) (kind : String)
  | parse (limits : Limits) (source input : String)

/-- The scripts that are looked up for a request, in this order. -/
def Request.scripts (d : Dictionary) : Request → List String
  | term script => [script]
  | terms => d.terms.map (·.script)
  | related t kind => untilError d.term ([·]) (t.term.relations.get kind)
  | parse limits source input => (Reader.consulted ⟨d, limits⟩ source input).map (·.script)

/-- The lookups for requests to dictionaries, one request after the other. -/
def Request.lookups {ι : Type} (ds : ι → Dictionary) (requests : List (ι × Request)) :
    List (Lookup ι) :=
  requests.flatMap fun (i, request) => (request.scripts (ds i)).map (⟨i, ·⟩)

end Metalanguage
