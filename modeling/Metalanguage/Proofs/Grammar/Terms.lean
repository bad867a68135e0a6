import Metalanguage.Proofs.Grammar.Productions

/-!
# Proofs/Grammar/Terms — the terms of a form, and where they stand

The terms of a form are listed in the order of the text (`ExpressionForm.terms`). Each stands in its
brackets in the very stretch of the text that it gives as its place, and one begins only behind the
end of those before it (`Located`); only a script that is the whole expression has no brackets. Along
with that, a form has at least one entry wherever the grammar asks for one (`ExpressionForm.Shaped`).
`Lists g terms P` says both of whatever `g` spells, with one lemma for each way to combine grammars.
-/

namespace Metalanguage

/-! ## The terms of a form -/

namespace WordForm

/-- The terms of the substance, then those of the mode. -/
def terms (f : WordForm) : List TermForm :=
  f.substance.terms ++ f.mode.toList.flatMap MorphemeForm.terms

end WordForm

section Nodes

variable {F : Type} (node : F → List TermForm)

/-- The terms of the nodes of a clause. -/
def ClauseForm.terms (f : ClauseForm F) : List TermForm :=
  node f.substance ++ (node f.attr ++ node f.mode)

/-- The terms of the clauses of a sentence. -/
def SentenceForm.terms (f : SentenceForm F) : List TermForm :=
  f.clauses.flatMap (ClauseForm.terms node)

end Nodes

/-- The terms of a proposition. -/
def PropositionForm.terms : PropositionForm → List TermForm
  | word f => f.terms
  | sentence f => f.terms WordForm.terms
  | superSentence f => f.terms (SentenceForm.terms WordForm.terms)

/-- The terms of a part. -/
def PartForm.terms : PartForm → List TermForm
  | term f => [f]
  | morpheme f => f.terms
  | clause f => f.terms WordForm.terms
  | superClause f => f.terms (SentenceForm.terms WordForm.terms)
  | proposition f => f.terms

/-- The terms of a text. -/
def TextForm.terms (f : TextForm) : List TermForm := f.members.flatMap PropositionForm.terms

/-- The terms of a link: those of the steps, then those of the target. -/
def AnchorForm.terms (f : AnchorForm) : List TermForm :=
  f.steps.flatMap PartForm.terms ++ f.target.terms

/-- The terms of a member, then those of its links, as `link` lists them. -/
def MemberForm.termsBy (link : AnchorForm → List TermForm) (f : MemberForm) : List TermForm :=
  f.proposition.terms ++ f.anchors.flatMap link

/-- The terms of a source text with its links. -/
def BlockForm.termsBy (link : AnchorForm → List TermForm) (f : BlockForm) : List TermForm :=
  f.members.flatMap (MemberForm.termsBy link)

/-- The terms of an expression, where `link` lists those of a link. -/
def ExpressionForm.termsBy (link : AnchorForm → List TermForm) : ExpressionForm → List TermForm
  | part f => f.terms
  | text f => f.terms
  | hypertext blocks => blocks.flatMap (BlockForm.termsBy link)

/-- **The terms of an expression**, in the order of the text. -/
def ExpressionForm.terms : ExpressionForm → List TermForm := termsBy AnchorForm.terms

/-! ## The shape of a form -/

/-- A morpheme with a term. -/
def MorphemeForm.Shaped (f : MorphemeForm) : Prop := f.terms ≠ []

/-- A word of such morphemes. -/
def WordForm.Shaped (f : WordForm) : Prop := f.substance.Shaped ∧ ∀ m ∈ f.mode, m.Shaped

section Nodes

variable {F : Type} (node : F → Prop)

/-- A clause of such nodes. -/
structure ClauseForm.Shaped (f : ClauseForm F) : Prop where
  substance : node f.substance
  attr : node f.attr
  mode : node f.mode

/-- A sentence with a clause. -/
def SentenceForm.Shaped (f : SentenceForm F) : Prop :=
  f.clauses ≠ [] ∧ ∀ c ∈ f.clauses, ClauseForm.Shaped node c

end Nodes

/-- A proposition of such shape. -/
def PropositionForm.Shaped : PropositionForm → Prop
  | word f => f.Shaped
  | sentence f => f.Shaped WordForm.Shaped
  | superSentence f => f.Shaped (SentenceForm.Shaped WordForm.Shaped)

/-- A part of such shape. -/
def PartForm.Shaped : PartForm → Prop
  | term _ => True
  | morpheme f => f.Shaped
  | clause f => f.Shaped WordForm.Shaped
  | superClause f => f.Shaped (SentenceForm.Shaped WordForm.Shaped)
  | proposition f => f.Shaped

/-- A text with a member. -/
def TextForm.Shaped (f : TextForm) : Prop := f.members ≠ [] ∧ ∀ p ∈ f.members, p.Shaped

/-- A link of such shape. -/
structure AnchorForm.Shaped (f : AnchorForm) : Prop where
  steps : ∀ p ∈ f.steps, p.Shaped
  target : f.target.Shaped

/-- A member of such shape. -/
structure MemberForm.Shaped (f : MemberForm) : Prop where
  proposition : f.proposition.Shaped
  anchors : ∀ a ∈ f.anchors, a.Shaped

/-- A source text with a link. -/
structure BlockForm.Shaped (f : BlockForm) : Prop where
  exists_link : ∃ m ∈ f.members, m.anchors ≠ []
  members : ∀ m ∈ f.members, m.Shaped

/-- **An expression with an entry wherever there must be one.** -/
def ExpressionForm.Shaped : ExpressionForm → Prop
  | part f => f.Shaped
  | text f => f.Shaped
  | hypertext blocks => blocks ≠ [] ∧ ∀ b ∈ blocks, b.Shaped

/-! ## Places -/

/-- A script in square brackets, with any blanks within. -/
def Bracketed (script : String) (piece : List Char) : Prop :=
  ∃ blanks blanks', Blank blanks ∧ Blank blanks' ∧
    piece = '[' :: (blanks ++ script.toList ++ blanks' ++ [']'])

/-- **Where a term stands in a whole text**: its range is that of its brackets, or of its script
if that is all that there is beside blanks. -/
def TermForm.StandsIn (text : List Char) (t : TermForm) : Prop :=
  ∃ before piece after, text = before ++ piece ++ after ∧
    t.range = ⟨byteLength before, byteLength (before ++ piece)⟩ ∧
    (Bracketed t.script piece ∨ Blank before ∧ Blank after ∧ piece = t.script.toList)

/-- **Terms where they say that they stand**: each in brackets in its stretch of `cs`, which begins
behind `o` bytes, and one behind the other. -/
structure Located (o : ℕ) (cs : List Char) (ts : List TermForm) : Prop where
  placed : ∀ t ∈ ts, ∃ before piece after, cs = before ++ piece ++ after ∧
    t.range = ⟨o + byteLength before, o + byteLength (before ++ piece)⟩ ∧ Bracketed t.script piece
  ordered : ts.Pairwise fun t u => t.range.stop ≤ u.range.start

namespace Located

variable {o : ℕ} {cs xs ys : List Char} {ts us : List TermForm}

theorem nil (o : ℕ) (cs : List Char) : Located o cs [] := ⟨nofun, .nil⟩

/-- Terms stand at their places in a longer text too. -/
theorem within {before : List Char} (h : Located (o + byteLength before) cs ts)
    (after : List Char) : Located o (before ++ cs ++ after) ts := by
  refine ⟨fun t ht => ?_, h.ordered⟩
  obtain ⟨before', piece, after', rfl, hrange, hpiece⟩ := h.placed t ht
  refine ⟨before ++ before', piece, after' ++ after, by simp, ?_, hpiece⟩
  rw [hrange]
  simp only [byteLength_append, Nat.add_assoc]

/-- A term that is located in a stretch takes up some of it, and starts and stops within. -/
theorem bounds (h : Located o cs ts) {t : TermForm} (ht : t ∈ ts) :
    o ≤ t.range.start ∧ t.range.start < t.range.stop ∧ t.range.stop ≤ o + byteLength cs := by
  obtain ⟨before, piece, after, rfl, hrange, blanks, blanks', -, -, rfl⟩ := h.placed t ht
  have hpos : 0 < ('[').utf8Size := Char.utf8Size_pos _
  rw [hrange]
  simp only [byteLength_append, byteLength_cons]
  omega

/-- Terms of one piece of a text, then those of a later piece. -/
theorem append (h : Located o xs ts) (h' : Located (o + byteLength xs) ys us) :
    Located o (xs ++ ys) (ts ++ us) := by
  refine ⟨fun t ht => ?_, List.pairwise_append.2 ⟨h.ordered, h'.ordered, fun t ht u hu => ?_⟩⟩
  · have hfirst : Located o (xs ++ ys) ts := @within o xs ts [] h ys
    have hsecond : Located o (xs ++ ys) us := List.append_nil (xs ++ ys) ▸ h'.within []
    exact (List.mem_append.1 ht).elim (hfirst.placed t) (hsecond.placed t)
  · exact (h.bounds ht).2.2.trans (h'.bounds hu).1

/-- The same with something between the two pieces. -/
theorem append_around {between : List Char} (h : Located o xs ts)
    (h' : Located (o + byteLength (xs ++ between)) ys us) :
    Located o (xs ++ between ++ ys) (ts ++ us) :=
  append (@within o xs ts [] h between) h'

end Located

namespace Grammar

/-! ## What a grammar lists -/

variable {α β : Type}

/-- **The terms of a value** stand where they say in any text that is spelled for it, and the value
has a property. -/
def Lists (g : Grammar α) (terms : α → List TermForm) (P : α → Prop) : Prop :=
  ∀ ⦃o : ℕ⦄ ⦃cs : List Char⦄ ⦃x : α⦄, Spells g o cs x → Located o cs (terms x) ∧ P x

section Parts

variable {g : Grammar α} {g' : Grammar β} {terms : α → List TermForm} {terms' : β → List TermForm}
  {P : α → Prop} {P' : β → Prop}

/-- Where there can be no terms, none are listed. -/
theorem lists_nothing (g : Grammar α) : Lists g (fun _ => []) fun _ => True :=
  fun o cs _ _ => ⟨.nil o cs, trivial⟩

/-- A form made of others lists their terms. -/
theorem Lists.map (h : Lists g terms P) (φ : α → β) (hterms : ∀ x, terms' (φ x) = terms x)
    (hP : ∀ {x}, P x → P' (φ x)) : Lists (.map φ g) terms' P' := by
  rintro o cs _ ⟨x, hs, rfl⟩
  rw [hterms]
  exact ⟨(h hs).1, hP (h hs).2⟩

theorem Lists.named (h : Lists g terms P) (rule : Rule) : Lists (.named rule g) terms P :=
  fun _ _ _ hs => h hs

/-- Either alternative may be the one that is spelled, so both must list the terms of the value. -/
theorem Lists.either {second : Grammar α} (h : Lists g terms P) (h' : Lists second terms P) :
    Lists (.either g second) terms P
  | _, _, _, .inl hs => h hs
  | _, _, _, .inr hs => h' hs

/-- **In a row**: the terms of the first text come before those of the second, in their list as in
the text. -/
theorem Lists.seq (h : Lists g terms P) (h' : Lists g' terms' P') :
    Lists (.seq g g') (fun p => terms p.1 ++ terms' p.2) fun p => P p.1 ∧ P' p.2 := by
  rintro o _ ⟨x, y⟩ ⟨xs, blanks, ys, rfl, -, hxs, hys⟩
  exact ⟨(h hxs).1.append_around (h' hys).1, (h hxs).2, (h' hys).2⟩

/-- **One after the other**: the list goes round by round. -/
theorem Lists.many (h : Lists g terms P) :
    Lists (.many g) (·.flatMap terms) fun l => ∀ x ∈ l, P x := by
  intro o cs l hl
  induction hl with
  | nil => exact ⟨.nil _ _, nofun⟩
  | cons first _ _ ih =>
    exact ⟨(h first).1.append_around ih.1, List.forall_mem_cons.2 ⟨(h first).2, ih.2⟩⟩

/-- A mark holds no term. -/
theorem Lists.markRight (h : Lists g terms P) (m : Char) :
    Lists (seqRight (.mark m) g) terms P :=
  ((lists_nothing (.mark m)).seq h).map Prod.snd (fun _ => rfl) And.right

theorem Lists.between (h : Lists g terms P) (opening closing : Char) :
    Lists (.between opening closing g) terms P :=
  Lists.markRight ((h.seq (lists_nothing (.mark closing))).map Prod.fst
    (fun _ => (List.append_nil _).symm) And.left) opening

/-- What is left out has no terms. -/
theorem Lists.optional (h : Lists g terms P) :
    Lists (Grammar.optional g) (·.toList.flatMap terms) fun x? => ∀ x ∈ x?, P x :=
  .either (h.map _ (fun _ => List.flatMap_singleton _ _) fun hx _ hy => Option.mem_some.1 hy ▸ hx)
    ((lists_nothing .empty).map _ (fun _ => rfl) fun _ => nofun)

/-- One round or more: the form has an entry. -/
theorem Lists.some1 (h : Lists g terms P) :
    Lists (Grammar.some1 g) (·.flatMap terms) fun l => l ≠ [] ∧ ∀ x ∈ l, P x :=
  (h.seq h.many).map _ (fun _ => rfl) fun ⟨hx, hl⟩ =>
    ⟨List.cons_ne_nil _ _, List.forall_mem_cons.2 ⟨hx, hl⟩⟩

/-- Separators are not terms, and a list with them has an entry. -/
theorem Lists.separated (h : Lists g terms P) (separator : Char) :
    Lists (Grammar.separated separator g) (·.flatMap terms) fun l => l ≠ [] ∧ ∀ x ∈ l, P x :=
  (h.seq (h.markRight separator).many).map _ (fun _ => rfl) fun ⟨hx, hl⟩ =>
    ⟨List.cons_ne_nil _ _, List.forall_mem_cons.2 ⟨hx, hl⟩⟩

end Parts

end Grammar

namespace Productions

open Grammar

/-! ## Words -/

/-- **A term in its brackets** is where it says. -/
theorem lists_term : Lists term (fun f => [f]) fun _ => True := by
  rintro o cs _ ⟨⟨_, script⟩, ⟨rfl, hs⟩, rfl⟩
  obtain ⟨blanks, xs, blanks', rfl, hblanks, hblanks', -, -, rfl⟩ := spells_between.1 hs
  refine ⟨⟨fun t ht => ?_, List.pairwise_singleton _ _⟩, trivial⟩
  obtain rfl := List.mem_singleton.1 ht
  exact ⟨[], _, [], (List.append_nil _).symm, rfl, blanks, blanks', hblanks, hblanks', by simp⟩

/-- A morpheme has at least one term, as the grammar has no empty brackets. -/
theorem lists_morpheme : Lists morpheme MorphemeForm.terms MorphemeForm.Shaped :=
  .named (.map ((lists_term.separated '|').between '(' ')') MorphemeForm.mk
    (fun _ => (List.flatMap_singleton' _).symm) And.left) _

/-- The terms of a word are those of its substance and then of its mode; its literals hold none. -/
theorem lists_word : Lists word WordForm.terms WordForm.Shaped := by
  have hmode := (lists_morpheme.markRight '*').optional
  have hliterals := lists_nothing (.many literal)
  exact .named (.map (((lists_morpheme.seq hmode).between '[' ']').seq hliterals) _
    (fun _ => (List.append_nil _).symm) And.left) _

/-! ## Clauses and sentences -/

section Nodes

variable {F : Type} {node : Grammar F} {terms : F → List TermForm} {P : F → Prop}

/-- The nodes of a clause are listed as they are written: substance, attribute, mode. -/
theorem lists_clauseOver (h : Lists node terms P) (rule : Rule) :
    Lists (clauseOver rule node) (ClauseForm.terms terms) (ClauseForm.Shaped P) :=
  .named (.map ((h.seq ((h.seq (h.markRight '*')).markRight '*')).between '(' ')') _ (fun _ => rfl)
    fun ⟨hsubstance, hattr, hmode⟩ => ⟨hsubstance, hattr, hmode⟩) _

/-- A sentence has at least one clause. -/
theorem lists_sentenceOver {clause : Grammar (ClauseForm F)}
    (h : Lists clause (ClauseForm.terms terms) (ClauseForm.Shaped P)) (rule : Rule) :
    Lists (sentenceOver rule clause) (SentenceForm.terms terms) (SentenceForm.Shaped P) := by
  refine .named (.map (((h.separated '+').between '[' ']').seq (lists_nothing (.many literal))) _
    (fun _ => ?_) fun h => ?_) _
  · exact (List.append_nil _).symm
  · exact h.1

end Nodes

theorem lists_clause :
    Lists clause (ClauseForm.terms WordForm.terms) (ClauseForm.Shaped WordForm.Shaped) :=
  lists_clauseOver lists_word _

theorem lists_sentence :
    Lists sentence (SentenceForm.terms WordForm.terms) (SentenceForm.Shaped WordForm.Shaped) :=
  lists_sentenceOver lists_clause _

theorem lists_superClause : Lists superClause (ClauseForm.terms (SentenceForm.terms WordForm.terms))
    (ClauseForm.Shaped (SentenceForm.Shaped WordForm.Shaped)) :=
  lists_clauseOver lists_sentence _

/-- Two levels of the same. -/
theorem lists_superSentence :
    Lists superSentence (SentenceForm.terms (SentenceForm.terms WordForm.terms))
      (SentenceForm.Shaped (SentenceForm.Shaped WordForm.Shaped)) :=
  lists_sentenceOver lists_superClause _

/-! ## Texts -/

/-- A proposition lists the terms of its form. -/
theorem lists_proposition : Lists proposition PropositionForm.terms PropositionForm.Shaped :=
  .either (lists_superSentence.map _ (fun _ => rfl) id) <|
    .either (lists_sentence.map _ (fun _ => rfl) id) (lists_word.map _ (fun _ => rfl) id)

/-- A text has at least one member. -/
theorem lists_text : Lists text TextForm.terms TextForm.Shaped :=
  .named (.map ((lists_proposition.between '/' '/').some1.between '{' '}') TextForm.mk
    (fun _ => rfl) id) _

/-! ## Hypertexts -/

theorem lists_pathStep : Lists pathStep PartForm.terms PartForm.Shaped :=
  .either (lists_superSentence.map _ (fun _ => rfl) id) <|
    .either (lists_sentence.map _ (fun _ => rfl) id) <|
    .either (lists_superClause.map _ (fun _ => rfl) id) <|
    .either (lists_clause.map _ (fun _ => rfl) id) <|
    .either (lists_word.map _ (fun _ => rfl) id) <|
    .either (lists_morpheme.map _ (fun _ => rfl) id) (lists_term.map _ (fun _ => rfl) id)

/-- A link has its steps before its target in the text, and so it has in the list, whatever it
resolves first. -/
theorem lists_anchor : Lists anchor AnchorForm.terms AnchorForm.Shaped :=
  .named (.map ((lists_pathStep.markRight '>').many.seq lists_text) _ (fun _ => rfl)
    fun ⟨hsteps, htarget⟩ => ⟨hsteps, htarget⟩) _

theorem lists_plainMember :
    Lists plainMember (MemberForm.termsBy AnchorForm.terms) MemberForm.Shaped :=
  .named (.map (lists_proposition.between '/' '/') _ (fun _ => List.append_nil _)
    fun h => ⟨h, nofun⟩) _

/-- A member with links has at least one, and its own terms stand before theirs. -/
theorem lists_anchoredMember : Lists anchoredMember (MemberForm.termsBy AnchorForm.terms)
    fun f => f.anchors ≠ [] ∧ f.Shaped :=
  .named (.map ((lists_proposition.seq lists_anchor.some1).between '/' '/') _ (fun _ => rfl)
    fun ⟨hmember, hne, hanchors⟩ => ⟨hne, hmember, hanchors⟩) _

/-- A source text has at least one member with a link. -/
theorem lists_hypertextBlock :
    Lists hypertextBlock (BlockForm.termsBy AnchorForm.terms) BlockForm.Shaped := by
  have hanchored : Lists anchoredMember (MemberForm.termsBy AnchorForm.terms) MemberForm.Shaped :=
    fun _ _ _ hs => ⟨(lists_anchoredMember hs).1, (lists_anchoredMember hs).2.2⟩
  have hmembers := lists_plainMember.many.seq
    (lists_anchoredMember.seq (hanchored.either lists_plainMember).many)
  refine .named (.map (hmembers.between '{' '}') _ (fun _ => List.flatMap_append) ?_) _
  rintro ⟨plain, anchored, more⟩ ⟨hplain, ⟨hne, hshaped⟩, hmore⟩
  refine ⟨⟨anchored, by simp, hne⟩, fun m hm => ?_⟩
  rcases List.mem_append.1 hm with hm | hm
  · exact hplain m hm
  · exact List.forall_mem_cons.2 ⟨hshaped, hmore⟩ m hm

/-- A hypertext has at least one source text, and their terms do not mix. -/
theorem lists_hypertext :
    Lists hypertext (·.flatMap (BlockForm.termsBy AnchorForm.terms)) fun bs =>
      bs ≠ [] ∧ ∀ b ∈ bs, b.Shaped :=
  lists_hypertextBlock.some1.named _

/-! ## Whole texts -/

/-- An expression with brackets, or a script that is all of it. -/
theorem lists_anyExpression {o : ℕ} {cs : List Char} {f : ExpressionForm}
    (h : Spells anyExpression o cs f) : f.Shaped ∧ (Located o cs f.terms ∨
      ∃ script : String, cs = script.toList ∧
        f = .part (.term ⟨⟨o, o + byteLength cs⟩, script⟩)) := by
  have hlists {g : Grammar ExpressionForm} (hg : Lists g ExpressionForm.terms ExpressionForm.Shaped)
      (hs : Spells g o cs f) : f.Shaped ∧ (Located o cs f.terms ∨ ∃ script : String,
        cs = script.toList ∧ f = .part (.term ⟨⟨o, o + byteLength cs⟩, script⟩)) :=
    (hg hs).symm.imp_right .inl
  rcases h with h | h | h | h | h | h | h | ⟨_, ⟨⟨_, script⟩, ⟨rfl, -, -, hscript⟩, rfl⟩, rfl⟩
  · exact hlists (lists_hypertext.map _ (fun _ => rfl) id) h
  · exact hlists (lists_text.map _ (fun _ => rfl) id) h
  · exact hlists (lists_proposition.map _ (fun _ => rfl) id) h
  · exact hlists (lists_superClause.map _ (fun _ => rfl) id) h
  · exact hlists (lists_clause.map _ (fun _ => rfl) id) h
  · exact hlists (lists_morpheme.map _ (fun _ => rfl) id) h
  · exact hlists (lists_term.map _ (fun _ => rfl) id) h
  · exact ⟨trivial, .inr ⟨script, by rw [hscript, String.toList_ofList], rfl⟩⟩

/-- **The terms of a whole text**: each in brackets, unless one without brackets is all that there
is beside blanks, and each behind the ones before it. -/
theorem terms_of_spells {text : List Char} {f : ExpressionForm} (h : Spells expression 0 text f) :
    f.Shaped ∧ (∀ t ∈ f.terms, t.StandsIn text) ∧
      f.terms.Pairwise fun t u => t.range.start < u.range.start := by
  obtain ⟨blanks, cs, blanks', rfl, hblanks, hblanks', hcs⟩ := spells_expression.1 h
  obtain ⟨hshaped, hlocated | ⟨script, rfl, rfl⟩⟩ := lists_anyExpression hcs
  · have hwhole : Located 0 (blanks ++ cs ++ blanks') f.terms := hlocated.within blanks'
    rw [List.append_assoc] at hwhole
    refine ⟨hshaped, fun t ht => ?_, hwhole.ordered.imp_of_mem fun ht hu htu => ?_⟩
    · obtain ⟨before, piece, after, htext, hrange, hpiece⟩ := hwhole.placed t ht
      exact ⟨before, piece, after, htext, by simpa using hrange, .inl hpiece⟩
    · exact (hwhole.bounds ht).2.1.trans_le htu
  · refine ⟨trivial, List.forall_mem_singleton.2 ?_, List.pairwise_singleton _ _⟩
    exact ⟨blanks, script.toList, blanks', by simp, by simp, .inr ⟨hblanks, hblanks', rfl⟩⟩

end Productions

end Metalanguage
