import Mathlib.Data.List.Forall2
import Mathlib.Data.Set.Image
import Metalanguage.Proofs.Grammar.Derivation
import Metalanguage.Proofs.Grammar.Productions

/-!
# Proofs/Grammar/Unambiguous — a text has one derivation

A whole text is read as one form, so it is enough that a form tells its derivation: `Faithful` says
so of a grammar, whatever the text. Sequences and repetitions of faithful grammars are faithful, and
a choice is where its alternatives share no value. Two rules take more than that: the members of a
source text are told apart by their links, and a term in brackets from one without by its place.
-/

namespace Metalanguage

namespace Grammar

variable {α β : Type}

/-- **A value tells its derivation.** -/
def Faithful (g : Grammar α) : Prop := Relator.LeftUnique g.Gives

/-- A text without content has one derivation. -/
theorem Faithful.empty : Faithful .empty := fun _ _ _ _ _ => rfl

/-- A script is its token. -/
theorem Faithful.script : Faithful .script := by
  intro t s u ht hu
  exact Subtype.ext (String.ofList_injective (ht.script.symm.trans hu.script))

/-- The pieces of a literal can be told from their text: an escape never reads as two pieces. -/
theorem Faithful.literal : Faithful .literal := by
  intro t l u ht hu
  have hbody := congrArg Literal.raw (ht.literal.symm.trans hu.literal)
  exact LiteralPiece.body_injective (String.ofList_injective hbody)

/-- **In a row**: each value of a pair tells its derivation. -/
theorem Faithful.seq {first : Grammar α} {second : Grammar β} (h : Faithful first)
    (h' : Faithful second) : Faithful (.seq first second) := by
  intro t x u ht hu
  exact Prod.ext (h ht.seq.1 hu.seq.1) (h' ht.seq.2 hu.seq.2)

/-- **One after the other**: each value of a list tells its round. -/
theorem Faithful.many {body : Grammar α} (h : Faithful body) : Faithful (.many body) :=
  fun _ _ _ ht hu => List.left_unique_forall₂' h ht.many hu.many

theorem Faithful.named {g : Grammar α} (h : Faithful g) (rule : Rule) : Faithful (.named rule g) :=
  fun _ _ _ ht hu => h ht.named hu.named

theorem Faithful.placed {g : Grammar α} (h : Faithful g) : Faithful (.placed g) :=
  fun _ _ _ ht hu => h ht.placed hu.placed

/-- Only the values that the body gives must be kept apart. -/
theorem Faithful.map_of {g : Grammar α} (h : Faithful g) {f : α → β}
    (hf : ∀ {t u x y}, g.Gives t x → g.Gives u y → f x = f y → x = y) : Faithful (.map f g) := by
  intro t y u ht hu
  obtain ⟨x, hx, rfl⟩ := ht.map
  obtain ⟨x', hx', heq⟩ := hu.map
  exact h hx (hf hx hx' heq.symm ▸ hx')

/-- A renaming that forgets nothing leaves the derivation known. -/
theorem Faithful.map {g : Grammar α} (h : Faithful g) {f : α → β} (hf : Function.Injective f) :
    Faithful (.map f g) := h.map_of fun _ _ heq => hf heq

/-- The alternatives share no value. -/
theorem Faithful.either {first second : Grammar α} (h : Faithful first) (h' : Faithful second)
    (hdisjoint : ∀ {t u x}, first.Gives t x → second.Gives u x → False) :
    Faithful (.either first second) := by
  intro t x u ht hu
  rcases ht.either with ⟨t, rfl, ht⟩ | ⟨t, rfl, ht⟩ <;>
    rcases hu.either with ⟨u, rfl, hu⟩ | ⟨u, rfl, hu⟩
  · exact congrArg Sum.inl (h ht hu)
  · exact (hdisjoint ht hu).elim
  · exact (hdisjoint hu ht).elim
  · exact congrArg Sum.inr (h' ht hu)

theorem Faithful.markRight {g : Grammar α} (h : Faithful g) (m : Char) :
    Faithful (.seqRight (.mark m) g) := by
  intro t x u ht hu
  exact Prod.ext rfl (h ht.seqRight hu.seqRight)

theorem Faithful.between {g : Grammar α} (h : Faithful g) (opening closing : Char) :
    Faithful (.between opening closing g) := by
  intro t x u ht hu
  exact Prod.ext rfl (Prod.ext (h ht.between hu.between) rfl)

/-- What is there is told from what is not by the value. -/
theorem Faithful.optional {g : Grammar α} (h : Faithful g) : Faithful (.optional g) := by
  refine (h.map fun _ _ => Option.some.inj).either (Faithful.empty.map fun _ _ _ => rfl) ?_
  intro t u x ht hu
  obtain ⟨y, -, rfl⟩ := ht.map
  obtain ⟨-, -, heq⟩ := hu.map
  cases heq

theorem cons_injective : Function.Injective fun ((x, xs) : α × List α) => x :: xs := by
  rintro ⟨x, xs⟩ ⟨y, ys⟩ h
  obtain ⟨rfl, rfl⟩ := List.cons.inj h
  rfl

theorem Faithful.some1 {g : Grammar α} (h : Faithful g) : Faithful (.some1 g) :=
  (h.seq h.many).map cons_injective

/-- Separators have one derivation each. -/
theorem Faithful.separated {g : Grammar α} (h : Faithful g) (separator : Char) :
    Faithful (.separated separator g) := (h.seq (h.markRight separator).many).map cons_injective

/-- A value tells its derivation, and is one of these. -/
structure FaithfulIn (g : Grammar α) (values : Set α) : Prop where
  faithful : Faithful g
  mem : ∀ {t x}, g.Gives t x → x ∈ values

/-- A form that its value shows is known to be in the values of that form. -/
theorem Faithful.mapIn {g : Grammar α} (h : Faithful g) {f : α → β} (hf : Function.Injective f) :
    FaithfulIn (.map f g) (Set.range f) where
  faithful := h.map hf
  mem hx := by
    obtain ⟨y, -, rfl⟩ := hx.map
    exact Set.mem_range_self y

/-- **A choice whose alternatives share no value** is told by the value. -/
theorem FaithfulIn.either {g g' : Grammar α} {values values' : Set α} (h : FaithfulIn g values)
    (h' : FaithfulIn g' values') (hdisjoint : ∀ x ∈ values', x ∉ values) :
    FaithfulIn (.either g g') (values ∪ values') where
  faithful := h.faithful.either h'.faithful fun ht hu => hdisjoint _ (h'.mem hu) (h.mem ht)
  mem hx := by
    rcases hx.either with ⟨u, -, hu⟩ | ⟨u, -, hu⟩
    · exact .inl (h.mem hu)
    · exact .inr (h'.mem hu)

end Grammar

namespace Productions

open Grammar

/-! ## Words, clauses and sentences -/

theorem faithful_script : Faithful script := Faithful.script.named _

theorem faithful_literals : Faithful (.many literal) := (Faithful.literal.named _).many

/-- A term's form shows its place and its script. -/
theorem termForm_injective :
    Function.Injective fun ((range, script) : ByteRange × String) => TermForm.mk range script := by
  rintro ⟨range, script⟩ ⟨range', script'⟩ h
  cases h
  rfl

theorem faithful_term : Faithful term :=
  ((faithful_script.between _ _).named _).placed.map termForm_injective

theorem faithful_bareTerm : Faithful bareTerm := faithful_script.placed.map termForm_injective

theorem faithful_morpheme : Faithful morpheme :=
  (((faithful_term.separated _).between _ _).map fun _ _ => MorphemeForm.mk.inj).named _

/-- The form of a word shows whether it has a mode. -/
theorem faithful_word : Faithful word := by
  have hmorphemes := faithful_morpheme.seq (faithful_morpheme.markRight '*').optional
  refine (((hmorphemes.between _ _).seq faithful_literals).map ?_).named _
  rintro ⟨⟨substance, mode⟩, literals⟩ ⟨⟨substance', mode'⟩, literals'⟩ h
  cases h
  rfl

section Nodes

variable {F : Type}

/-- A clause shows its three nodes. -/
theorem faithful_clauseOver {node : Grammar F} (h : Faithful node) (rule : Rule) :
    Faithful (clauseOver rule node) := by
  have hnodes := h.seq ((h.seq (h.markRight '*')).markRight '*')
  refine ((hnodes.between _ _).map ?_).named _
  rintro ⟨substance, attr, mode⟩ ⟨substance', attr', mode'⟩ h
  cases h
  rfl

/-- A sentence shows its clauses in the order of the text. -/
theorem faithful_sentenceOver {clause : Grammar (ClauseForm F)} (h : Faithful clause)
    (rule : Rule) : Faithful (sentenceOver rule clause) := by
  refine ((((h.separated _).between _ _).seq faithful_literals).map ?_).named _
  rintro ⟨clauses, literals⟩ ⟨clauses', literals'⟩ h
  cases h
  rfl

end Nodes

theorem faithful_clause : Faithful clause := faithful_clauseOver faithful_word _

theorem faithful_sentence : Faithful sentence := faithful_sentenceOver faithful_clause _

theorem faithful_superClause : Faithful superClause := faithful_clauseOver faithful_sentence _

/-- Hence also on the upper level. -/
theorem faithful_superSentence : Faithful superSentence :=
  faithful_sentenceOver faithful_superClause _

/-! ## Members and steps -/

/-- The three forms of a proposition are three constructors of its form ... -/
theorem faithful_proposition : Faithful proposition := by
  have hlower := (faithful_sentence.mapIn fun _ _ => PropositionForm.sentence.inj).either
    (faithful_word.mapIn fun _ _ => PropositionForm.word.inj) (by simp)
  have hupper := faithful_superSentence.mapIn fun _ _ => PropositionForm.superSentence.inj
  exact (hupper.either hlower (by simp [or_imp, forall_and])).faithful

/-- ... as are the seven kinds of a step. -/
theorem faithful_pathStep : Faithful pathStep := by
  have hproposition : Function.Injective PartForm.proposition := fun _ _ =>
    PartForm.proposition.inj
  have hterm := (faithful_morpheme.mapIn fun _ _ => PartForm.morpheme.inj).either
    (faithful_term.mapIn fun _ _ => PartForm.term.inj) (by simp)
  have hword := (faithful_word.mapIn (hproposition.comp fun _ _ => PropositionForm.word.inj)).either
    hterm (by simp [or_imp, forall_and])
  have hclause := (faithful_clause.mapIn fun _ _ => PartForm.clause.inj).either hword
    (by simp [or_imp, forall_and])
  have hsuperClause := (faithful_superClause.mapIn fun _ _ => PartForm.superClause.inj).either
    hclause (by simp [or_imp, forall_and])
  have hsentence := (faithful_sentence.mapIn
    (hproposition.comp fun _ _ => PropositionForm.sentence.inj)).either hsuperClause
      (by simp [or_imp, forall_and])
  exact ((faithful_superSentence.mapIn
    (hproposition.comp fun _ _ => PropositionForm.superSentence.inj)).either hsentence
      (by simp [or_imp, forall_and])).faithful

/-! ## Texts and hypertexts -/

theorem faithful_text : Faithful text :=
  (((faithful_proposition.between _ _).some1.between _ _).map fun _ _ => TextForm.mk.inj).named _

/-- A link shows its steps and its target. -/
theorem faithful_anchor : Faithful anchor := by
  refine (((faithful_pathStep.markRight _).many.seq faithful_text).map ?_).named _
  rintro ⟨steps, target⟩ ⟨steps', target'⟩ h
  cases h
  rfl

/-- The members without links. -/
def plainMembers : Set MemberForm := {m | m.anchors = []}

/-- A member shows by its links, if it has any, by which rule it was read ... -/
theorem faithful_plainMember : FaithfulIn plainMember plainMembers where
  faithful := by
    refine ((faithful_proposition.between _ _).map ?_).named _
    intro p q h
    cases h
    rfl
  mem h := by
    obtain ⟨p, -, rfl⟩ := h.named.map
    rfl

/-- ... for the other rule asks for one at least. -/
theorem faithful_anchoredMember : FaithfulIn anchoredMember plainMembersᶜ where
  faithful := by
    refine (((faithful_proposition.seq faithful_anchor.some1).between _ _).map ?_).named _
    rintro ⟨proposition, anchors⟩ ⟨proposition', anchors'⟩ h
    cases h
    rfl
  mem h := by
    obtain ⟨⟨p, anchors⟩, hbody, rfl⟩ := h.named.map
    obtain ⟨⟨a, as⟩, -, rfl⟩ := hbody.between.seq.2.map
    exact List.cons_ne_nil a as

/-- A list is split in one way before the first entry outside of `s`. -/
theorem split_unique {α : Type} {s : Set α} {a b : α} {more more' : List α} (ha : a ∉ s)
    (hb : b ∉ s) : ∀ {xs ys : List α}, (∀ x ∈ xs, x ∈ s) → (∀ y ∈ ys, y ∈ s) →
      xs ++ a :: more = ys ++ b :: more' → xs = ys ∧ a = b ∧ more = more'
  | [], [], _, _, h => ⟨rfl, List.cons.inj h⟩
  | [], _ :: _, _, hys, h => absurd ((List.cons.inj h).1 ▸ hys _ List.mem_cons_self) ha
  | _ :: _, [], hxs, _, h => absurd ((List.cons.inj h).1 ▸ hxs _ List.mem_cons_self) hb
  | _ :: _, _ :: _, hxs, hys, h => by
    obtain ⟨rfl, htail⟩ := List.cons.inj h
    obtain ⟨rfl, hmore⟩ := split_unique ha hb (List.forall_mem_cons.1 hxs).2
      (List.forall_mem_cons.1 hys).2 htail
    exact ⟨rfl, hmore⟩

/-- The first member with a link is where the members without any before it end. -/
theorem faithful_hypertextBlock : Faithful hypertextBlock := by
  have hmember := faithful_anchoredMember.either faithful_plainMember fun _ => not_not.2
  have hmembers := faithful_plainMember.faithful.many.seq
    (faithful_anchoredMember.faithful.seq hmember.faithful.many)
  refine ((hmembers.between _ _).map_of ?_).named _
  rintro t u ⟨plain, anchored, more⟩ ⟨plain', anchored', more'⟩ ht hu h
  -- The members alone do not tell where the first rule of the three ends: their links do.
  have hfree : ∀ {ts l}, (many plainMember).Gives ts l → ∀ m ∈ l, m ∈ plainMembers :=
    fun hl _ hm => have ⟨_, hplain⟩ := hl.exists_of_mem hm; faithful_plainMember.mem hplain
  have hlist : plain ++ anchored :: more = plain' ++ anchored' :: more' := BlockForm.mk.inj h
  obtain ⟨rfl, rfl, rfl⟩ := split_unique (faithful_anchoredMember.mem ht.between.seq.2.seq.1)
    (faithful_anchoredMember.mem hu.between.seq.2.seq.1) (hfree ht.between.seq.1)
    (hfree hu.between.seq.1) hlist
  rfl

theorem faithful_hypertext : Faithful hypertext := faithful_hypertextBlock.some1.named _

/-! ## Expressions -/

/-- A term in brackets takes more of the text than its script. -/
theorem size_of_term {o : ℕ} {cs : List Char} {f : TermForm} (h : Spells term o cs f) :
    f.range = ⟨o, o + byteLength cs⟩ ∧ byteLength f.script.toList < byteLength cs := by
  obtain ⟨⟨range, s⟩, ⟨rfl, hterm⟩, rfl⟩ := h
  obtain ⟨blanks, xs, blanks', rfl, -, -, -, -, rfl⟩ := spells_between.1 hterm
  refine ⟨rfl, ?_⟩
  have hopening : '['.utf8Size = 1 := rfl
  simp only [String.toList_ofList, byteLength_cons, byteLength_append]
  omega

/-- Without brackets a term's place is as long as its script. -/
theorem size_of_bareTerm {o : ℕ} {cs : List Char} {f : TermForm} (h : Spells bareTerm o cs f) :
    f.range = ⟨o, o + byteLength cs⟩ ∧ byteLength f.script.toList = byteLength cs := by
  obtain ⟨⟨range, s⟩, ⟨rfl, -, -, rfl⟩, rfl⟩ := h
  exact ⟨rfl, by rw [String.toList_ofList]⟩

/-- **A term shows its brackets by its place**, which is two bytes longer than its script with them.
-/
theorem disjoint_term_bareTerm {t : term.Derivation} {u : bareTerm.Derivation} {f : TermForm}
    (ht : term.Gives t f) (hu : bareTerm.Gives u f) : False := by
  obtain ⟨o, cs, ht⟩ := ht.exists_spells
  obtain ⟨o', cs', hu⟩ := hu.exists_spells
  obtain ⟨hrange, hsize⟩ := size_of_term ht
  obtain ⟨hrange', hsize'⟩ := size_of_bareTerm hu
  obtain ⟨rfl, hstop⟩ := ByteRange.mk.inj (hrange.symm.trans hrange')
  omega

/-- A term in brackets and one without are told apart by how much of the text they take. -/
theorem faithful_terms {β : Type} {f : TermForm → β} (hf : Function.Injective f) :
    FaithfulIn (.either (.map f term) (.map f bareTerm)) (Set.range f) where
  faithful := by
    refine (faithful_term.map hf).either (faithful_bareTerm.map hf) ?_
    intro t u x ht hu
    obtain ⟨y, hy, rfl⟩ := ht.map
    obtain ⟨z, hz, heq⟩ := hu.map
    obtain rfl := hf heq
    exact disjoint_term_bareTerm hy hz
  mem hx := by
    rcases hx.either with ⟨u, -, hu⟩ | ⟨u, -, hu⟩ <;>
    · obtain ⟨y, -, rfl⟩ := hu.map
      exact Set.mem_range_self y

/-- All other kinds of expressions are told by the constructor of their form. -/
theorem faithful_anyExpression : Faithful anyExpression := by
  have hpart : Function.Injective ExpressionForm.part := fun _ _ => ExpressionForm.part.inj
  have hterm := faithful_terms (hpart.comp fun _ _ => PartForm.term.inj)
  have hmorpheme := (faithful_morpheme.mapIn (hpart.comp fun _ _ => PartForm.morpheme.inj)).either
    hterm (by simp)
  have hclause := (faithful_clause.mapIn (hpart.comp fun _ _ => PartForm.clause.inj)).either
    hmorpheme (by simp [or_imp, forall_and])
  have hsuperClause := (faithful_superClause.mapIn
    (hpart.comp fun _ _ => PartForm.superClause.inj)).either hclause
      (by simp [or_imp, forall_and])
  have hproposition := (faithful_proposition.mapIn
    (hpart.comp fun _ _ => PartForm.proposition.inj)).either hsuperClause
      (by simp [or_imp, forall_and])
  have htext := (faithful_text.mapIn fun _ _ => ExpressionForm.text.inj).either hproposition
    (by simp [or_imp, forall_and])
  exact ((faithful_hypertext.mapIn fun _ _ => ExpressionForm.hypertext.inj).either htext
    (by simp [or_imp, forall_and])).faithful

/-- The end of the text has no value, and one derivation. -/
theorem faithful_expression : Faithful expression := by
  intro t f u ht hu
  exact Prod.ext rfl (Prod.ext (faithful_anyExpression ht.named.seqRight.seqLeft
    hu.named.seqRight.seqLeft) rfl)

/-- **A whole text has one derivation**, and is read as the form that this gives. -/
theorem derivation_unique {text : List Char} {t u : expression.Derivation} {f g : ExpressionForm}
    (ht : expression.Stands t 0 text f) (hu : expression.Stands u 0 text g) : t = u := by
  obtain ⟨d, hd⟩ := read_expression.2 ht.spells
  obtain ⟨e, he⟩ := read_expression.2 hu.spells
  -- Both forms are what is read, places included.
  obtain ⟨rfl, -⟩ := Prod.mk.inj (Option.some.inj (hd.symm.trans he))
  exact faithful_expression ht.gives hu.gives

end Productions

end Metalanguage
