import Metalanguage.Proofs.Expression.Order
import Metalanguage.Proofs.Grammar.Change
import Metalanguage.Proofs.Grammar.Productions
import Metalanguage.Reader.Basic

/-!
# Proofs/Reader/Lockstep — the forms of related derivations are resolved alike

Two derivations that a change relates give two forms, and two contexts resolve these in lockstep: as
long as every builder answers alike for arguments that are alike (`Lockstep`), the whole readings have
outcomes that are. Each rule of the grammar has one lemma about how its forms are resolved, up to
`carries_anyExpression`. What it means to be alike is left open here.
-/

namespace Metalanguage

open List (Forall₂)

/-- **Two contexts whose builders answer alike** for arguments that are alike. -/
structure Lockstep (v : Variation) (same : Error → Error → Prop) (c c' : Context) where
  alike : {X : Type} → [Ord X] → X → X → Prop
  /-- What is alike on one level is alike as a part. -/
  embed : ∀ {X Y : Type} [Ord X] [Ord Y] {f : X → Y} (_ : ∀ a b, compare (f a) (f b) = compare a b)
    {a b : X}, alike a b → alike (f a) (f b)
  term : ∀ {f f' : TermForm}, f.script = f'.script →
    Outcomes v same alike (f.resolve c) (f'.resolve c')
  morpheme : ∀ {l m : List Term}, v.Lists alike l m →
    Outcomes v same alike (Morpheme.ofTerms l) (Morpheme.ofTerms m)
  word : ∀ {m m' : Morpheme} {mode mode' : Option Morpheme} {ls ls' : List Literal}, alike m m' →
    Option.Rel alike mode mode' → v.Literals ls ls' → alike (Word.mk m mode ls) ⟨m', mode', ls'⟩
  clause : ∀ {N : Type} [ClauseNode N] [LawfulNode N] {a a' b b' m m' : N}, alike a a' →
    alike b b' → alike m m' → Outcomes v same alike (Clause.of a b m) (Clause.of a' b' m')
  sentence : ∀ {N : Type} [ClauseNode N] [LawfulNode N] {l m : List (Clause N)}
    {ls ls' : List Literal}, v.Lists alike l m → v.Literals ls ls' →
      Outcomes v same (fun s t => alike (s.withLiterals ls) (t.withLiterals ls'))
        (Sentence.ofClauses c.maxNodes l) (Sentence.ofClauses c'.maxNodes m)
  text : ∀ {l m : List Proposition}, v.Sets (fun p q => alike p.toPart q.toPart) l m →
    Outcomes v same alike (Text.gather l) (Text.gather m)
  path : ∀ {l m : List Part}, Forall₂ alike l m →
    Outcomes v same alike (Path.ofSteps (l.map .part)) (Path.ofSteps (m.map .part))
  link : ∀ {s s' t t' : Text} {p p' : Path}, alike s s' → alike t t' → alike p p' →
    Outcomes v same alike (Hyperlink.along s t p) (Hyperlink.along s' t' p')
  hypertext : ∀ {l m : List Hyperlink}, v.Sets alike l m →
    Outcomes v same alike (Hypertext.ofLinks l) (Hypertext.ofLinks m)

namespace Productions

open Change

variable {v : Variation} {same : Error → Error → Prop} {c c' : Context} (k : Lockstep v same c c')

/-! ## Words -/

/-- A term is asked for by its script alone, with brackets ... -/
theorem carries_term : (termChange (v := v)).Carries fun f f' =>
    Outcomes v same k.alike (f.resolve c) (f'.resolve c') :=
  .map ((((Carries.script.named _).between _ _).named _).placed.mono fun h => k.term h)

/-- ... or without. -/
theorem carries_bareTerm : (bareTermChange (v := v)).Carries fun f f' =>
    Outcomes v same k.alike (f.resolve c) (f'.resolve c') :=
  .map ((Carries.script.named _).placed.mono fun h => k.term h)

/-- Terms in another order are sorted into the same one. -/
theorem carries_morpheme : (morphemeChange (v := v)).Carries fun f f' =>
    Outcomes v same k.alike (f.resolve c) (f'.resolve c') :=
  (Carries.map ((((carries_term k).separated _).between _ _).mono fun h =>
    (Outcomes.lists h).bind fun hterms => k.morpheme hterms)).named _

/-- **Words**: the morphemes are resolved in order; where both are alike, so are the words. -/
theorem carries_word : (wordChange (v := v)).Carries fun f f' =>
    Outcomes v same k.alike (f.resolve c) (f'.resolve c') := by
  have hmode := ((carries_morpheme k).seqRight (.mark '*')).optional
  have hmorphemes := ((carries_morpheme k).seq hmode).between '[' ']'
  refine (Carries.map ((hmorphemes.seq (.literals _)).mono ?_)).named _
  rintro ⟨⟨substance, mode⟩, literals⟩ ⟨⟨substance', mode'⟩, literals'⟩
    ⟨⟨hsubstance, hmode⟩, hliterals⟩
  refine hsubstance.bind fun halike => ?_
  cases hmode with
  | none => exact .ok (k.word halike .none hliterals)
  | some hmode => exact hmode.bind fun halike' => .ok (k.word halike (.some halike') hliterals)

/-! ## Clauses and sentences -/

section Nodes

variable {F N : Type} [ClauseNode N] [LawfulNode N] {resolve resolve' : F → Except Error N}

/-- **Clauses** over any nodes that are resolved alike are built alike. -/
theorem carries_clauseOver {node : Grammar F} {d : Change v node}
    (h : d.Carries fun f f' => Outcomes v same k.alike (resolve f) (resolve' f')) (rule : Rule) :
    (clauseOverChange d rule).Carries fun f f' =>
      Outcomes v same k.alike (f.resolve resolve) (f'.resolve resolve') := by
  have hnodes := h.seq ((h.seq (h.seqRight (.mark '*'))).seqRight (.mark '*'))
  refine (Carries.map ((hnodes.between '(' ')').mono ?_)).named _
  rintro ⟨substance, attr, mode⟩ ⟨substance', attr', mode'⟩ ⟨hsubstance, hattr, hmode⟩
  exact hsubstance.bind fun hsubstance => hattr.bind fun hattr => hmode.bind fun hmode =>
    k.clause hsubstance hattr hmode

/-- **Sentences** over any clauses that are resolved alike: the order of clauses may differ where
that of lists may. -/
theorem carries_sentenceOver {clause : Grammar (ClauseForm F)} {d : Change v clause}
    (h : d.Carries fun f f' =>
      Outcomes v same k.alike (f.resolve resolve) (f'.resolve resolve')) (rule : Rule) :
    (sentenceOverChange d rule).Carries fun f f' =>
      Outcomes v same k.alike (f.resolve c.maxNodes resolve) (f'.resolve c'.maxNodes resolve') := by
  have hclauses := (h.separated '+').between '[' ']'
  refine (Carries.map ((hclauses.seq (.literals _)).mono ?_)).named _
  rintro ⟨clauses, literals⟩ ⟨clauses', literals'⟩ ⟨hclauses, hliterals⟩
  exact (Outcomes.lists hclauses).bind fun hclauses =>
    (k.sentence hclauses hliterals).bind fun h => .ok h

end Nodes

theorem carries_clause : (clauseChange (v := v)).Carries fun f f' =>
    Outcomes v same k.alike (c.clause f) (c'.clause f') :=
  carries_clauseOver k (carries_word k) _

theorem carries_sentence : (sentenceChange (v := v)).Carries fun f f' =>
    Outcomes v same k.alike (c.sentence f) (c'.sentence f') :=
  carries_sentenceOver k (carries_clause k) _

theorem carries_superClause : (superClauseChange (v := v)).Carries fun f f' =>
    Outcomes v same k.alike (c.superClause f) (c'.superClause f') :=
  carries_clauseOver k (carries_sentence k) _

/-- The same two lemmas make the upper level, with sentences for words. -/
theorem carries_superSentence : (superSentenceChange (v := v)).Carries fun f f' =>
    Outcomes v same k.alike (c.superSentence f) (c'.superSentence f') :=
  carries_sentenceOver k (carries_superClause k) _

/-! ## Members and steps -/

/-- Propositions that are alike as parts. -/
abbrev AlikeMembers (p q : Proposition) : Prop := k.alike p.toPart q.toPart

/-- Two forms of members, resolved to members that are alike. -/
abbrev MembersAlike (f f' : PropositionForm) : Prop :=
  Outcomes v same (AlikeMembers k) (f.resolve c) (f'.resolve c')

/-- Two forms of parts, resolved to parts that are alike. -/
abbrev PartsAlike (f f' : PartForm) : Prop := Outcomes v same k.alike (f.resolve c) (f'.resolve c')

/-- A proposition of either form has an outcome as what is in it has one. -/
theorem carries_memberWord :
    (wordChange (v := v)).Carries fun f f' => MembersAlike k (.word f) (.word f') :=
  (carries_word k).mono fun h => h.bind fun h =>
    .ok (k.embed (f := Part.word) (fun _ _ => rfl) h)

theorem carries_memberSentence :
    (sentenceChange (v := v)).Carries fun f f' => MembersAlike k (.sentence f) (.sentence f') :=
  (carries_sentence k).mono fun h => h.bind fun h =>
    .ok (k.embed (f := Part.sentence) (fun _ _ => rfl) h)

theorem carries_memberSuperSentence : (superSentenceChange (v := v)).Carries fun f f' =>
    MembersAlike k (.superSentence f) (.superSentence f') :=
  (carries_superSentence k).mono fun h => h.bind fun h =>
    .ok (k.embed (f := Part.superSentence) (fun _ _ => rfl) h)

/-- Related derivations of a proposition have the same form, so one of the three cases applies to
both. -/
theorem carries_proposition : (propositionChange (v := v)).Carries (MembersAlike k) :=
  .either (.map (carries_memberSuperSentence k)) <|
  .either (.map (carries_memberSentence k)) (.map (carries_memberWord k))

variable {k} in
/-- As steps, propositions are alike if they are alike as members. -/
theorem MembersAlike.part {f f' : PropositionForm} (h : MembersAlike k f f') :
    PartsAlike k (.proposition f) (.proposition f') := h.bind fun h => .ok h

theorem carries_partTerm :
    (termChange (v := v)).Carries fun f f' => PartsAlike k (.term f) (.term f') :=
  (carries_term k).mono fun h => h.bind fun h => .ok (k.embed (f := Part.term) (fun _ _ => rfl) h)

theorem carries_partMorpheme :
    (morphemeChange (v := v)).Carries fun f f' => PartsAlike k (.morpheme f) (.morpheme f') :=
  (carries_morpheme k).mono fun h => h.bind fun h =>
    .ok (k.embed (f := Part.morpheme) (fun _ _ => rfl) h)

theorem carries_partClause :
    (clauseChange (v := v)).Carries fun f f' => PartsAlike k (.clause f) (.clause f') :=
  (carries_clause k).mono fun h => h.bind fun h =>
    .ok (k.embed (f := Part.clause) (fun _ _ => rfl) h)

theorem carries_partSuperClause : (superClauseChange (v := v)).Carries fun f f' =>
    PartsAlike k (.superClause f) (.superClause f') :=
  (carries_superClause k).mono fun h => h.bind fun h =>
    .ok (k.embed (f := Part.superClause) (fun _ _ => rfl) h)

/-- **Steps**, whichever part they are. -/
theorem carries_pathStep : (pathStepChange (v := v)).Carries (PartsAlike k) :=
  .either (.map ((carries_memberSuperSentence k).mono MembersAlike.part)) <|
  .either (.map ((carries_memberSentence k).mono MembersAlike.part)) <|
  .either (.map (carries_partSuperClause k)) <|
  .either (.map (carries_partClause k)) <|
  .either (.map ((carries_memberWord k).mono MembersAlike.part)) <|
  .either (.map (carries_partMorpheme k)) (.map (carries_partTerm k))

/-! ## Texts and links -/

/-- **Texts** gather their members as sets. -/
theorem carries_text : (textChange (v := v)).Carries fun f f' =>
    Outcomes v same k.alike (f.resolve c) (f'.resolve c') :=
  (Carries.map (((((carries_proposition k).between '/' '/').some1 rfl).between '{' '}').mono
    fun h => (Outcomes.sets h).bind fun h => k.text h)).named _

/-- Ways that are alike, to targets that are. -/
structure AlikeWays (w w' : Path × Text) : Prop where
  path : k.alike w.1 w'.1
  target : k.alike w.2 w'.2

/-- **A link** leads from members that are alike to targets that are, on ways that are. The target
is resolved first, then the steps. -/
theorem carries_anchor : (anchorChange (v := v)).Carries fun f f' => ∀ ⦃p q⦄, AlikeMembers k p q →
    Outcomes v same (AlikeWays k) (f.resolve c p) (f'.resolve c' q) := by
  have hsteps := ((carries_pathStep k).seqRight (.mark '>')).many rfl
  refine (Carries.map ((hsteps.seq (carries_text k)).mono ?_)).named _
  rintro ⟨steps, target⟩ ⟨steps', target'⟩ ⟨hsteps, htarget⟩ p q hpq
  refine htarget.bind fun htarget => (Outcomes.mapM hsteps).bind fun hsteps => ?_
  exact (k.path (.cons hpq hsteps)).bind fun hpath => .ok ⟨hpath, htarget⟩

/-- Members that are alike, with ways that are. -/
structure AlikeLinked (m m' : Proposition × List (Path × Text)) : Prop where
  member : AlikeMembers k m.1 m'.1
  ways : v.Sets (AlikeWays k) m.2 m'.2

/-- A member without links has no ways on either side ... -/
theorem carries_plainMember : (plainMemberChange (v := v)).Carries fun f f' =>
    Outcomes v same (AlikeLinked k) (f.resolve c) (f'.resolve c') :=
  (Carries.map (((carries_proposition k).between '/' '/').mono fun h =>
    h.bind fun h => .ok ⟨h, Variation.sets_of_forall₂ .nil⟩)).named _

/-- ... and one with links has them in lists that may differ as sets do. -/
theorem carries_anchoredMember : (anchoredMemberChange (v := v)).Carries fun f f' =>
    Outcomes v same (AlikeLinked k) (f.resolve c) (f'.resolve c') := by
  have hanchors := (carries_proposition k).seq ((carries_anchor k).some1 rfl)
  refine (Carries.map ((hanchors.between '/' '/').mono ?_)).named _
  rintro ⟨proposition, anchors⟩ ⟨proposition', anchors'⟩ ⟨hproposition, hanchors⟩
  refine hproposition.bind fun hmember => ?_
  exact (Outcomes.sets (hanchors.mono fun h => h hmember)).bind fun hways => .ok ⟨hmember, hways⟩

theorem carries_member : (memberChange (v := v)).Carries fun f f' =>
    Outcomes v same (AlikeLinked k) (f.resolve c) (f'.resolve c') :=
  (carries_anchoredMember k).either (carries_plainMember k)

/-- The members of a source text are those before its first link, the one with it and those behind,
in this order. -/
theorem forall₂_gives_blockMembers {t : hypertextBlock.Derivation} {f : BlockForm}
    (h : hypertextBlock.Gives t f) : Forall₂ member.Gives (blockMembers t) f.members := by
  obtain ⟨⟨plain, anchored, more⟩, hbody, rfl⟩ := h.named.map
  have hmembers := hbody.between
  refine List.rel_append (List.forall₂_map_left_iff.2 ?_)
    (.cons hmembers.seq.2.seq.1 hmembers.seq.2.seq.2.many)
  exact hmembers.seq.1.many.imp fun _ _ h => h

/-- **Source texts**: alike members are gathered into alike texts, and alike ways from them make
alike links. -/
theorem carries_hypertextBlock : (hypertextBlockChange (v := v)).Carries fun f f' =>
    Outcomes v same (v.Sets k.alike) (f.resolve c) (f'.resolve c') := by
  intro t u f f' htu hf hf'
  have hmembers := Variation.Sets.carry (carries_member k) htu (forall₂_gives_blockMembers hf)
    (forall₂_gives_blockMembers hf')
  refine (Outcomes.sets hmembers).bind fun hmembers => ?_
  refine (k.text (hmembers.map (f := (·.1)) (g := (·.1)) fun h => h.member)).bind fun hsource => ?_
  have hways := hmembers.flatMap (f := (·.2)) (g := (·.2)) fun h => h.ways
  refine Outcomes.sets (hways.mono fun h => ?_)
  exact k.link hsource h.target h.path

/-! ## Expressions -/

/-- **The forms of related derivations are resolved alike.** -/
theorem carries_anyExpression : (anyExpressionChange (v := v)).Carries fun f f' =>
    Outcomes v same k.alike (f.resolve c) (f'.resolve c') := by
  have hpart : ∀ {f f' : PartForm}, PartsAlike k f f' → Outcomes v same k.alike
      (ExpressionForm.resolve c (.part f)) (ExpressionForm.resolve c' (.part f')) := fun h =>
    h.bind fun h => .ok (k.embed (f := Expression.part) (fun _ _ => rfl) h)
  have hhypertext := (((carries_hypertextBlock k).some1 rfl).named .hypertext).mono fun h =>
    (Outcomes.sets h).bind fun h =>
      (k.hypertext (by simpa using h.flatMap fun h => h)).bind fun h =>
        .ok (k.embed (f := Expression.hypertext) (fun _ _ => rfl) h)
  have htext := (carries_text k).mono fun h => h.bind fun h =>
    .ok (k.embed (f := Expression.text) (fun _ _ => rfl) h)
  exact .either (.map hhypertext) <| .either (.map htext) <|
    .either (.map ((carries_proposition k).mono fun h => hpart h.part)) <|
    .either (.map ((carries_partSuperClause k).mono hpart)) <|
    .either (.map ((carries_partClause k).mono hpart)) <|
    .either (.map ((carries_partMorpheme k).mono hpart)) <|
    .either (.map ((carries_partTerm k).mono hpart))
      (.map ((carries_bareTerm k).mono fun h => hpart (h.bind fun h =>
        .ok (k.embed (f := Part.term) (fun _ _ => rfl) h))))

end Productions

/-! ## Whole texts -/

/-- **A derivation of the grammar generates a text** that holds its tokens with any blanks around
them. -/
def Generates (t : Productions.expression.Derivation) (text : List Char) : Prop :=
  Spaced (Productions.expression.tokens t) text

/-- Around the whole expression there may be blanks, and the end of the text is no token. -/
theorem generates_iff {t : Productions.expression.Derivation} {text : List Char} :
    Generates t text ↔ Spaced (Productions.anyExpression.tokens t.2.1) text := by
  have htokens : Productions.expression.tokens t = Productions.anyExpression.tokens t.2.1 :=
    List.append_nil _
  rw [Generates, htokens]

/-- A text that has the tokens gives a value from its very beginning. -/
theorem exists_stands_of_generates {t : Productions.expression.Derivation} {text : List Char}
    (h : Generates t text) : ∃ f, Productions.expression.Stands t 0 text f := by
  obtain ⟨blanks, xs, blanks', rfl, hblanks, hblanks', hxs⟩ :=
    Grammar.holds_of_spaced _ (generates_iff.1 h)
  obtain ⟨f, hf⟩ := hxs (0 + byteLength blanks)
  exact ⟨f, ((), f), ⟨[], blanks, xs ++ blanks', rfl, hblanks, rfl,
    ⟨(f, ()), ⟨xs, blanks', [], by simp, hblanks', hf, rfl⟩, rfl⟩⟩, rfl⟩

/-- **Whole texts are related** when their expressions are. -/
def Related (v : Variation) (t u : Productions.expression.Derivation) : Prop :=
  (Productions.anyExpressionChange (v := v)).rel t.2.1 u.2.1

namespace Reader

/-- **What is read is what a derivation gives**: no order of alternatives and no greed is left in
it. -/
theorem form?_eq_some_iff {text : List Char} {f : ExpressionForm} :
    form? text = some f ↔ ∃ t, Productions.expression.Stands t 0 text f := by
  rw [← Grammar.spells_iff_exists_stands, ← Productions.read_expression, form?,
    Option.map_eq_some_iff]
  constructor
  · rintro ⟨⟨g, d⟩, hread, rfl⟩
    exact ⟨d, hread⟩
  · rintro ⟨d, hread⟩
    exact ⟨(f, d), hread, rfl⟩

/-- The context that the form of a text is resolved in. -/
def context (r : Reader) (source input : String) : Context :=
  ⟨r.dictionary, r.limits.maxNodes, source, input.toList⟩

/-- What is generated is read as the form that the derivation gives. -/
theorem exists_gives_of_generates (r : Reader) (source : String) {input : String}
    {t : Productions.expression.Derivation} (ht : Generates t input.toList)
    (hbytes : input.utf8ByteSize ≤ r.limits.maxBytes) :
    ∃ f, Productions.anyExpression.Gives t.2.1 f ∧
      r.parse source input = f.resolve (r.context source input) := by
  obtain ⟨f, hf⟩ := exists_stands_of_generates ht
  refine ⟨f, hf.gives.named.seqRight.seqLeft, ?_⟩
  rw [parse, if_neg (Nat.not_lt.2 hbytes)]
  simp only [form?_eq_some_iff.2 ⟨t, hf⟩]
  rfl

/-- What is read is no longer than it may be, and generated by the grammar. -/
theorem exists_generates_of_parse {r : Reader} {source input : String} {x : Expression}
    (h : r.parse source input = .ok x) :
    input.utf8ByteSize ≤ r.limits.maxBytes ∧ ∃ t, Generates t input.toList := by
  rw [parse] at h
  split at h
  · cases h
  · next hbytes =>
    simp only at h
    split at h
    · cases h
    · next f hf =>
      obtain ⟨t, ht⟩ := form?_eq_some_iff.1 hf
      exact ⟨Nat.not_lt.1 hbytes, t, ht.spaced⟩

/-- **Whole texts of related derivations are read in lockstep.** -/
theorem outcome_parse {v : Variation} {same : Error → Error → Prop} {r r' : Reader}
    {source source' input input' : String}
    (k : Lockstep v same (r.context source input) (r'.context source' input'))
    {t u : Productions.expression.Derivation} (ht : Generates t input.toList)
    (hu : Generates u input'.toList) (htu : Related v t u)
    (hbytes : input.utf8ByteSize ≤ r.limits.maxBytes)
    (hbytes' : input'.utf8ByteSize ≤ r'.limits.maxBytes) :
    Outcomes v same k.alike (r.parse source input) (r'.parse source' input') := by
  obtain ⟨f, hf, hparse⟩ := r.exists_gives_of_generates source ht hbytes
  obtain ⟨f', hf', hparse'⟩ := r'.exists_gives_of_generates source' hu hbytes'
  rw [hparse, hparse']
  exact Productions.carries_anyExpression k htu hf hf'

end Reader

end Metalanguage
