import Metalanguage.Grammar.Productions
import Metalanguage.Proofs.Grammar.Reading

/-!
# Proofs/Grammar/Productions — the grammar of expressions reads all that it spells

Rule by rule, up to `reads_anyExpression` and whole texts (`read_expression`): the order of the
alternatives and the greed of the repetitions cost no text, because the levels of expressions open
different numbers of brackets and no mark goes on with what another one closes.

Members of texts and of hypertexts begin alike, whatever stands behind them. A member with links is
told from one without by what follows its proposition (`plainMember_read_eq_none`,
`anchoredMember_read_eq_none`), and a text from a hypertext by what follows its members.
-/

namespace Metalanguage.Productions

open Grammar

/-! ## Words -/

/-- A script goes on as long as there are script characters, so it is read whole where none follows.
-/
theorem reads_script : Reads script (Stops {c | Script.isScriptChar c = true}) :=
  (ReadsExactly.script.named _).reads

/-- A script opens no bracket. -/
theorem depth_script : HasDepth script {0} := by
  rintro o cs x ⟨hne, hcs, -⟩ rest
  cases cs with
  | nil => exact absurd rfl hne
  | cons c cs =>
    have hc := hcs c List.mem_cons_self
    have hother : ∀ d, Script.isScriptChar d = false → c ≠ d := by
      rintro _ hd rfl
      rw [hc] at hd
      cases hd
    simp [depth, isScriptChar_not_blank hc, hother '[' rfl, hother '(' rfl, hother '{' rfl]

/-- **Each level opens one bracket more than the level below**, and a term opens one. -/
theorem nested_term : ReadsNested term Any {1} where
  reads := ((ReadsExactly.between rfl rfl reads_script (by decide)).named _).placed.reads.map _
  depth := (((HasDepth.between (.inl rfl) _ depth_script).named _).placed).map _

theorem nested_bareTerm :
    ReadsNested bareTerm (Stops {c | Script.isScriptChar c = true}) {0} where
  reads := (ReadsExactly.script.named _).placed.reads.map _
  depth := (HasDepth.placed depth_script).map _

theorem nested_morpheme : ReadsNested morpheme Any {2} := by
  obtain ⟨hreads, hdepth⟩ := nested_term
  have hterms : Reads (separated '|' term) _ := hreads.separated rfl
  exact ⟨((ReadsExactly.between rfl rfl hterms (by decide)).reads.map _).named _,
    (((hdepth.separated _).between (.inr rfl) _).map _).named _⟩

/-- Literals are read whole where no other one follows. -/
theorem reads_literals : Reads (.many literal) (Stops {'<'}) := by
  refine (ReadsExactly.literal.named _).reads.many_of_any ?_
  rintro o _ x ⟨body, -, rfl, -⟩
  exact ⟨'<', rfl, rfl⟩

/-- A word opens three brackets, and may be followed by anything but a literal, which would be one
of its own. -/
theorem nested_word : ReadsNested word (Stops {'<'}) {3} := by
  obtain ⟨hreads, hdepth⟩ := nested_morpheme
  have hmode : Reads (optional (seqRight (.mark '*') morpheme)) (Stops {'*'}) :=
    (hreads.markRight rfl).optional ((Opens.mark rfl).seqRight _)
  have hmorphemes : ReadsExactly (between '[' ']' _) Any :=
    .between rfl rfl (hreads.seq_of_any hmode) (by decide)
  exact ⟨((hmorphemes.reads.seq_of_any reads_literals).map _).named _,
    ((((hdepth.seq _).between (.inl rfl) _).seq _).map _).named _⟩

/-! ## Clauses and sentences -/

section Nodes

variable {F : Type} {k : ℕ}

/-- A node ends before a star and before the closing bracket. -/
theorem nested_clauseOver {node : Grammar F} (h : ReadsNested node (Stops {'<'}) {k})
    (rule : Rule) : ReadsNested (clauseOver rule node) Any {k + 1} := by
  have hmode := h.reads.markRight (m := '*') rfl
  have hattr := (h.reads.seq_of_opens hmode ((Opens.mark rfl).seqRight _)
    (by simp)).markRight (m := '*') rfl
  have hnodes := h.reads.seq_of_opens hattr ((Opens.mark rfl).seqRight _) (by simp)
  exact ⟨((ReadsExactly.between rfl rfl hnodes (by decide)).reads.map _).named _,
    (((h.depth.seq _).between (.inr rfl) _).map _).named _⟩

/-- A sentence opens one more than its clauses: the plus signs between them go on with no clause. -/
theorem nested_sentenceOver {clause : Grammar (ClauseForm F)} (h : ReadsNested clause Any {k})
    (rule : Rule) : ReadsNested (sentenceOver rule clause) (Stops {'<'}) {k + 1} := by
  have hclauses : ReadsExactly (between '[' ']' (separated '+' clause)) Any :=
    .between rfl rfl (h.reads.separated rfl) (by decide)
  exact ⟨((hclauses.reads.seq_of_any reads_literals).map _).named _,
    ((((h.depth.separated _).between (.inl rfl) _).seq _).map _).named _⟩

end Nodes

/-- Four brackets are opened by a clause over words ... -/
theorem nested_clause : ReadsNested clause Any {4} := nested_clauseOver nested_word _

theorem nested_sentence : ReadsNested sentence (Stops {'<'}) {5} :=
  nested_sentenceOver nested_clause _

theorem nested_superClause : ReadsNested superClause Any {6} :=
  nested_clauseOver nested_sentence _

/-- ... and seven by a sentence over sentences. -/
theorem nested_superSentence : ReadsNested superSentence (Stops {'<'}) {7} :=
  nested_sentenceOver nested_superClause _

/-! ## Members and steps -/

/-- **The form of a proposition shows in the number of brackets**, so the order in which its forms
are tried costs no text. -/
theorem nested_proposition : ReadsNested proposition (Stops {'<'}) ({7} ∪ ({5} ∪ {3})) := by
  have hlower := (ReadsNested.map nested_sentence PropositionForm.sentence).either
    (.map nested_word PropositionForm.word) (by simp)
  exact (ReadsNested.map nested_superSentence _).either hlower (by simp)

/-- All seven kinds of a step open different numbers. -/
theorem reads_pathStep : Reads pathStep (Stops {'<'}) := by
  have hterm := (ReadsNested.map nested_term PartForm.term).before (Stops {'<'})
  have hmorpheme := ((ReadsNested.map nested_morpheme PartForm.morpheme).before _).either hterm
    (by simp)
  have hword := (ReadsNested.map nested_word (PartForm.proposition ∘ .word)).either hmorpheme
    (by simp)
  have hclause := ((ReadsNested.map nested_clause PartForm.clause).before _).either hword
    (by simp)
  have hsuperClause := ((ReadsNested.map nested_superClause PartForm.superClause).before _).either
    hclause (by simp)
  have hsentence := (ReadsNested.map nested_sentence (PartForm.proposition ∘ .sentence)).either
    hsuperClause (by simp)
  exact ((ReadsNested.map nested_superSentence _).either hsentence (by simp)).reads

/-! ## Texts -/

theorem reads_proposition : Reads proposition (Stops {'<'}) := ReadsNested.reads nested_proposition

/-- A slash ends a member, and no proposition goes on with one. -/
theorem reads_member : Reads (between '/' '/' proposition) Any :=
  (ReadsExactly.between rfl rfl reads_proposition (by decide)).reads

/-- A text opens one more than its deepest member might, which tells it from all propositions. -/
theorem nested_text : ReadsNested text Any {8} := by
  have hmembers := Reads.some1 reads_member (Opens.between rfl _ _)
  exact ⟨((ReadsExactly.between rfl rfl hmembers (by decide)).reads.map _).named _,
    ((HasDepth.curly _ _).map _).named _⟩

theorem opens_text : Opens text {'{'} := ((Opens.between rfl _ _).map _).named _

/-- The steps of a link end where its target opens. -/
theorem reads_anchor : Reads anchor Any := by
  have hsteps : Reads (.many (seqRight (.mark '>') pathStep)) (Stops ({'<'} ∪ {'>'})) :=
    (Reads.markRight rfl reads_pathStep).many_of_opens ((Opens.mark rfl).seqRight _) (by simp)
  have htext := ReadsNested.reads nested_text
  exact ((hsteps.seq_of_opens htext opens_text (by simp)).map _).named _

/-- A link begins with its first step or, if there is none, with its target. -/
theorem opens_anchor : Opens anchor ({'>'} ∪ {'{'}) :=
  ((((Opens.mark rfl).seqRight _).many_seq opens_text).map _).named _

/-! ## Hypertexts -/

/-- Links go on as long as one begins. -/
theorem reads_anchors : Reads (some1 anchor) (Stops ({'>'} ∪ {'{'})) :=
  .some1 reads_anchor opens_anchor

theorem opens_anchors : Opens (some1 anchor) ({'>'} ∪ {'{'}) := .some1 opens_anchor

/-- Behind a proposition its links are all read. -/
theorem reads_anchored : Reads (.seq proposition (some1 anchor)) (Stops ({'>'} ∪ {'{'})) :=
  .seq_of_opens reads_proposition reads_anchors opens_anchors (by simp)

/-- A member with links is not read as one without. -/
theorem plainMember_read_eq_none {o o' : ℕ} {cs rest : List Char} {m : MemberForm}
    (h : Spells anchoredMember o' cs m) :
    read plainMember (Cursor.skipBlanks ⟨o, cs ++ rest⟩) = none := by
  obtain ⟨⟨p, anchors⟩, hbetween, -⟩ := h
  obtain ⟨blanks, xs, blanks', rfl, hblanks, hblanks', hxs⟩ := spells_between.1 hbetween
  obtain ⟨ps, blanks'', as, rfl, hblanks'', hps, has⟩ := hxs
  obtain ⟨c, hc, hlead⟩ := opens_anchors has
  have hbehind : ∀ marks : Set Char, c ∉ marks →
      Stops marks (blanks'' ++ (as ++ (blanks' ++ '/' :: rest))) := fun marks hmarks =>
    (stops_blank_append hblanks'').2 (stops_append hlead hmarks _)
  rw [plainMember, read_named, read_map]
  simp only [List.cons_append, List.append_assoc, List.nil_append]
  rw [read_between_of_closing rfl rfl reads_proposition hblanks hps (hbehind _ ?_)
    (hbehind _ ?_), Option.map_none]
  · rcases hc with rfl | rfl <;> simp
  · rcases hc with rfl | rfl <;> simp

/-- A member without links is not read as one with them. -/
theorem anchoredMember_read_eq_none {o o' : ℕ} {cs rest : List Char} {m : MemberForm}
    (h : Spells plainMember o' cs m) :
    read anchoredMember (Cursor.skipBlanks ⟨o, cs ++ rest⟩) = none := by
  obtain ⟨p, hbetween, -⟩ := h
  obtain ⟨blanks, xs, blanks', rfl, hblanks, hblanks', hxs⟩ := spells_between.1 hbetween
  obtain ⟨p', hps⟩ := exists_spells_at proposition hxs (o + '/'.utf8Size + byteLength blanks)
  have hslash : ∀ marks : Set Char, '/' ∉ marks → Stops marks (blanks' ++ '/' :: rest) :=
    fun marks hmarks => stops_blank_cons hblanks' rfl hmarks rest
  have hbody := read_seq_eq_none reads_proposition hps (hslash _ (by simp))
    (Opens.read_eq_none opens_anchors (hslash _ (by simp)))
  rw [← Cursor.skipBlanks_append hblanks] at hbody
  rw [anchoredMember, read_named, read_map]
  simp only [List.cons_append, List.append_assoc, List.nil_append]
  rw [read_between_of_body rfl '/' hbody, Option.map_none]

/-- A slash on either side is the end of a member in any text. -/
theorem reads_plainMember : Reads plainMember Any :=
  (Reads.map reads_member _).named _

theorem opens_plainMember : Opens plainMember {'/'} := ((Opens.between rfl _ _).map _).named _

theorem reads_anchoredMember : Reads anchoredMember Any :=
  ((ReadsExactly.between rfl rfl reads_anchored (by decide)).reads.map _).named _

theorem opens_anchoredMember : Opens anchoredMember {'/'} :=
  ((Opens.between rfl _ _).map _).named _

/-- **The members of a source text**: those without links are read until one does not fit, and that
one has links. -/
theorem reads_hypertextBlock : Reads hypertextBlock Any := by
  have hmembers : Reads (.either anchoredMember plainMember) Any :=
    .either reads_anchoredMember reads_plainMember fun h _ => anchoredMember_read_eq_none h
  have hanchored := Reads.seq_of_any reads_anchoredMember
    (hmembers.many_of_any (.either opens_anchoredMember opens_plainMember))
  have hplain := Reads.many reads_plainMember opens_plainMember fun _ _ => trivial
  have hbody := hplain.seq hanchored fun {_ _ _ rest _} hy _ hblanks => by
    obtain ⟨xs, blanks', ys, rfl, -, hxs, -⟩ := hy
    refine ⟨fun _ => trivial, fun o => ?_⟩
    rw [Cursor.skipBlanks_append hblanks, List.append_assoc, List.append_assoc]
    exact plainMember_read_eq_none hxs
  exact ((ReadsExactly.between rfl rfl hbody (by decide)).reads.map _).named _

/-- A text is not read as a hypertext: no member has a link. -/
theorem hypertext_read_eq_none {o o' : ℕ} {cs rest : List Char} {t : TextForm}
    (h : Spells text o' cs t) : read hypertext (Cursor.skipBlanks ⟨o, cs ++ rest⟩) = none := by
  obtain ⟨l, hbetween, -⟩ := h
  obtain ⟨blanks, xs, blanks', rfl, hblanks, hblanks', ⟨⟨p, ps⟩, hxs, -⟩⟩ :=
    spells_between.1 hbetween
  obtain ⟨ys, blanks'', zs, rfl, hblanks'', hys, hzs⟩ := hxs
  have hplain : Spells (.many plainMember) _ (ys ++ blanks'' ++ zs) _ :=
    (Rounds.cons hys hblanks'' hzs).map fun {_ _ q} hq => ⟨q, hq, rfl⟩
  obtain ⟨l', hplain⟩ :=
    exists_spells_at (.many plainMember) hplain (o + '{'.utf8Size + byteLength blanks)
  have hclosing : ∀ marks : Set Char, '}' ∉ marks → Stops marks (blanks' ++ '}' :: rest) :=
    fun marks hmarks => stops_blank_cons hblanks' rfl hmarks rest
  have hopen := Opens.seq opens_anchoredMember (.many (.either anchoredMember plainMember))
  have hbody := read_seq_eq_none (.many_of_any reads_plainMember opens_plainMember) hplain
    (hclosing _ (by simp)) (hopen.read_eq_none (hclosing _ (by simp)))
  rw [← Cursor.skipBlanks_append hblanks] at hbody
  rw [hypertext, read_named, some1, read_map, read_seq, hypertextBlock, read_named, read_map]
  simp only [List.cons_append, List.append_assoc, List.nil_append] at hbody ⊢
  rw [read_between_of_body rfl '}' hbody]
  rfl

/-- A hypertext opens as many brackets as a text; that alone would not tell them apart. -/
theorem nested_hypertext : ReadsNested hypertext (Stops {'{'}) {8} where
  reads := (Reads.some1 reads_hypertextBlock (((Opens.between rfl _ _).map _).named _)).named _
  depth := (((((HasDepth.curly _ _).map _).named _).seq _).map _).named _

/-! ## Expressions -/

/-- What may go on with an expression: a literal, a source text, or a character of a script. -/
def continuations : Set Char := {'<', '{'} ∪ {c | Script.isScriptChar c = true}

/-- Where an expression ends. -/
abbrev Ends : List Char → Prop := Stops continuations

/-- **The grammar of expressions reads all that it spells**, where the expression ends. -/
theorem reads_anyExpression : Reads anyExpression Ends := by
  have hmono : ∀ {marks : Set Char}, marks ⊆ continuations → ∀ {rest}, Ends rest →
      Stops marks rest := fun hsub _ hrest c hc hmarks => hrest c hc (hsub hmarks)
  have hbareTerm := (ReadsNested.map nested_bareTerm (ExpressionForm.part ∘ .term)).mono
    (hmono fun _ => .inr)
  have hterm := ((ReadsNested.map nested_term (ExpressionForm.part ∘ .term)).before Ends).either
    hbareTerm (by simp)
  have hmorpheme := ((ReadsNested.map nested_morpheme (ExpressionForm.part ∘ .morpheme)).before
    Ends).either hterm (by simp)
  have hclause := ((ReadsNested.map nested_clause (ExpressionForm.part ∘ .clause)).before
    Ends).either hmorpheme (by simp)
  have hsuperClause := ((ReadsNested.map nested_superClause
    (ExpressionForm.part ∘ .superClause)).before Ends).either hclause (by simp)
  have hproposition : ReadsNested proposition Ends _ :=
    .mono nested_proposition (hmono (by simp [continuations]))
  have hparts := (hproposition.map (ExpressionForm.part ∘ .proposition)).either hsuperClause
    (by simp)
  have htext := ((ReadsNested.map nested_text ExpressionForm.text).before Ends).either hparts
    (by simp)
  have hhypertext : ReadsNested hypertext Ends _ :=
    .mono nested_hypertext (hmono (by simp [continuations]))
  refine (hhypertext.map ExpressionForm.hypertext).reads.either htext.reads
    fun {_ _ _ rest} hs _ => ?_
  rcases hs with ⟨t, ht, -⟩ | hs
  · rw [read_map, hypertext_read_eq_none ht, Option.map_none]
  · have hdepth := hparts.depth hs rest
    rw [read_map, hhypertext.depth.read_eq_none fun hcurly => ?_, Option.map_none]
    rw [Set.mem_singleton_iff.1 hcurly] at hdepth
    simp at hdepth

/-- A whole text is an expression with blanks around it. -/
theorem spells_expression {o : ℕ} {cs : List Char} {f : ExpressionForm} :
    Spells expression o cs f ↔
      ∃ blanks xs blanks', cs = blanks ++ (xs ++ blanks') ∧ Blank blanks ∧ Blank blanks' ∧
        Spells anyExpression (o + byteLength blanks) xs f := by
  constructor
  · rintro ⟨⟨-, f⟩, ⟨_, blanks, _, rfl, hblanks, rfl,
      ⟨⟨x, -⟩, ⟨xs, blanks', _, rfl, hblanks', hxs, rfl⟩, rfl⟩⟩, rfl⟩
    exact ⟨blanks, xs, blanks', by simp, hblanks, hblanks', hxs⟩
  · rintro ⟨blanks, xs, blanks', rfl, hblanks, hblanks', hxs⟩
    exact ⟨((), f), ⟨[], blanks, xs ++ blanks', rfl, hblanks, rfl,
      ⟨(f, ()), ⟨xs, blanks', [], by simp, hblanks', hxs, rfl⟩, rfl⟩⟩, rfl⟩

/-- An expression is read behind blanks, and then the end of the text. -/
theorem read_expression_eq (c : Cursor) : read expression c =
    (read anyExpression c.skipBlanks).bind fun (f, d) =>
      d.skipBlanks.finish?.map fun (_, e) => (f, e) := by
  rw [expression, read_named, seqRight, read_map, seqLeft, read_seq]
  simp only [read_empty, read_map, read_seq, read_named, read_finish, Option.bind_some]
  cases read anyExpression c.skipBlanks with
  | none => rfl
  | some result =>
    obtain ⟨f, d⟩ := result
    cases h : d.skipBlanks.finish? <;> simp [h]

/-- A whole text is read to its end. -/
theorem rest_of_read_expression {c d : Cursor} {f : ExpressionForm}
    (h : read expression c = some (f, d)) : d.rest = [] := by
  rw [read_expression_eq, Option.bind_eq_some_iff] at h
  obtain ⟨⟨g, e⟩, -, h⟩ := h
  obtain ⟨⟨u, e'⟩, hfinish, heq⟩ := Option.map_eq_some_iff.1 h
  obtain rfl := (Prod.mk.inj heq).2
  generalize e.skipBlanks = last at hfinish
  obtain ⟨_, _ | _⟩ := last <;> cases hfinish
  rfl

/-- **A whole text is read as what it spells**, and no other one is read. -/
theorem read_expression {cs : List Char} {f : ExpressionForm} :
    (∃ d, read expression (.start cs) = some (f, d)) ↔ Spells expression 0 cs f := by
  constructor
  · rintro ⟨d, h⟩
    obtain ⟨xs, hpass, hxs⟩ := spells_of_read expression h
    have hrest : cs = xs ++ d.rest := hpass.rest
    rw [rest_of_read_expression h, List.append_nil] at hrest
    exact hrest ▸ hxs
  · intro h
    obtain ⟨blanks, xs, blanks', rfl, hblanks, hblanks', hxs⟩ := spells_expression.1 h
    have hends : Ends blanks' := by
      rw [← List.append_nil blanks']
      exact (stops_blank_append hblanks').2 (stops_nil _)
    obtain ⟨d, hd, hskip⟩ := reads_anyExpression hxs hends
    rw [← Cursor.skipBlanks_append hblanks] at hd
    have hlast : Cursor.skipBlanks ⟨0 + byteLength blanks + byteLength xs, blanks'⟩ =
        ⟨0 + byteLength blanks + byteLength xs + byteLength blanks', []⟩ := by
      rw [← List.append_nil blanks', Cursor.skipBlanks_append hblanks', List.append_nil]
      rfl
    refine ⟨⟨0 + byteLength blanks + byteLength xs + byteLength blanks', []⟩, ?_⟩
    rw [read_expression_eq, Cursor.start, hd]
    simp only [Option.bind_some, hskip, hlast]
    rfl

end Metalanguage.Productions
