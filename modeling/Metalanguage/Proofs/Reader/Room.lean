import Metalanguage.Proofs.Expression.Room
import Metalanguage.Proofs.Reader.Resolved
import Metalanguage.Proofs.Reader.RoundTrip

/-!
# Proofs/Reader/Room — what is read is written in the room that it was read in

Whatever a production spells, what it is resolved to is written in no more bytes than were spelled:
blanks are dropped, and so is a member, a source text or a link that comes twice, and nothing is
added (`Productions.yields_of_spells`). The one exception is a script that stands for a term without
brackets. Along with its size, each production promises that what it is resolved to is built, of
terms of the dictionary and of literals as the grammar reads them.
-/

namespace Metalanguage

open Grammar Ordered

/-! ## Resolving in a part of the room -/

/-- What a form is resolved to, if it is, keeps to the room. -/
def Yields {F X : Type} (resolve : F → Except Error X) (P : ℕ → X → Prop) (n : ℕ) (f : F) : Prop :=
  ∀ x, resolve f = .ok x → P n x

section Shares

variable {F X : Type} {resolve : F → Except Error X} {P : ℕ → X → Prop} {n : ℕ} {l : List F}
  {m : List X}

/-- Entries that have some room to share are resolved each in its own. -/
theorem shared_of_mapM (h : Shared (Yields resolve P) n l) (hm : l.mapM resolve = .ok m) :
    Shared P n m :=
  h.of_forall₂ (mapM_eq_ok_iff.1 hm) fun hf hx => hf _ hx

/-- The same with some room beside each entry, say for its separator. -/
theorem shared_beside_of_mapM {b : ℕ} (h : Shared (Beside b (Yields resolve P)) n l)
    (hm : l.mapM resolve = .ok m) : Shared (Beside b P) n m :=
  h.of_forall₂ (mapM_eq_ok_iff.1 hm) fun ⟨a, ha, hf⟩ hx => ⟨a, ha, hf _ hx⟩

end Shares

/-- **Built, and written in at most so many bytes**, in either style. -/
structure WrittenIn {X : Type} (built : X → Prop) (text : Style → X → String) (n : ℕ) (x : X) :
    Prop where
  built : built x
  size : ∀ s, (text s x).utf8ByteSize ≤ n

/-- More room does no harm. -/
theorem WrittenIn.mono {X : Type} {built : X → Prop} {text : Style → X → String} {n m : ℕ} {x : X}
    (h : WrittenIn built text n x) (hnm : n ≤ m) : WrittenIn built text m x :=
  ⟨h.built, fun s => (h.size s).trans hnm⟩

/-- The same text in the same room for another object. -/
theorem WrittenIn.imp {X Y : Type} {built : X → Prop} {text : Style → X → String}
    {built' : Y → Prop} {text' : Style → Y → String} {n : ℕ} {x : X} {y : Y}
    (h : WrittenIn built text n x) (hbuilt : built x → built' y)
    (htext : ∀ s, text' s y = text s x) : WrittenIn built' text' n y :=
  ⟨hbuilt h.built, fun s => (congrArg String.utf8ByteSize (htext s)).trans_le (h.size s)⟩

/-- A stock that has the terms of the dictionary, and all literals that can be read. -/
structure Context.Supplies (c : Context) (k : Stock) : Prop where
  term : ∀ {t}, t ∈ c.dictionary.terms → k.term t
  literal : ∀ {l : Literal}, LiteralBody l.raw.toList → k.literal l

/-! ## Expressions in some room

What is built, and written in at most so many bytes, on each level. -/

section Rooms

variable (k : Stock) {N : Type} [ClauseNode N] (node : N → Prop)

abbrev TermIn : ℕ → Term → Prop := WrittenIn k.term fun _ t => t.canonical

abbrev MorphemeIn : ℕ → Morpheme → Prop := WrittenIn (Morpheme.Built k) fun _ m => m.canonical

abbrev NodeIn : ℕ → N → Prop := WrittenIn node fun s x => s.node x

abbrev ClauseIn : ℕ → Clause N → Prop :=
  WrittenIn (Clause.Built node) fun s c => s.choose c.canonical c.display

abbrev SentenceIn : ℕ → Sentence N → Prop :=
  WrittenIn (Sentence.Built k node) fun s t => s.choose t.canonical t.display

abbrev PartIn : ℕ → Part → Prop := WrittenIn (Part.Built k) Style.part

abbrev PropositionIn (n : ℕ) (p : Proposition) : Prop := PartIn k n p.toPart

abbrev TextIn : ℕ → Text → Prop :=
  WrittenIn (Text.Built k) fun s t => s.choose t.canonical t.display

abbrev ExpressionIn : ℕ → Expression → Prop :=
  WrittenIn (Expression.Built k) fun s x => s.choose x.canonical x.display

end Rooms

/-! ## Words -/

namespace Productions

variable {c : Context} {k : Stock} (hc : c.Supplies k)

include hc

/-- A term takes its script and two brackets, and is one of the dictionary. -/
theorem takes_term : Takes term (Yields (TermForm.resolve c) (TermIn k)) := by
  refine Takes.map ((takes_script.named _).between '[' ']' |>.named _ |>.placed) _ ?_
  rintro n ⟨range, script⟩ ⟨a, ha, rfl⟩ t ht
  have hscript : t.script = script := TermForm.script_of_resolve ht
  refine ⟨hc.term (TermForm.mem_of_resolve ht), fun _ => ?_⟩
  rw [Term.size_canonical, hscript]
  exact ha

/-- Sorting the terms of a morpheme keeps the sum of their sizes, and bars stand between them as
before. -/
theorem takes_morpheme : Takes morpheme (Yields (MorphemeForm.resolve c) (MorphemeIn k)) := by
  refine (((takes_term hc).separated '|').between '(' ')' |>.map _ ?_).named _
  rintro n terms ⟨a, ha, hterms⟩ m hm
  obtain ⟨resolved, hresolved, hm⟩ := bind_eq_ok_iff.1 hm
  have hshared := shared_beside_of_mapM hterms hresolved
  refine ⟨⟨resolved, hshared.forall fun ⟨_, _, ht⟩ => ht.built, hm⟩, fun s => ?_⟩
  have hsum := hshared.sum_beside_le (w := (·.canonical.utf8ByteSize)) fun ht => ht.size s
  rw [← ((Morpheme.terms_perm_of_ofTerms hm).map _).sum_eq] at hsum
  exact (Morpheme.size_canonical_le hsum).trans ha

/-- A literal is written again as it was: its escapes are kept. -/
theorem takes_literals : Takes (.many literal) fun n ls =>
    (∀ l ∈ ls, k.literal l) ∧ (ls.map (·.display.utf8ByteSize)).sum ≤ n := by
  have hshared := (takes_literal.named Rule.literal).many
  intro o cs ls h
  exact ⟨(hshared h).forall fun hl => hc.literal hl.2, (hshared h).sum_le fun hl => hl.1.le⟩

/-- The mode of a word has a star in front of it in both texts. -/
theorem takes_word : Takes word (Yields (WordForm.resolve c) (NodeIn (Word.Built k))) := by
  have hmorpheme := takes_morpheme hc
  refine ((((hmorpheme.seq (hmorpheme.markRight '*').optional).between '[' ']').seq
    (takes_literals hc)).map _ ?_).named _
  rintro n ⟨⟨substance, mode⟩, literals⟩
    ⟨a, b, hab, ⟨a', ha, p, q, hpq, hsubstance, hmode⟩, hliterals, hb⟩ w hw
  obtain ⟨m, hm, hw⟩ := bind_eq_ok_iff.1 hw
  have hfirst : Beside 1 (MorphemeIn k) (p + 1) m := ⟨p, Nat.le_refl _, hsubstance m hm⟩
  have hnone : Shared (Beside 1 (MorphemeIn k)) 0 [] := shared_nil
  suffices hword : Shared (Beside 1 (MorphemeIn k)) (a' + 1) w.morphemes ∧
      w.literals = literals by
    obtain ⟨hmorphemes, rfl⟩ := hword
    refine ⟨⟨hmorphemes.forall fun ⟨_, _, hm⟩ => hm.built, hliterals⟩, fun s => ?_⟩
    have hsum := hmorphemes.sum_beside_le (w := (·.canonical.utf8ByteSize))
      fun hm => hm.size .canonical
    have hcanonical := Word.size_canonical_le hsum
    have hnode := w.size_node_le (s := s)
    dsimp only at hb
    omega
  cases mode with
  | none =>
    cases hw
    exact ⟨(hnone.cons hfirst).mono (by omega), rfl⟩
  | some mode =>
    obtain ⟨m', hm', hw⟩ := bind_eq_ok_iff.1 hw
    obtain ⟨q', hq, hmode⟩ := hmode mode rfl
    cases hw
    have hsecond : Beside 1 (MorphemeIn k) (q' + 1) m' := ⟨q', Nat.le_refl _, hmode m' hm'⟩
    exact ⟨((hnone.cons hsecond).cons hfirst).mono (by omega), rfl⟩

end Productions

/-! ## Clauses and sentences -/

section Nodes

variable {F N : Type} [ClauseNode N] {resolve : F → Except Error N} {node : N → Prop}
  {g : Grammar F}

/-- A clause adds two stars and two brackets to its nodes. -/
theorem Productions.takes_clauseOver (hg : Takes g (Yields resolve (NodeIn node))) (rule : Rule) :
    Takes (clauseOver rule g) (Yields (ClauseForm.resolve resolve) (ClauseIn node)) := by
  refine (((hg.seq ((hg.seq (hg.markRight '*')).markRight '*')).between '(' ')').map _ ?_).named _
  rintro n ⟨substance, attr, mode⟩
    ⟨a, ha, p, q, hpq, hsubstance, q', hq', u, v, huv, hattr, v', hv', hmode⟩ d hd
  obtain ⟨x, hx, hd⟩ := bind_eq_ok_iff.1 hd
  obtain ⟨y, hy, hd⟩ := bind_eq_ok_iff.1 hd
  obtain ⟨z, hz, hd⟩ := bind_eq_ok_iff.1 hd
  have hxin := hsubstance x hx
  have hyin := hattr y hy
  have hzin := hmode z hz
  refine ⟨Clause.built_of_of ?_ hd, fun s => ?_⟩
  · simp only [List.forall_mem_cons]
    exact ⟨hxin.built, hyin.built, hzin.built, List.forall_mem_nil _⟩
  · have hxsize := hxin.size s
    have hysize := hyin.size s
    have hzsize := hzin.size s
    rw [Clause.size_choose, Clause.eq_of_of hd]
    dsimp only
    omega

/-- **The clauses of a sentence are sorted**, and an equal one is dropped; what is left takes no
more room than all of them. -/
theorem Productions.takes_sentenceOver [LawfulNode N] {c : Context} {k : Stock}
    (hc : c.Supplies k) {clause : Grammar (ClauseForm F)}
    (hclause : Takes clause (Yields (ClauseForm.resolve resolve) (ClauseIn node))) (rule : Rule)
    (limit : ℕ) : Takes (sentenceOver rule clause)
      (Yields (SentenceForm.resolve limit resolve) (SentenceIn k node)) := by
  refine ((((hclause.separated '+').between '[' ']').seq (takes_literals hc)).map _ ?_).named _
  rintro n ⟨clauses, literals⟩ ⟨a, b, hab, ⟨a', ha, hclauses⟩, hliterals, hb⟩ t ht
  obtain ⟨resolved, hresolved, ht⟩ := bind_eq_ok_iff.1 ht
  obtain ⟨u, hu, ht⟩ := bind_eq_ok_iff.1 ht
  cases ht
  change SentenceIn k node n (u.withLiterals literals)
  have hshared := shared_beside_of_mapM hclauses hresolved
  have hbuilt := hshared.forall fun ⟨_, _, hd⟩ => hd.built
  refine ⟨Sentence.built_withLiterals hbuilt hu hliterals, fun s => ?_⟩
  have hsum := hshared.sum_beside_le
    (w := fun d => (s.choose d.canonical d.display).utf8ByteSize) fun hd => hd.size s
  have hperm := Sentence.clauses_perm (Sentence.ofClauses_eq_ok_iff.1 hu).1
  rw [← (hperm.map _).sum_eq] at hsum
  have hsize := Sentence.size_choose_le (t := u.withLiterals literals) hsum
  have hkept : (u.withLiterals literals).literals = literals := rfl
  rw [hkept] at hsize
  dsimp only at hb
  omega

end Nodes

/-! ## Propositions and parts -/

/-- A form that is wrapped is resolved to what is wrapped. -/
theorem Yields.wrapped {F G X Y : Type} {resolve : F → Except Error X}
    {resolve' : G → Except Error Y} {P : ℕ → X → Prop} {Q : ℕ → Y → Prop} {ψ : X → Y} {n : ℕ}
    {f : F} {f' : G} (h : Yields resolve P n f)
    (hresolve : ∀ {y}, resolve' f' = .ok y → ∃ x, resolve f = .ok x ∧ ψ x = y)
    (hPQ : ∀ {x}, P n x → Q n (ψ x)) : Yields resolve' Q n f' := by
  intro y hy
  obtain ⟨x, hx, rfl⟩ := hresolve hy
  exact hPQ (h x hx)

/-- A wrapped outcome that succeeds is a wrapped value. -/
theorem exists_of_wrapped {X Y : Type} {x : Except Error X} {ψ : X → Y} {y : Y}
    (h : (do return ψ (← x)) = Except.ok y) : ∃ a, x = .ok a ∧ ψ a = y := by
  obtain ⟨a, ha, h⟩ := bind_eq_ok_iff.1 h
  cases h
  exact ⟨a, ha, rfl⟩

section Parts

variable {c : Context} {k : Stock} {n : ℕ}

/-- A part has the room of what it is. -/
theorem yields_term {f : TermForm} (h : Yields (TermForm.resolve c) (TermIn k) n f) :
    Yields (PartForm.resolve c) (PartIn k) n (.term f) :=
  h.wrapped exists_of_wrapped fun ht => ht.imp id fun s => by cases s <;> rfl

theorem yields_morpheme {f : MorphemeForm}
    (h : Yields (MorphemeForm.resolve c) (MorphemeIn k) n f) :
    Yields (PartForm.resolve c) (PartIn k) n (.morpheme f) :=
  h.wrapped exists_of_wrapped fun hm => hm.imp id fun s => by cases s <;> rfl

theorem yields_clause {f : ClauseForm WordForm}
    (h : Yields c.clause (ClauseIn (Word.Built k)) n f) :
    Yields (PartForm.resolve c) (PartIn k) n (.clause f) :=
  h.wrapped exists_of_wrapped fun hd => hd.imp id fun _ => rfl

theorem yields_superClause {f : ClauseForm (SentenceForm WordForm)}
    (h : Yields c.superClause (ClauseIn (Sentence.Built k (Word.Built k))) n f) :
    Yields (PartForm.resolve c) (PartIn k) n (.superClause f) :=
  h.wrapped exists_of_wrapped fun hd => hd.imp id fun _ => rfl

theorem yields_word {f : WordForm} (h : Yields (WordForm.resolve c) (NodeIn (Word.Built k)) n f) :
    Yields (PropositionForm.resolve c) (PropositionIn k) n (.word f) :=
  h.wrapped exists_of_wrapped fun hw => hw.imp id fun _ => rfl

theorem yields_sentence {f : SentenceForm WordForm}
    (h : Yields c.sentence (SentenceIn k (Word.Built k)) n f) :
    Yields (PropositionForm.resolve c) (PropositionIn k) n (.sentence f) :=
  h.wrapped exists_of_wrapped fun ht => ht.imp id fun _ => rfl

theorem yields_superSentence {f : SentenceForm (SentenceForm WordForm)}
    (h : Yields c.superSentence (SentenceIn k (Sentence.Built k (Word.Built k))) n f) :
    Yields (PropositionForm.resolve c) (PropositionIn k) n (.superSentence f) :=
  h.wrapped exists_of_wrapped fun ht => ht.imp id fun _ => rfl

theorem yields_proposition {f : PropositionForm}
    (h : Yields (PropositionForm.resolve c) (PropositionIn k) n f) :
    Yields (PartForm.resolve c) (PartIn k) n (.proposition f) :=
  h.wrapped exists_of_wrapped id

/-- **The text of some members**, of which those that come twice are written once. -/
theorem textIn_of_gather {members : List Proposition}
    (hmembers : Shared (Beside 2 (PropositionIn k)) n members) {t : Text}
    (h : Text.gather members = .ok t) : TextIn k (n + 2) t := by
  refine ⟨Text.built_of_gather (hmembers.forall fun ⟨_, _, hp⟩ => hp.built) h, fun s => ?_⟩
  have hkept : t.members.Subperm members := by
    rw [(Text.ofSet_eq_ok_iff.1 h).2]
    exact keepFirst_subperm members
  have hsum := hmembers.sum_beside_le
    (w := fun p : Proposition => (s.part p.toPart).utf8ByteSize) fun hp => hp.size s
  have hle := sum_map_le_of_subperm hkept fun p => (s.part p.toPart).utf8ByteSize + 2
  rw [Text.size_choose]
  omega

end Parts

namespace Productions

variable {c : Context} {k : Stock} (hc : c.Supplies k)

include hc

theorem takes_clause : Takes clause (Yields c.clause (ClauseIn (Word.Built k))) :=
  takes_clauseOver (takes_word hc) _

theorem takes_sentence : Takes sentence (Yields c.sentence (SentenceIn k (Word.Built k))) :=
  takes_sentenceOver hc (takes_clause hc) _ _

theorem takes_superClause : Takes superClause
    (Yields c.superClause (ClauseIn (Sentence.Built k (Word.Built k)))) :=
  takes_clauseOver (takes_sentence hc) _

/-- The upper level is the lower one over sentences. -/
theorem takes_superSentence : Takes superSentence
    (Yields c.superSentence (SentenceIn k (Sentence.Built k (Word.Built k)))) :=
  takes_sentenceOver hc (takes_superClause hc) _ _

theorem takes_proposition : Takes proposition
    (Yields (PropositionForm.resolve c) (PropositionIn k)) :=
  .either ((takes_superSentence hc).map _ yields_superSentence)
    (.either ((takes_sentence hc).map _ yields_sentence) ((takes_word hc).map _ yields_word))

/-- A step takes the room of its kind. -/
theorem takes_pathStep : Takes pathStep (Yields (PartForm.resolve c) (PartIn k)) := by
  refine .either ((takes_superSentence hc).map _ ?_) (.either ((takes_sentence hc).map _ ?_)
    (.either ((takes_superClause hc).map _ yields_superClause)
      (.either ((takes_clause hc).map _ yields_clause) (.either ((takes_word hc).map _ ?_)
        (.either ((takes_morpheme hc).map _ yields_morpheme)
          ((takes_term hc).map _ yields_term))))))
  · exact fun h => yields_proposition (yields_superSentence h)
  · exact fun h => yields_proposition (yields_sentence h)
  · exact fun h => yields_proposition (yields_word h)

/-! ## Texts -/

/-- **Equal members of a text are dropped**, so the others have room enough. -/
theorem takes_text : Takes text (Yields (TextForm.resolve c) (TextIn k)) := by
  have hmembers := ((takes_proposition hc).between '/' '/').some1
  refine ((hmembers.between '{' '}').map TextForm.mk ?_).named _
  rintro n forms ⟨a, ha, hforms⟩ t ht
  obtain ⟨members, hresolved, ht⟩ := bind_eq_ok_iff.1 ht
  exact (textIn_of_gather (shared_beside_of_mapM hforms hresolved) ht).mono ha

end Productions

/-! ## Hypertexts -/

section Links

/-- A way and a target, of which any link is written in the room. -/
structure WayIn (k : Stock) (n : ℕ) (way : Path × Text) : Prop where
  path : way.1.Built k
  target : way.2.Built k
  size : ∀ {source l}, Hyperlink.along source way.2 way.1 = .ok l → l.suffixSize ≤ n

/-- A member in the room that it was read in, with its ways. -/
def MemberIn (k : Stock) (n : ℕ) (m : Proposition × List (Path × Text)) : Prop :=
  ∃ a b, a + b + 2 ≤ n ∧ PropositionIn k a m.1 ∧ Shared (WayIn k) b m.2

/-- A link from a source text, in the room that it was read in. -/
structure LinkIn (k : Stock) (source : Text) (n : ℕ) (l : Hyperlink) : Prop where
  built : l.Built k
  source_eq : l.source = source
  size : l.suffixSize ≤ n

/-- Links from one source text, in the room that it was read in with them. -/
def LinksIn (k : Stock) (n : ℕ) (links : List Hyperlink) : Prop :=
  ∃ source a b, a + b ≤ n ∧ source.canonical.utf8ByteSize ≤ a ∧ Shared (LinkIn k source) b links

/-- A link keeps the steps of its path behind the first. -/
theorem Anchor.descent_of_path {a : Anchor} {first : Part} {steps : List Part} {path : Path}
    (hpath : path.steps = (first :: steps).map .part) (ha : path.anchor? = some a) :
    a.descent = steps := by
  have hsteps := (Path.steps_of_anchor? ha).symm.trans hpath
  rw [Anchor.steps, List.map_cons, List.map_cons] at hsteps
  exact List.map_injective_iff.2 (fun _ _ h => Expression.part.inj h) (List.cons.inj hsteps).2

/-- The sources of a hypertext are those of the lists that its links were in. -/
theorem Hypertext.sources_subset_of_ofLinks {lists : List (List Hyperlink)} {texts : List Text}
    {web : Hypertext} (hsources : List.Forall₂ (fun links t => ∀ l ∈ links, l.source = t) lists texts)
    (hweb : ofLinks lists.flatten = .ok web) : web.sources ⊆ texts := by
  intro t ht
  obtain ⟨l, hl, rfl⟩ := exists_link_of_mem_sources ht
  rw [(ofLinks_eq_ok_iff.1 hweb).2] at hl
  obtain ⟨links, hlinks, hl⟩ := List.mem_flatten.1 (mem_of_mem_keepLast hl)
  obtain ⟨t, ht, hsource⟩ := exists_mem_of_forall₂ hsources hlinks
  exact hsource l hl ▸ ht

end Links

namespace Productions

variable {c : Context} {k : Stock} (hc : c.Supplies k)

include hc

/-- **A link takes the room of its way and its target**; the member it starts at is paid for where
it stands. -/
theorem takes_anchor : Takes anchor fun n f => ∀ {member : Proposition}, member.toPart.Built k →
    Yields (AnchorForm.resolve c member) (WayIn k) n f := by
  have hsteps := ((takes_pathStep hc).markRight '>').many
  refine ((hsteps.seq (takes_text hc)).map _ ?_).named _
  rintro n ⟨steps, target⟩ ⟨a, b, hab, hsteps, htarget⟩ member hmember way hway
  obtain ⟨t, ht, hway⟩ := bind_eq_ok_iff.1 hway
  obtain ⟨parts, hparts, hway⟩ := bind_eq_ok_iff.1 hway
  obtain ⟨path, hpath, hway⟩ := bind_eq_ok_iff.1 hway
  cases hway
  have htext := htarget t ht
  have hshared := shared_beside_of_mapM hsteps hparts
  refine ⟨.ofSteps ?_ hpath, htext.built, fun {source l} hl => ?_⟩
  · refine List.forall_mem_map.2 (List.forall_mem_cons.2 ⟨.part hmember, fun p hp => .part ?_⟩)
    exact hshared.forall (fun ⟨_, _, hp⟩ => hp.built) p hp
  · obtain ⟨-, hanchor, -, htarget⟩ := Hyperlink.along_eq_ok_iff.1 hl
    have hdescent := Anchor.descent_of_path (Path.ofSteps_eq_ok_iff.1 hpath).1 hanchor
    have hsum := hshared.sum_beside_le (w := (·.canonical.utf8ByteSize))
      fun hp => hp.size .canonical
    have hsize : t.canonical.utf8ByteSize ≤ b := htext.size .canonical
    rw [Hyperlink.suffixSize_eq, hdescent, htarget]
    dsimp only
    omega

omit hc in
/-- A member is resolved before its ways. -/
theorem memberIn_of_resolve {f : MemberForm} {n a b : ℕ} (hn : a + b + 2 ≤ n)
    (hproposition : Yields (PropositionForm.resolve c) (PropositionIn k) a f.proposition)
    (hanchors : Shared (fun n f => ∀ {member : Proposition}, member.toPart.Built k →
      Yields (AnchorForm.resolve c member) (WayIn k) n f) b f.anchors) :
    Yields (MemberForm.resolve c) (MemberIn k) n f := by
  intro m hm
  obtain ⟨member, hmember, hm⟩ := bind_eq_ok_iff.1 hm
  obtain ⟨ways, hways, hm⟩ := bind_eq_ok_iff.1 hm
  cases hm
  have hin := hproposition member hmember
  exact ⟨a, b, hn, hin, shared_of_mapM (hanchors.imp fun ha => ha hin.built) hways⟩

/-- A member without links has two slashes around it ... -/
theorem takes_plainMember :
    Takes plainMember (Yields (MemberForm.resolve c) (MemberIn k)) := by
  refine (((takes_proposition hc).between '/' '/').map _ ?_).named _
  rintro n f ⟨a, ha, hf⟩
  exact memberIn_of_resolve (b := 0) ha hf shared_nil

/-- ... as has one with links, which come behind it. -/
theorem takes_anchoredMember :
    Takes anchoredMember (Yields (MemberForm.resolve c) (MemberIn k)) := by
  have hmember := (takes_proposition hc).seq (takes_anchor hc).some1
  refine ((hmember.between '/' '/').map _ ?_).named _
  rintro n ⟨f, anchors⟩ ⟨m, hm, a, b, hab, hf, hanchors⟩
  exact memberIn_of_resolve (by omega) hf hanchors

/-- A source text may be written with all its links, or part of them if some come twice. -/
theorem takes_hypertextBlock : Takes hypertextBlock (Yields (BlockForm.resolve c) (LinksIn k)) := by
  have hplain := takes_plainMember hc
  have hanchored := takes_anchoredMember hc
  have hmembers := hplain.many.seq (hanchored.seq (hanchored.either hplain).many)
  refine ((hmembers.between '{' '}').map _ ?_).named _
  rintro n ⟨plain, anchored, more⟩ ⟨a, ha, p, q, hpq, hplain, u, v, huv, hanchored, hmore⟩ links
    hlinks
  obtain ⟨members, hmembers, hlinks⟩ := bind_eq_ok_iff.1 hlinks
  obtain ⟨source, hsource, hlinks⟩ := bind_eq_ok_iff.1 hlinks
  have hshared : Shared (MemberIn k) (p + (u + v)) members :=
    shared_of_mapM (hplain.append (hmore.cons hanchored)) hmembers
  -- The members as a text, and the ways from all of them.
  obtain ⟨propositions, x, y, hxy, hfirst, htext, hways⟩ :=
    hshared.exists_split (S := fun m p => m.1 = p) (A := Beside 2 (PropositionIn k))
      (Q := WayIn k) (f := (·.2)) fun {n m} ⟨x, y, hle, hp, hw⟩ =>
        ⟨m.1, x + 2, y, by omega, rfl, ⟨x, Nat.le_refl _, hp⟩, hw⟩
  obtain rfl : members.map (·.1) = propositions :=
    List.forall₂_eq_eq_eq ▸ List.forall₂_map_left_iff.2 hfirst
  have hin := textIn_of_gather htext hsource
  refine ⟨source, x + 2, y, by omega, hin.size .canonical, ?_⟩
  refine hways.of_forall₂ (mapM_eq_ok_iff.1 hlinks) fun {m way l} hway hl => ?_
  exact ⟨.along hin.built hway.target hway.path hl, (Hyperlink.along_eq_ok_iff.1 hl).2.2.1,
    hway.size hl⟩

/-- **Source texts that come twice are written once**, and so are links. -/
theorem takes_hypertext : Takes hypertext fun n blocks =>
    Yields (ExpressionForm.resolve c) (ExpressionIn k) n (.hypertext blocks) := by
  intro o cs blocks hblocks x hx
  obtain ⟨lists, hlists, hx⟩ := bind_eq_ok_iff.1 hx
  obtain ⟨web, hweb, hx⟩ := bind_eq_ok_iff.1 hx
  cases hx
  have hshared := shared_of_mapM ((takes_hypertextBlock hc).some1 hblocks) hlists
  obtain ⟨texts, a, b, hab, hsources, htexts, hlinks⟩ :=
    hshared.exists_split (S := fun links t => ∀ l ∈ links, l.source = t)
      (A := fun n t => t.canonical.utf8ByteSize ≤ n)
      (Q := fun n l => l.Built k ∧ l.suffixSize ≤ n) (f := id)
      fun ⟨t, a, b, hle, ht, hl⟩ => ⟨t, a, b, hle, hl.forall fun hl => hl.source_eq, ht,
        hl.imp fun hl => ⟨hl.built, hl.size⟩⟩
  rw [List.flatMap_id] at hlinks
  have hbuilt : web.Built k := .ofLinks (hlinks.forall And.left) hweb
  have hkept := (Hypertext.ofLinks_eq_ok_iff.1 hweb).2
  have hsub := Hypertext.sources_subset_of_ofLinks hsources hweb
  have hnodup : web.sources.Nodup := Increasing.nodup (increasing_keepFirst _)
  have hsourcesLe := sum_map_le_of_subperm (hnodup.subperm hsub) (·.canonical.utf8ByteSize)
  have htextsLe := htexts.sum_le (w := (·.canonical.utf8ByteSize)) id
  have hlinksLe : (web.links.map (·.suffixSize)).sum ≤ b := by
    rw [hkept]
    exact (sum_map_le_of_subperm (keepLast_subperm _) _).trans (hlinks.sum_le And.right)
  have hsize := hbuilt.facts.size_canonical_le
  refine ⟨.hypertext hbuilt, fun s => ?_⟩
  have htext : s.choose (Expression.hypertext web).canonical (Expression.hypertext web).display =
      web.canonical := by
    cases s <;> rfl
  rw [htext]
  omega

/-! ## Expressions -/

omit hc in
/-- An expression that is a part takes the room of that. -/
theorem takes_part {F : Type} {g : Grammar F} {R : ℕ → F → Prop} {φ : F → PartForm}
    (h : Takes g R)
    (hφ : ∀ {n f}, R n f → Yields (PartForm.resolve c) (PartIn k) n (φ f)) :
    Takes (.map (.part ∘ φ) g) (Yields (ExpressionForm.resolve c) (ExpressionIn k)) :=
  h.map _ fun hf => (hφ hf).wrapped exists_of_wrapped fun hp => hp.imp .part fun _ => rfl

/-- **What is read is written in the room that it was read in**, unless it is a term that stands
without brackets. -/
theorem yields_of_spells {o : ℕ} {cs : List Char} {f : ExpressionForm}
    (h : Spells anyExpression o cs f) :
    Yields (ExpressionForm.resolve c) (ExpressionIn k) (byteLength cs) f ∨
      ∃ t, Spells bareTerm o cs t ∧ f = .part (.term t) := by
  have htext : Takes (.map ExpressionForm.text text)
      (Yields (ExpressionForm.resolve c) (ExpressionIn k)) :=
    (takes_text hc).map _ fun hf =>
      hf.wrapped exists_of_wrapped fun ht => ht.imp .text fun _ => rfl
  rcases h with h | h | h | h | h | h | h | ⟨t, ht, rfl⟩
  · exact .inl ((takes_hypertext hc).map ExpressionForm.hypertext id h)
  · exact .inl (htext h)
  · exact .inl (takes_part (takes_proposition hc) yields_proposition h)
  · exact .inl (takes_part (takes_superClause hc) yields_superClause h)
  · exact .inl (takes_part (takes_clause hc) yields_clause h)
  · exact .inl (takes_part (takes_morpheme hc) yields_morpheme h)
  · exact .inl (takes_part (takes_term hc) yields_term h)
  · exact .inr ⟨t, ht, rfl⟩

end Productions

end Metalanguage
