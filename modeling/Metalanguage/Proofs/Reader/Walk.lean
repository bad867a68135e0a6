import Metalanguage.Proofs.Grammar.Tree
import Metalanguage.Proofs.Reader.Resolved
import Metalanguage.Reader.Walk

/-!
# Proofs/Reader/Walk — walking over the rules is reading

Wherever the grammar reads something, the walk over the rules that it was read by does what
resolving its form does, production by production. So none of the places that a walk takes care of
without need is ever reached, and the two ways to read a text are one (`Reader.walk_eq_parse`).
-/

namespace Metalanguage

open List (Forall₂)
open Grammar

namespace Context

variable {c : Context}

/-! ## Words -/

/-- **A term is looked up twice**: whether the dictionary has it, and what it is. Both ask for the
same script, so the second answer cannot fail after the first. -/
theorem walkTerm_eq {f : TermForm} {t : RuleTree} (hscript : c.walkScript t = .ok f.script)
    (hrange : t.range = f.range) : c.walkTerm t = f.resolve c := by
  obtain ⟨range, script⟩ := f
  subst hrange
  rw [walkTerm, hscript, TermForm.resolve]
  change (if c.dictionary.contains script then c.dictionary.term script
    else .error (c.unknownTerm ⟨t.range, script⟩)) = _
  rw [Dictionary.contains, Dictionary.term]
  cases c.dictionary.term? script <;> rfl

/-- A script without brackets is its own rule: there is none within it to descend to. -/
theorem bears_bareTerm : Bears c.text Productions.bareTerm
    (One fun f t => t.rule = .script ∧ c.walkTerm t = f.resolve c) := by
  refine Bears.placed_named (bears_nothing rfl) .script _ fun hroot => ?_
  refine ⟨hroot.rule_eq, walkTerm_eq ?_ rfl⟩
  rw [walkScript, hroot.rule_eq]
  exact congrArg Except.ok hroot.script_eq

/-- The script is what stands in the text where its rule does. -/
theorem bears_script : Bears c.text Productions.script
    (One fun s t => String.ofList (c.slice t) = s) :=
  Bears.named (bears_nothing rfl) .script fun hroot => hroot.script_eq

/-- In brackets, the rule of the term holds that of the script, and a failure is reported with the
place of the brackets. -/
theorem bears_term : Bears c.text Productions.term
    (One fun f t => t.rule = .term ∧ c.walkTerm t = f.resolve c) := by
  refine (bears_script.between '[' ']').placed_named .term _ fun hroot => ?_
  obtain ⟨script, hinner, hscript⟩ := hroot.inner
  refine ⟨hroot.rule_eq, walkTerm_eq ?_ rfl⟩
  rw [walkScript, hroot.rule_eq, hinner]
  exact congrArg Except.ok hscript

/-- A morpheme resolves its terms in order, and stops at the first that is unknown. -/
theorem bears_morpheme : Bears c.text Productions.morpheme
    (One fun f t => t.rule = .morpheme ∧ c.walkMorpheme t = f.resolve c) := by
  refine ((bears_term.separated '|').between '(' ')').named_map .morpheme _ fun hrule hterms => ?_
  refine ⟨hrule, ?_⟩
  rw [walkMorpheme, MorphemeForm.resolve, ← mapM_eq_of_forall₂ (hterms.imp fun _ _ h => h.2.symm)]

/-- A literal is cut out of the text, its two brackets are dropped, and what is between them is
read. -/
theorem bears_literal : Bears c.text Productions.literal
    (One fun l t => t.rule = .literal ∧ c.walkLiteral t = l) := by
  refine Bears.named (bears_nothing rfl) .literal fun hroot => ⟨hroot.rule_eq, ?_⟩
  obtain ⟨body, hslice, rfl⟩ := hroot.exists_body
  rw [walkLiteral, slice, hslice, List.tail_cons, List.dropLast_concat]

/-- Parts that are walked over as they are resolved, and then literals. -/
theorem walkParts_eq {F α : Type} {rule : Rule} {rules : List Rule}
    {walk : RuleTree → Except Error α} {resolve : F → Except Error α} (hrule : rule ∈ rules)
    (hliteral : Rule.literal ∉ rules) {fs : List F} {ts : List RuleTree}
    (hparts : Forall₂ (fun f t => t.rule = rule ∧ walk t = resolve f) fs ts)
    {literals : List Literal} {us : List RuleTree}
    (hliterals : Forall₂ (fun l t => t.rule = .literal ∧ c.walkLiteral t = l) literals us) :
    c.walkParts rules walk (ts ++ us) = (fs.mapM resolve).map (·, literals) := by
  induction hparts with
  | nil =>
    induction hliterals with
    | nil => rfl
    | cons hl _ ih =>
      obtain ⟨heq, rfl⟩ := hl
      rw [List.nil_append] at ih ⊢
      rw [walkParts, heq, if_neg (by simpa using hliteral), if_pos rfl, ih]
      rfl
  | @cons f t fs ts hf _ ih =>
    obtain ⟨rfl, hwalk⟩ := hf
    rw [List.cons_append, walkParts, if_pos (by simpa using hrule), hwalk, ih, List.mapM_cons]
    cases resolve f with
    | error e => rfl
    | ok x => cases fs.mapM resolve <;> rfl

/-- **A word**: one morpheme or two, and then literals. The walk tells them apart by their rules
only. -/
theorem bears_word : Bears c.text Productions.word
    (One fun f t => t.rule = .word ∧ c.walkWord t = f.resolve c) := by
  have hmorpheme := bears_morpheme (c := c)
  have hbody := hmorpheme.seq (hmorpheme.markRight '*').optional
  refine ((hbody.between '[' ']').seq bears_literal.each).named_map .word _ ?_
  rintro ⟨⟨substance, mode⟩, literals⟩ t hrule
    ⟨_, us, hinner, ⟨_, ts, rfl, ⟨m, rfl, hm⟩, hts⟩, hus⟩
  refine ⟨hrule, ?_⟩
  have hmorphemes : Forall₂ (fun f t => t.rule = .morpheme ∧ c.walkMorpheme t = f.resolve c)
      (substance :: mode.toList) (m :: ts) := .cons hm hts
  have hrules : Rule.morpheme ∈ [Rule.morpheme] := List.mem_singleton_self _
  rw [walkWord, hinner, List.singleton_append, walkParts_eq hrules (by decide) hmorphemes hus,
    List.mapM_cons, WordForm.resolve]
  cases substance.resolve c with
  | error e => rfl
  | ok m =>
    cases mode with
    | none => rfl
    | some mode =>
      change _ = (mode.resolve c >>= _)
      simp only [Option.toList_some, List.mapM_cons, List.mapM_nil]
      cases mode.resolve c <;> rfl

/-! ## Clauses and sentences -/

section Nodes

variable {F N : Type} [ClauseNode N] {node : Grammar F} {walk : RuleTree → Except Error N}
  {resolve : F → Except Error N}

/-- **A clause** over nodes of any level: three rules, resolved in order, none of which can be
missing. -/
theorem bears_clauseOver (h : Bears c.text node (One fun f t => walk t = resolve f)) (rule : Rule) :
    Bears c.text (Productions.clauseOver rule node)
      (One fun f t => t.rule = rule ∧ walkClause walk t = f.resolve resolve) := by
  have hnodes := h.seq ((h.seq (h.markRight '*')).markRight '*')
  refine (hnodes.between '(' ')').named_map rule _ ?_
  rintro ⟨substance, attr, mode⟩ t hrule ⟨_, _, hinner, ⟨t₁, rfl, h₁⟩, _, _, rfl, ⟨t₂, rfl, h₂⟩,
    t₃, rfl, h₃⟩
  refine ⟨hrule, ?_⟩
  have hwalked : t.inner.mapM walk = [substance, attr, mode].mapM resolve := by
    rw [hinner]
    exact mapM_eq_of_forall₂ (.cons h₁ (.cons h₂ (.cons h₃ .nil)))
  rw [walkClause, hwalked, ClauseForm.resolve]
  simp only [List.mapM_cons, List.mapM_nil]
  cases resolve substance with
  | error e => rfl
  | ok a =>
    cases resolve attr with
    | error e => rfl
    | ok b => cases resolve mode <;> rfl

/-- **A sentence** over clauses of either level: clauses, then literals, and the tree is built once
all are resolved. -/
theorem bears_sentenceOver {clause : Grammar (ClauseForm F)} {rule : Rule}
    (hrule : rule ∈ [Rule.clause, .superClause])
    (h : Bears c.text clause
      (One fun f t => t.rule = rule ∧ walkClause walk t = f.resolve resolve)) (rule' : Rule) :
    Bears c.text (Productions.sentenceOver rule' clause)
      (One fun f t => t.rule = rule' ∧ c.walkSentence walk t = f.resolve c.maxNodes resolve) := by
  have hbody := ((h.separated '+').between '[' ']').seq (bears_literal (c := c)).each
  refine hbody.named_map rule' _ ?_
  rintro ⟨clauses, literals⟩ t hrule' ⟨ts, us, hinner, hts, hus⟩
  refine ⟨hrule', ?_⟩
  rw [walkSentence, hinner, walkParts_eq hrule (by decide) hts hus, SentenceForm.resolve]
  cases clauses.mapM (ClauseForm.resolve resolve) with
  | error e => rfl
  | ok cs => rfl

end Nodes

/-- Within a clause the rule of a node is known beforehand, so it can be forgotten. -/
theorem bears_node {F N : Type} {rule : Rule} {g : Grammar F} {walk : RuleTree → Except Error N}
    {resolve : F → Except Error N}
    (h : Bears c.text g (One fun f t => t.rule = rule ∧ walk t = resolve f)) :
    Bears c.text g (One fun f t => walk t = resolve f) :=
  h.imp (One.imp And.right)

theorem bears_clause : Bears c.text Productions.clause
    (One fun f t => t.rule = .clause ∧ walkClause c.walkWord t = c.clause f) :=
  bears_clauseOver (bears_node bears_word) .clause

theorem bears_sentence : Bears c.text Productions.sentence
    (One fun f t => t.rule = .sentence ∧ c.walkSentence c.walkWord t = c.sentence f) :=
  bears_sentenceOver (by decide) bears_clause .sentence

theorem bears_superClause : Bears c.text Productions.superClause (One fun f t =>
    t.rule = .superClause ∧ walkClause (c.walkSentence c.walkWord) t = c.superClause f) :=
  bears_clauseOver (bears_node bears_sentence) .superClause

theorem bears_superSentence : Bears c.text Productions.superSentence (One fun f t =>
    t.rule = .superSentence ∧
      c.walkSentence (c.walkSentence c.walkWord) t = c.superSentence f) :=
  bears_sentenceOver (by decide) bears_superClause .superSentence

/-! ## Texts -/

/-- A proposition is walked over as it is resolved, as one and as any expression. -/
structure WalksProposition (c : Context) (f : PropositionForm) (t : RuleTree) : Prop where
  rule_ne : t.rule ≠ .endOfInput
  proposition : c.walkProposition t = (fun p => .part p.toPart) <$> f.resolve c
  expression : c.walk t = c.walkProposition t

/-- The three forms of a proposition lead to the same branch of the walk, each by its rule. -/
theorem bears_proposition : Bears c.text Productions.proposition (One c.WalksProposition) := by
  refine .either (bears_superSentence.map _ (One.map ?_)) <|
    .either (bears_sentence.map _ (One.map ?_)) (bears_word.map _ (One.map ?_)) <;>
  · rintro f ⟨rule, range, inner⟩ ⟨hrule, hwalk⟩
    obtain rfl : rule = _ := hrule
    refine ⟨nofun, ?_, by rw [walk]; rfl⟩
    simp only [walkProposition, RuleTree.rule, hwalk, PropositionForm.resolve, map_bind, map_pure,
      Proposition.toPart]

/-- The members of a text are resolved as any expressions and then gathered as propositions; neither
way refuses one. -/
theorem bears_text : Bears c.text Productions.text
    (One fun f t => t.rule = .text ∧ c.walkText t = f.resolve c) := by
  have hmembers := (bears_proposition (c := c)).between '/' '/' |>.some1
  refine (hmembers.between '{' '}').named_map .text _ fun hrule hinner => ⟨hrule, ?_⟩
  simp only [walkText, TextForm.resolve, bind_map_left, Text.ofExpressions_toPart,
    mapM_eq_map_of_forall₂ (hinner.imp fun _ _ h => h.proposition)]

/-- A step is any part in brackets, and the walk knows which by its rule. -/
theorem bears_pathStep : Bears c.text Productions.pathStep
    (One fun f t => c.walk t = .part <$> f.resolve c) := by
  refine .either (bears_superSentence.map _ (One.map ?_)) <|
    .either (bears_sentence.map _ (One.map ?_)) <|
    .either (bears_superClause.map _ (One.map ?_)) <|
    .either (bears_clause.map _ (One.map ?_)) <|
    .either (bears_word.map _ (One.map ?_)) <|
    .either (bears_morpheme.map _ (One.map ?_)) (bears_term.map _ (One.map ?_)) <;>
  · rintro f ⟨rule, range, inner⟩ ⟨hrule, hwalk⟩
    obtain rfl : rule = _ := hrule
    simp only [walk, hwalk, PartForm.resolve, PropositionForm.resolve, Function.comp_apply,
      bind_assoc, pure_bind, map_bind, map_pure, Proposition.toPart]

/-! ## Links -/

/-- A link is walked over as it is resolved: the target, and the steps. -/
structure WalksLink (c : Context) (f : AnchorForm) (t : RuleTree) : Prop where
  target : c.walkTarget t = f.target.resolve c
  steps : c.walkSteps t.inner = List.map .part <$> f.steps.mapM (PartForm.resolve c)

/-- A member with its links is walked over as it is resolved. -/
def WalksMember (c : Context) (f : MemberForm) (t : RuleTree) : Prop :=
  ∃ first links, t.inner = first :: links ∧
    c.WalksProposition f.proposition first ∧
    Forall₂ c.WalksLink f.anchors links

/-- **The steps before a target**: all rules but the last, which is the target and is resolved by
itself. -/
theorem walkSteps_eq {fs : List PartForm} {ts : List RuleTree}
    (h : Forall₂ (fun f t => c.walk t = .part <$> f.resolve c) fs ts) (target : RuleTree) :
    c.walkSteps (ts ++ [target]) = List.map .part <$> fs.mapM (PartForm.resolve c) := by
  induction h with
  | nil => simp [walkSteps]
  | cons hf _ ih => simp [walkSteps, hf, ih]

/-- A link has its target last, so that is what the walk looks for first. -/
theorem bears_anchor : Bears c.text Productions.anchor (One c.WalksLink) := by
  have hsteps := (bears_pathStep (c := c)).markRight '>' |>.each
  refine (hsteps.seq bears_text).named_map .anchor _ ?_
  rintro ⟨steps, target⟩ t - ⟨ts, _, hinner, hts, u, rfl, hrule, htext⟩
  refine ⟨?_, ?_⟩
  · rw [walkTarget, hinner, List.getLast?_concat]
    exact (if_pos hrule).trans htext
  · rw [hinner]
    exact walkSteps_eq hts u

/-- A member without links holds one rule, that of its proposition ... -/
theorem bears_plainMember : Bears c.text Productions.plainMember (One c.WalksMember) := by
  refine (bears_proposition.between '/' '/').named_map .plainMember _ ?_
  rintro f t - ⟨u, hinner, hu⟩
  exact ⟨u, [], hinner, hu, .nil⟩

/-- ... and one with links holds those of the links behind it. -/
theorem bears_anchoredMember : Bears c.text Productions.anchoredMember (One c.WalksMember) := by
  refine ((bears_proposition.seq bears_anchor.some1).between '/' '/').named_map .anchoredMember _ ?_
  rintro ⟨f, anchors⟩ t - ⟨_, ts, hinner, ⟨u, rfl, hu⟩, hts⟩
  exact ⟨u, ts, hinner, hu, hts⟩

/-- The members of a source text stand in one row of rules, those before the first link and those
behind it. -/
theorem bears_hypertextBlock : Bears c.text Productions.hypertextBlock
    (One fun f t => Forall₂ c.WalksMember f.members t.inner) := by
  have hmore := (bears_anchoredMember (c := c)).either bears_plainMember |>.each
  have hmembers := bears_plainMember.each.seq (bears_anchoredMember.seq hmore)
  refine (hmembers.between '{' '}').named_map .hypertextBlock _ ?_
  rintro ⟨plain, anchored, more⟩ t - ⟨ts, _, hinner, hts, _, us, rfl, ⟨u, rfl, hu⟩, hus⟩
  rw [hinner]
  exact List.rel_append hts (.cons hu hus)

theorem bears_hypertext : Bears c.text Productions.hypertext (One fun f t =>
    t.rule = .hypertext ∧
      Forall₂ (fun b u => Forall₂ c.WalksMember b.members u.inner) f t.inner) :=
  bears_hypertextBlock.some1.named .hypertext fun hroot => ⟨hroot.rule_eq, hroot.inner⟩

/-- **Links start from their member**: the walk puts it in front of the steps of each link, as
resolving does. -/
theorem walkLinks_eq (p : Proposition) {fs : List AnchorForm} {ts : List RuleTree}
    (h : Forall₂ c.WalksLink fs ts) :
    c.walkLinks (.part p.toPart) ts = fs.mapM (AnchorForm.resolve c p) := by
  induction h with
  | nil => rw [walkLinks, List.mapM_nil]
  | @cons f t fs ts hf _ ih =>
    obtain ⟨rule, range, parts⟩ := t
    have hsteps : c.walkSteps parts = _ := hf.steps
    rw [walkLinks, hf.target, hsteps, ih, List.mapM_cons, AnchorForm.resolve]
    simp only [bind_assoc, bind_map_left, pure_bind, List.map_cons]

/-- A source text is gathered from its members while their links are collected. -/
theorem walkMembers_eq {fs : List MemberForm} {ts : List RuleTree}
    (h : Forall₂ c.WalksMember fs ts) :
    c.walkMembers ts = (fun ms => (ms.map fun m => .part m.1.toPart, ms.flatMap (·.2))) <$>
      fs.mapM (MemberForm.resolve c) := by
  induction h with
  | nil => simp [walkMembers]
  | @cons f t fs ts hf _ ih =>
    obtain ⟨rule, range, inner⟩ := t
    obtain ⟨first, links, hinner, hfirst, hlinks⟩ := hf
    obtain rfl : inner = first :: links := hinner
    rw [walkMembers, hfirst.proposition, ih, List.mapM_cons]
    simp only [bind_assoc, bind_map_left, pure_bind, map_bind, map_pure, walkLinks_eq _ hlinks,
      MemberForm.resolve, List.map_cons, List.flatMap_cons]

/-- **Source texts come first**: each is built before its own links are, and these before those of
the next one. -/
theorem walkBlocks_eq {fs : List BlockForm} {ts : List RuleTree}
    (h : Forall₂ (fun b t => Forall₂ c.WalksMember b.members t.inner) fs ts) :
    c.walkBlocks ts = List.flatten <$> fs.mapM (BlockForm.resolve c) := by
  induction h with
  | nil => simp [walkBlocks]
  | @cons f t fs ts hf _ ih =>
    obtain ⟨rule, range, members⟩ := t
    have hsource : ∀ ms : List (Proposition × List (Path × Text)),
        Text.ofExpressions (ms.map fun m => .part m.1.toPart) = Text.gather (ms.map (·.1)) :=
      fun ms => by
        rw [← Text.ofExpressions_toPart, List.map_map]
        rfl
    have hmembers : c.walkMembers members = _ := walkMembers_eq hf
    rw [walkBlocks, hmembers, ih, List.mapM_cons]
    simp only [bind_assoc, bind_map_left, map_bind, map_pure, hsource, BlockForm.resolve,
      List.flatten_cons]

/-! ## Whole texts -/

/-- **Every form of an expression is walked over as it is resolved**, and none of them is the end of
the text. -/
theorem bears_anyExpression : Bears c.text Productions.anyExpression
    (One fun f t => t.rule ≠ .endOfInput ∧ c.walk t = f.resolve c) := by
  refine .either (bears_hypertext.map _ (One.map ?hypertext)) <|
    .either (bears_text.map _ (One.map ?_)) <|
    .either (bears_proposition.map _ (One.map ?proposition)) <|
    .either (bears_superClause.map _ (One.map ?_)) <|
    .either (bears_clause.map _ (One.map ?_)) <|
    .either (bears_morpheme.map _ (One.map ?_)) <|
    .either (bears_term.map _ (One.map ?_)) (bears_bareTerm.map _ (One.map ?_))
  case hypertext =>
    rintro f ⟨rule, range, blocks⟩ ⟨hrule, hblocks⟩
    obtain rfl : rule = _ := hrule
    have hwalk : c.walkBlocks blocks = _ := walkBlocks_eq hblocks
    refine ⟨nofun, ?_⟩
    simp only [walk, hwalk, ExpressionForm.resolve, bind_map_left]
  case proposition =>
    rintro f t ⟨hrule, hproposition, hwalk⟩
    refine ⟨hrule, ?_⟩
    simp only [hwalk, hproposition, ExpressionForm.resolve, PartForm.resolve, Function.comp_apply,
      bind_assoc, pure_bind, map_eq_pure_bind]
  all_goals
    rintro f ⟨rule, range, inner⟩ ⟨hrule, hwalk⟩
    obtain rfl : rule = _ := hrule
    refine ⟨nofun, ?_⟩
    simp only [walk, hwalk, ExpressionForm.resolve, PartForm.resolve, Function.comp_apply,
      bind_assoc, pure_bind]

/-- Within the rule of a whole text stands that of an expression, before the end. -/
def WalksTop (c : Context) (f : ExpressionForm) (ts : List RuleTree) : Prop :=
  ∃ top rest, ts = top :: rest ∧ top.rule ≠ .endOfInput ∧ c.walk top = f.resolve c

/-- The rule of a whole text holds the one expression and the end, and the walk takes the first that
is not the end. -/
theorem bears_expression : Bears c.text Productions.expression
    (One fun f t => c.WalksTop f t.inner) := by
  have hend : Bears c.text (.named .endOfInput .finish) fun _ _ => True :=
    fun _ _ _ _ _ _ _ => trivial
  have htop : Bears c.text (seqLeft Productions.anyExpression (.named .endOfInput .finish))
      c.WalksTop := (bears_anyExpression.seq hend).map _ fun hx => by
    obtain ⟨_, rest, rfl, ⟨top, rfl, htop⟩, -⟩ := hx
    exact ⟨top, rest, rfl, htop⟩
  have hwhole : Bears c.text (seqRight .empty _) c.WalksTop :=
    ((bears_nothing rfl).seq htop).map _ fun hx => by
      obtain ⟨_, _, rfl, rfl, hx⟩ := hx
      exact hx
  exact hwhole.named .expression fun hroot => hroot.inner

end Context

/-- **Both ways to read a text are one.** -/
theorem Reader.walk_eq_parse (r : Reader) (source input : String) :
    r.walk source input = r.parse source input := by
  let c : Context := ⟨r.dictionary, r.limits.maxNodes, source, input.toList⟩
  rw [walk, parse]
  split
  · rfl
  simp only
  cases hform : Productions.expression.read (.start input.toList) with
  | none => rw [trees?_eq_none hform, form?, hform]; rfl
  | some result =>
    obtain ⟨f, d⟩ := result
    obtain ⟨ts, htrees, whole, rfl, top, rest, hinner, hrule, hwalk⟩ :=
      exists_trees?_of_read (c.bears_expression) hform
    rw [htrees, form?, hform]
    simp only [List.head?_cons, Option.bind_some, hinner, Option.map_some]
    rw [List.find?_cons_of_pos (by simpa using hrule)]
    exact hwalk

end Metalanguage
