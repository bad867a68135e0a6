import Metalanguage.Grammar.Productions
import Metalanguage.Proofs.Expression.Form
import Metalanguage.Proofs.Expression.Linked
import Metalanguage.Proofs.Grammar.Writing

/-!
# Proofs/Expression/Written — expressions are written as the grammar spells

The canonical form of every expression that is built is spelled by the grammar, and so is the
written form where literals have bodies that end at their closing bracket
(`Expression.Built.writes`). Both are spelled for a form that stands for the expression.
-/

namespace Metalanguage

open List (Forall₂)
open Grammar

/-- Terms and literals that can be read back: scripts are valid, and a literal that shows ends where
it is closed. -/
structure Stock.Legible (k : Stock) (s : Style) : Prop where
  script : ∀ {t}, k.term t → Script.isValid t.script = true
  body : ∀ {l}, k.literal l → s = .written → LiteralBody l.raw.toList

/-- Canonical forms show no literal, so there is less to ask. -/
theorem Stock.Legible.canonical {k : Stock} {s : Style} (h : k.Legible s) : k.Legible .canonical :=
  ⟨h.script, nofun⟩

variable {k : Stock} {s : Style}

/-! ## Words -/

theorem Script.ne_nil_of_isValid {script : String} (h : Script.isValid script = true) :
    script.toList ≠ [] := by
  intro hnil
  simp [isValid, layer?, hnil] at h

/-- A valid script is what the grammar reads as one. -/
theorem Term.writes {t : Term} (h : Script.isValid t.script = true) :
    Writes Productions.term TermForm.StandsFor t.canonical.toList t := by
  have hscript : Writes Productions.script (fun f t => f = t.script) t.script.toList t := by
    refine fun o => ⟨t.script, ⟨Script.ne_nil_of_isValid h, ?_, by simp⟩, rfl⟩
    exact fun c hc => List.all_eq_true.1 (Bool.and_eq_true_iff.1 h).1 c hc
  have htext : t.canonical.toList = '[' :: (t.script.toList ++ [']']) := by simp [canonical]
  rw [htext]
  exact ((hscript.between '[' ']').named _).placed.map _ fun hf => hf

/-- A morpheme writes its terms in order. -/
theorem Morpheme.Built.writes {m : Morpheme} (hm : m.Built k) (hk : k.Legible s) :
    Writes Productions.morpheme MorphemeForm.StandsFor m.canonical.toList m := by
  obtain ⟨hne, -, hterms⟩ := hm.facts
  have hlist := Writes.separated '|' (fun t ht => Term.writes (hk.script (hterms t ht))) hne
  have htext : m.canonical.toList =
      '(' :: (['|'].intercalate (m.terms.map fun t => t.canonical.toList) ++ [')']) := by
    simp [Morpheme.canonical, Function.comp_def]
  rw [htext]
  exact Writes.named (Writes.map (hlist.between '(' ')') MorphemeForm.mk fun hf => hf) _

/-- The literals that show. -/
theorem writes_literals {ls : List Literal} (h : ∀ l ∈ ls, k.literal l) (hk : k.Legible s) :
    Writes (.many Productions.literal) Eq (Literal.displayAll (s.literals ls)).toList
      (s.literals ls) := by
  have hone : ∀ l ∈ s.literals ls, Writes Productions.literal Eq l.display.toList l := by
    intro l hl o
    cases s with
    | canonical => cases hl
    | written =>
      refine ⟨l, ⟨l.raw.toList, hk.body (h l hl) rfl, ?_, ?_⟩, rfl⟩
      · simp [Literal.display]
      · simp
  have htext : (Literal.displayAll (s.literals ls)).toList =
      (s.literals ls).flatMap fun l => l.display.toList := by
    simp [Literal.displayAll, List.flatMap_map]
  rw [htext, ← List.forall₂_eq_eq_eq]
  exact Writes.many hone

/-- The text of a node in one of the styles. -/
abbrev Style.node {N : Type} [ClauseNode N] (s : Style) (n : N) : String :=
  s.choose (ClauseNode.canonical n) (ClauseNode.display n)

/-- **A word** writes its literals if they show, and none if they do not. -/
theorem Word.Built.writes {w : Word} (hw : w.Built k) (hk : k.Legible s) :
    Writes Productions.word (WordForm.StandsFor s) (s.node w).toList w := by
  have hsubstance := (hw.morphemes w.substance (by simp [Word.morphemes])).writes hk
  have hmode : Writes (optional (seqRight (.mark '*') Productions.morpheme))
      (Option.Rel MorphemeForm.StandsFor)
      (w.mode.toList.flatMap fun m => '*' :: m.canonical.toList) w.mode := by
    cases h : w.mode with
    | none => exact writes_none _ _
    | some m =>
      have hm := (hw.morphemes m (by simp [Word.morphemes, h])).writes hk
      simpa using (hm.markRight '*').just
  have hliterals := writes_literals hw.literals hk
  have htext : (s.node w).toList =
      '[' :: ((w.substance.canonical.toList ++
        w.mode.toList.flatMap fun m => '*' :: m.canonical.toList) ++ [']']) ++
      (Literal.displayAll (s.literals w.literals)).toList := by
    cases s <;> cases hm : w.mode <;>
      simp [Style.choose, Style.literals, ClauseNode.canonical, ClauseNode.display, Word.canonical,
        Word.display, Word.morphemes, Literal.displayAll, hm]
  rw [htext]
  exact ((((hsubstance.seq hmode).between '[' ']').seq hliterals).map _ fun hf =>
    ⟨hf.1.1, hf.1.2, hf.2⟩).named _

/-! ## Clauses and sentences -/

section Nodes

variable {F N : Type} [ClauseNode N] {g : Grammar F} {R : F → N → Prop} {node : N → Prop}

/-- Three nodes with stars between them. -/
theorem Clause.Built.writes {c : Clause N} (hc : c.Built node)
    (hnode : ∀ n, node n → Writes g R (s.node n).toList n) (rule : Rule) :
    Writes (Productions.clauseOver rule g) (ClauseForm.StandsFor R)
      (s.choose c.canonical c.display).toList c := by
  have hsubstance := hnode c.substance (hc.nodes _ (by simp [Clause.nodes]))
  have hattr := hnode c.attr (hc.nodes _ (by simp [Clause.nodes]))
  have hmode := hnode c.mode (hc.nodes _ (by simp [Clause.nodes]))
  have hnodes := hsubstance.seq ((hattr.seq (hmode.markRight '*')).markRight '*')
  have htext : (s.choose c.canonical c.display).toList =
      '(' :: ((s.node c.substance).toList ++ '*' :: ((s.node c.attr).toList ++
        '*' :: (s.node c.mode).toList) ++ [')']) := by
    cases s <;>
      simp [Style.choose, Clause.canonical, Clause.display, Clause.nodes]
  rw [htext]
  exact ((hnodes.between '(' ')').map _ fun hf => ⟨hf.1, hf.2.1, hf.2.2⟩).named _

/-- **A sentence** writes its clauses in order, then its literals if they show. -/
theorem Sentence.Built.writes [LawfulNode N] {t : Sentence N} (ht : t.Built k node)
    (hk : k.Legible s) {clause : Grammar (ClauseForm F)}
    (hclause : ∀ c : Clause N, c.Built node →
      Writes clause (ClauseForm.StandsFor R) (s.choose c.canonical c.display).toList c)
    (rule : Rule) :
    Writes (Productions.sentenceOver rule clause) (SentenceForm.StandsFor s R)
      (s.choose t.canonical t.display).toList t := by
  have hclauses := Writes.separated '+' (fun c hc => hclause c (ht.clause hc)) ht.clauses_ne_nil
  have hliterals := writes_literals ht.literals hk
  have htext : (s.choose t.canonical t.display).toList =
      '[' :: (['+'].intercalate
        (t.clauses.map fun c => (s.choose c.canonical c.display).toList) ++ [']']) ++
      (Literal.displayAll (s.literals t.literals)).toList := by
    cases s <;>
      simp [Style.choose, Style.literals, Sentence.canonical, Sentence.display,
        Literal.displayAll, Function.comp_def]
  rw [htext]
  exact (((hclauses.between '[' ']').seq hliterals).map _ fun hf => ⟨hf.1, hf.2⟩).named _

end Nodes

/-- Over words ... -/
theorem Sentence.Built.writes_word {t : Sentence Word} (ht : t.Built k (Word.Built k))
    (hk : k.Legible s) :
    Writes Productions.sentence (SentenceForm.OverWords s) (s.node t).toList t :=
  ht.writes hk (fun _ hc => hc.writes (fun _ hw => hw.writes hk) _) _

/-! ## Propositions and parts -/

/-- The text of a part in one of the styles. -/
abbrev Style.part (s : Style) (p : Part) : String := s.choose p.canonical p.display

/-- A proposition is written as one of the three alternatives. -/
theorem Proposition.writes {p : Proposition} (hp : p.toPart.Built k) (hk : k.Legible s) :
    Writes Productions.proposition (PropositionForm.StandsFor s) (s.part p.toPart).toList p := by
  rcases p with w | t | t
  · exact (((Word.Built.writes hp hk).map PropositionForm.word fun hf => .word hf).right _).right _
  · exact (((Sentence.Built.writes_word hp hk).map PropositionForm.sentence
      fun hf => .sentence hf).left _).right _
  · refine Writes.left (Writes.map (Sentence.Built.writes hp hk (fun c hc => ?_) _)
      PropositionForm.superSentence fun hf => .superSentence hf) _
    exact hc.writes (fun t ht => ht.writes_word hk) _

theorem Clause.Built.writes_word {c : Clause Word} (hc : c.Built (Word.Built k))
    (hk : k.Legible s) : Writes Productions.clause (ClauseForm.StandsFor (WordForm.StandsFor s))
      (s.part (.clause c)).toList c :=
  hc.writes (fun _ hw => hw.writes hk) _

/-- ... or over sentences, by the same two lemmas. -/
theorem Clause.Built.writes_sentence {c : SuperClause}
    (hc : c.Built (Sentence.Built k (Word.Built k))) (hk : k.Legible s) :
    Writes Productions.superClause (ClauseForm.StandsFor (SentenceForm.OverWords s))
      (s.part (.superClause c)).toList c :=
  hc.writes (fun _ ht => ht.writes_word hk) _

theorem Term.writes_part {t : Term} (ht : k.term t) (hk : k.Legible s) :
    Writes Productions.term TermForm.StandsFor (s.part (.term t)).toList t := by
  have htext : s.part (.term t) = t.canonical := by cases s <;> rfl
  rw [htext]
  exact Term.writes (hk.script ht)

theorem Morpheme.Built.writes_part {m : Morpheme} (hm : m.Built k) (hk : k.Legible s) :
    Writes Productions.morpheme MorphemeForm.StandsFor (s.part (.morpheme m)).toList m := by
  have htext : s.part (.morpheme m) = m.canonical := by cases s <;> rfl
  rw [htext]
  exact hm.writes hk

/-- Every part is written as a step. -/
theorem Part.Built.writes_step {p : Part} (hp : p.Built k) (hk : k.Legible s) :
    Writes Productions.pathStep (PartForm.StandsFor s) (s.part p).toList p := by
  cases p with
  | term t =>
    refine .right (.right (.right (.right (.right (.right ?_ _) _) _) _) _) _
    exact (Term.writes_part hp hk).map _ .term
  | morpheme m =>
    refine .right (.right (.right (.right (.right (.left ?_ _) _) _) _) _) _
    exact (Morpheme.Built.writes_part hp hk).map _ .morpheme
  | word w =>
    refine .right (.right (.right (.right (.left ?_ _) _) _) _) _
    exact (Word.Built.writes hp hk).map _ fun hf => .proposition (.word hf) rfl
  | clause c =>
    refine .right (.right (.right (.left ?_ _) _) _) _
    exact (Clause.Built.writes_word hp hk).map _ .clause
  | superClause c =>
    refine .right (.right (.left ?_ _) _) _
    exact (Clause.Built.writes_sentence hp hk).map _ .superClause
  | sentence t =>
    refine .right (.left ?_ _) _
    exact (Sentence.Built.writes_word hp hk).map _ fun hf => .proposition (.sentence hf) rfl
  | superSentence t =>
    refine .left ?_ _
    exact (Sentence.Built.writes hp hk (fun c hc => hc.writes_sentence hk) _).map _
      fun hf => .proposition (.superSentence hf) rfl

/-- Every part is written as an expression. -/
theorem Part.Built.writes {p : Part} (hp : p.Built k) (hk : k.Legible s) :
    Writes Productions.anyExpression (ExpressionForm.StandsFor s) (s.part p).toList (.part p) := by
  have proposition : ∀ {m : Proposition}, m.toPart = p →
      Writes Productions.anyExpression (ExpressionForm.StandsFor s) (s.part p).toList
        (.part p) := by
    rintro m rfl
    refine .right (.right (.left ?_ _) _) _
    exact (Proposition.writes hp hk).map _ fun hf => .part (.proposition hf rfl)
  cases p with
  | term t =>
    refine .right (.right (.right (.right (.right (.right (.left ?_ _) _) _) _) _) _) _
    exact (Term.writes_part hp hk).map _ fun hf => .part (.term hf)
  | morpheme m =>
    refine .right (.right (.right (.right (.right (.left ?_ _) _) _) _) _) _
    exact (Morpheme.Built.writes_part hp hk).map _ fun hf => .part (.morpheme hf)
  | word w => exact proposition (m := .word w) rfl
  | clause c =>
    refine .right (.right (.right (.right (.left ?_ _) _) _) _) _
    exact (Clause.Built.writes_word hp hk).map _ fun hf => .part (.clause hf)
  | superClause c =>
    refine .right (.right (.right (.left ?_ _) _) _) _
    exact (Clause.Built.writes_sentence hp hk).map _ fun hf => .part (.superClause hf)
  | sentence t => exact proposition (m := .sentence t) rfl
  | superSentence t => exact proposition (m := .superSentence t) rfl

/-! ## Texts -/

/-- Members between slashes. -/
theorem toList_enclose {X : Type} (l : List X) (text : X → String) :
    (Text.enclose (l.map text)).toList =
      '{' :: ((l.flatMap fun x => '/' :: ((text x).toList ++ ['/'])) ++ ['}']) := by
  simp [Text.enclose, List.flatMap_map]

/-- **A text** writes its members in order. -/
theorem Text.Facts.writes {t : Text} (ht : t.Facts k) (hk : k.Legible s) :
    Writes Productions.text (TextForm.StandsFor s) (s.choose t.canonical t.display).toList t := by
  have hmembers := Writes.some1
    (fun p hp => (Proposition.writes (ht.built p hp) hk).between '/' '/') ht.ne_nil
  have htext : (s.choose t.canonical t.display).toList =
      '{' :: ((t.members.flatMap fun p => '/' :: ((s.part p.toPart).toList ++ ['/'])) ++
        ['}']) := by
    rw [← toList_enclose]
    cases s <;> rfl
  rw [htext]
  exact Writes.named (Writes.map (hmembers.between '{' '}') TextForm.mk fun hf => hf) _

/-! ## Hypertexts -/

open Hypertext in
/-- **A link** writes its steps and its target, always by canonical forms. -/
theorem Hyperlink.Facts.writes {l : Hyperlink} (hl : l.Facts k) (hk : k.Legible .canonical) :
    Writes Productions.anchor AnchorForm.StandsFor (linkSuffix l).toList l := by
  have hsteps := Writes.many fun p (hp : p ∈ l.anchor.descent) =>
    ((hl.steps p (List.mem_cons_of_mem _ hp)).writes_step hk).markRight '>'
  have htext : (linkSuffix l).toList =
      (l.anchor.descent.flatMap fun p => '>' :: p.canonical.toList) ++
        l.target.canonical.toList := by
    simp [linkSuffix, List.flatMap_map]
  rw [htext]
  exact ((hsteps.seq (hl.target.writes hk)).map _ fun hf => ⟨hf.1, hf.2⟩).named _

/-- The text of a member, between slashes. -/
abbrev memberText (links : List Hyperlink) (p : Proposition) : List Char :=
  '/' :: ((Hypertext.memberForm links p).toList ++ ['/'])

section Members

variable {links : List Hyperlink} {p : Proposition} (hp : p.toPart.Built k)
  (hk : k.Legible .canonical)

include hp hk

/-- A member from which no link starts is written by the one rule ... -/
theorem writes_plainMember (hno : ∀ l ∈ links, (p == l.anchor.member) = false) :
    Writes Productions.plainMember (MemberForm.StandsFor links) (memberText links p) p := by
  have hfilter : links.filter (fun l => p == l.anchor.member) = [] :=
    List.filter_eq_nil_iff.2 fun l hl => by simp [hno l hl]
  have htext : (Hypertext.memberForm links p).toList = p.canonical.toList := by
    simp [Hypertext.memberForm, hfilter]
  rw [memberText, htext]
  have hmember := (Proposition.writes hp hk).between '/' '/'
  refine Writes.named (Writes.map hmember (fun f => MemberForm.mk f []) fun hf => ?_) _
  exact ⟨hf, by rw [hfilter]; exact .nil⟩

/-- ... and one from which some do by the other. -/
theorem writes_anchoredMember (hlinks : ∀ l ∈ links, l.Facts k)
    (hsome : ∃ l ∈ links, (p == l.anchor.member) = true) :
    Writes Productions.anchoredMember (MemberForm.StandsFor links) (memberText links p) p := by
  obtain ⟨l, hl, hpl⟩ := hsome
  have hne : links.filter (fun l => p == l.anchor.member) ≠ [] :=
    List.ne_nil_of_mem (List.mem_filter.2 ⟨hl, hpl⟩)
  have hanchors := Writes.some1
    (fun l hl => (hlinks l (List.mem_of_mem_filter hl)).writes hk) hne
  have htext : (Hypertext.memberForm links p).toList = p.canonical.toList ++
      (links.filter fun l => p == l.anchor.member).flatMap
        fun l => (Hypertext.linkSuffix l).toList := by
    simp [Hypertext.memberForm, List.flatMap_map]
  rw [memberText, htext]
  exact Writes.named (Writes.map (((Proposition.writes hp hk).seq hanchors).between '/' '/') _
    fun hf => ⟨hf.1, hf.2⟩) _

theorem writes_member (hlinks : ∀ l ∈ links, l.Facts k) :
    Writes (.either Productions.anchoredMember Productions.plainMember)
      (MemberForm.StandsFor links) (memberText links p) p := by
  by_cases hsome : ∃ l ∈ links, (p == l.anchor.member) = true
  · exact (writes_anchoredMember hp hk hlinks hsome).left _
  · refine (writes_plainMember hp hk fun l hl => ?_).right _
    exact Bool.eq_false_iff.2 fun hpl => hsome ⟨l, hl, hpl⟩

end Members

/-- A source text is written with its links, of which there is one at least. -/
theorem writes_block {links : List Hyperlink} {source : Text} (hsource : source.Facts k)
    (hk : k.Legible .canonical) (hlinks : ∀ l ∈ links, l.Facts k)
    (hsome : ∃ p ∈ source.members, ∃ l ∈ links, (p == l.anchor.member) = true) :
    Writes Productions.hypertextBlock
      (fun f t => Forall₂ (MemberForm.StandsFor links) f.members t.members)
      (Text.enclose (source.members.map (Hypertext.memberForm links))).toList source := by
  -- The members before the first one with a link are read by the first repetition.
  have hfind : (source.members.find? fun p => links.any (p == ·.anchor.member)).isSome = true := by
    obtain ⟨p, hp, l, hl, hpl⟩ := hsome
    exact List.find?_isSome.2 ⟨p, hp, List.any_eq_true.2 ⟨l, hl, hpl⟩⟩
  obtain ⟨p, hp⟩ := Option.isSome_iff_exists.1 hfind
  obtain ⟨hlinked, plain, more, hmembers, hplain⟩ := List.find?_eq_some_iff_append.1 hp
  have hbuilt := hsource.built
  simp only [hmembers, List.forall_mem_append, List.forall_mem_cons] at hbuilt
  obtain ⟨hplainBuilt, hpBuilt, hmoreBuilt⟩ := hbuilt
  have hunlinked : ∀ m ∈ plain, ∀ l ∈ links, (m == l.anchor.member) = false := by
    simpa using hplain
  have hbefore := Writes.many fun m hm =>
    writes_plainMember (hplainBuilt m hm) hk (hunlinked m hm)
  have hfirst := writes_anchoredMember hpBuilt hk hlinks (by simpa using hlinked)
  have hbehind := Writes.many fun m hm => writes_member (hmoreBuilt m hm) hk hlinks
  have htext : (Text.enclose (source.members.map (Hypertext.memberForm links))).toList =
      '{' :: ((plain.flatMap (memberText links) ++
        (memberText links p ++ more.flatMap (memberText links))) ++ ['}']) := by
    rw [toList_enclose, hmembers, List.flatMap_append, List.flatMap_cons]
  rw [htext]
  refine Writes.named (Writes.map ((hbefore.seq (hfirst.seq hbehind)).between '{' '}') _
    fun hf => ?_) _
  rw [hmembers]
  exact List.rel_append hf.1 (.cons hf.2.1 hf.2.2)

/-- **A hypertext** writes its source texts, each with all links from it. -/
theorem Hypertext.Facts.writes {h : Hypertext} (hh : h.Facts k) (hk : k.Legible .canonical) :
    Writes Productions.hypertext (fun f h => Forall₂ (BlockForm.StandsFor h) f h.sources)
      h.canonical.toList h := by
  have hblock : ∀ source ∈ h.sources, Writes Productions.hypertextBlock
      (BlockForm.StandsFor h) (h.blockForm source).toList source := by
    intro source hsource
    obtain ⟨l, hl, rfl⟩ := h.exists_link_of_mem_sources hsource
    obtain ⟨p, hp, hpl⟩ := (hh.links l hl).member
    refine writes_block (hh.links l hl).source hk
      (fun l hl => hh.links l (List.mem_of_mem_filter hl)) ⟨p, hp, l, ?_, ?_⟩
    · exact List.mem_filter.2 ⟨hl, by simp [Ordered.level_self]⟩
    · exact Proposition.compare_eq_iff_beq.1 hpl
  have hblocks := Writes.some1 hblock hh.sources_ne_nil
  have htext : h.canonical.toList = h.sources.flatMap (fun t => (h.blockForm t).toList) := by
    simp [Hypertext.canonical, List.flatMap_map]
  rw [htext]
  exact fun o => hblocks o

/-! ## Expressions -/

/-- **Every expression that is built is written as the grammar spells**, in either style where its
terms and literals can be read back. -/
theorem Expression.Built.writes {x : Expression} (hx : x.Built k) (hk : k.Legible s) :
    Writes Productions.anyExpression (ExpressionForm.StandsFor s)
      (s.choose x.canonical x.display).toList x := by
  cases hx with
  | part hp => exact hp.writes hk
  | text ht =>
    refine .right (.left ?_ _) _
    exact (ht.facts.writes hk).map _ .text
  | @hypertext h hh =>
    have htext : s.choose (Expression.hypertext h).canonical (Expression.hypertext h).display =
        h.canonical := by
      cases s <;> rfl
    rw [htext]
    refine .left ?_ _
    exact (hh.facts.writes hk.canonical).map _ .hypertext

end Metalanguage
