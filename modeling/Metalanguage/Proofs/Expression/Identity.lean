import Metalanguage.Proofs.Expression.Written
import Metalanguage.Proofs.Grammar.Productions

/-!
# Proofs/Expression/Identity — one identity for expressions of all kinds

Two expressions are equal, are level in their order and have one canonical form, or none of the
three (`one_identity`). A canonical form is read in one way, and the form that is read decides the
expression up to its literals; in the other direction the order cannot tell canonical forms apart.
-/

namespace Metalanguage

open List (Forall₂)
open Std Ordered Grammar

/-! ## A form decides what it stands for -/

/-- What one form stands for is level. -/
def Decides {F X : Type} [Ord X] (R : F → X → Prop) : Prop :=
  ∀ ⦃f : F⦄ ⦃x y : X⦄, R f x → R f y → compare x y = .eq

/-- Lists that the same forms stand for are alike. -/
theorem Decides.alike {F X : Type} [Ord X] {R : F → X → Prop} (hR : Decides R) {fs : List F}
    {xs ys : List X} (hx : Forall₂ R fs xs) (hy : Forall₂ R fs ys) : Alike compare xs ys := by
  induction hx generalizing ys with
  | nil => cases hy; exact .nil
  | cons hfx _ ih => cases hy with | cons hfy hy => exact .cons (hR hfx hfy) (ih hy)

/-- A form has the script of its term ... -/
theorem TermForm.decides : Decides TermForm.StandsFor := fun _ _ _ ht hu =>
  Term.compare_eq_iff.2 (ht.symm.trans hu)

/-- ... and so, level by level, all that a comparison asks for. -/
theorem MorphemeForm.decides : Decides MorphemeForm.StandsFor := fun _ _ _ hm hn =>
  compare_list_eq_iff.2 (TermForm.decides.alike hm hn)

/-- Literals are in the form of a word, and in no comparison. -/
theorem WordForm.decides (s : Style) : Decides (WordForm.StandsFor s) := by
  intro f w v hw hv
  refine Word.compare_eq_iff.2 ⟨MorphemeForm.decides hw.substance hv.substance, ?_⟩
  obtain ⟨-, hwmode, -⟩ := hw
  obtain ⟨-, hvmode, -⟩ := hv
  generalize f.mode = mode, w.mode = m, v.mode = n at hwmode hvmode
  cases hwmode with
  | none => cases hvmode; rfl
  | some hm => cases hvmode with | some hn => exact MorphemeForm.decides hm hn

section Nodes

variable {F N : Type} [ClauseNode N] {node : F → N → Prop} (hnode : Decides node)

include hnode

/-- A clause over any nodes that their forms decide ... -/
theorem ClauseForm.decides : Decides (ClauseForm.StandsFor node) := fun _ _ _ hc hd =>
  Clause.compare_eq_iff.2 ⟨hnode hc.substance hd.substance, hnode hc.attr hd.attr,
    hnode hc.mode hd.mode⟩

/-- ... and a sentence, whose form has its clauses in order. -/
theorem SentenceForm.decides (s : Style) : Decides (SentenceForm.StandsFor s node) :=
  fun _ _ _ ht hu =>
    Sentence.compare_eq_iff.2 ((ClauseForm.decides hnode).alike ht.clauses hu.clauses)

end Nodes

theorem SentenceForm.decides_overWords (s : Style) : Decides (SentenceForm.OverWords s) :=
  SentenceForm.decides (WordForm.decides s) s

/-- The kind of a proposition is the constructor of its form. -/
theorem PropositionForm.StandsFor.level {s : Style} {f : PropositionForm} {p q : Proposition}
    (hp : f.StandsFor s p) (hq : f.StandsFor s q) : compare p.toPart q.toPart = .eq := by
  cases hp with
  | word hw => cases hq with | word hv => exact WordForm.decides s hw hv
  | sentence ht => cases hq with | sentence hu => exact SentenceForm.decides_overWords s ht hu
  | superSentence ht =>
    cases hq with
    | superSentence hu => exact SentenceForm.decides (SentenceForm.decides_overWords s) s ht hu

theorem PropositionForm.decides (s : Style) : Decides (PropositionForm.StandsFor s) :=
  fun _ _ _ hp hq => Proposition.compare_eq_of_toPart (hp.level hq)

theorem PartForm.decides (s : Style) : Decides (PartForm.StandsFor s) := by
  intro f p q hp hq
  cases hp with
  | term ht => cases hq with | term hu => exact TermForm.decides ht hu
  | morpheme hm => cases hq with | morpheme hn => exact MorphemeForm.decides hm hn
  | clause hc =>
    cases hq with | clause hd => exact ClauseForm.decides (WordForm.decides s) hc hd
  | superClause hc =>
    cases hq with
    | superClause hd => exact ClauseForm.decides (SentenceForm.decides_overWords s) hc hd
  | proposition hm heq =>
    cases hq with
    | proposition hn heq' =>
      rw [← heq, ← heq']
      exact hm.level hn

/-- A text is decided member by member. -/
theorem TextForm.decides (s : Style) : Decides (TextForm.StandsFor s) := fun _ _ _ ht hu =>
  Text.compare_eq_iff.2 ((PropositionForm.decides s).alike ht hu)

/-! ## A canonical form is read in one way -/

/-- **One text, one reading**: what one text stands for is level where each form decides that. -/
theorem compare_eq_of_writes {F X : Type} [Ord X] {g : Grammar F} {fits : List Char → Prop}
    (hg : Reads g fits) (hend : fits []) {R : F → X → Prop} {s t : String} {x y : X} (hst : s = t)
    (hx : Writes g R s.toList x) (hy : Writes g R t.toList y)
    (hR : ∀ {f}, R f x → R f y → compare x y = .eq) : compare x y = .eq := by
  obtain ⟨f, hf, hfx⟩ := hx 0
  obtain ⟨f', hf', hfy⟩ := hy 0
  obtain ⟨rfl, -⟩ := hg.unique hf hf' hend hend (by rw [hst])
  exact hR hfx hfy

/-! ## Paths and links in their canonical forms -/

/-- Steps with `>` between them. -/
def path : Grammar (List ExpressionForm) := separated '>' Productions.anyExpression

/-- A path is read step by step: no expression goes on with the mark between two steps. -/
theorem reads_path : Reads path (Stops (Productions.continuations ∪ {'>'})) := by
  refine Productions.reads_anyExpression.separated_of_stops rfl ?_
  simp only [Productions.continuations, Set.mem_union, Set.mem_insert_iff, Set.mem_singleton_iff,
    Set.mem_ofPred_eq]
  decide

/-- Source, way and target. -/
def link : Grammar (TextForm × List PartForm × TextForm) :=
  between '(' ')' (.seq Productions.text (seqRight (.mark '@')
    (.seq (separated '>' Productions.pathStep) (seqRight (.mark '@') Productions.text))))

/-- A link in its canonical form is its source, its steps and its target, each read whole. -/
theorem reads_link : Reads link Any := by
  have htarget := Productions.nested_text.reads.markRight (m := '@') rfl
  have hsteps : Reads (separated '>' Productions.pathStep) (Stops ({'<'} ∪ {'>'})) :=
    Productions.reads_pathStep.separated_of_stops rfl (by simp)
  have hway := (hsteps.seq_of_opens htarget ((Opens.mark rfl).seqRight _) (by simp)).markRight
    (m := '@') rfl
  have hbody := Productions.nested_text.reads.seq_of_any hway
  exact (ReadsExactly.between rfl rfl (hbody.mono fun _ => trivial : Reads _ (Stops ∅))
    (Set.notMem_empty _)).reads

structure StandsForLink (f : TextForm × List PartForm × TextForm) (l : Hyperlink) : Prop where
  source : f.1.StandsFor .canonical l.source
  steps : Forall₂ (PartForm.StandsFor .canonical) f.2.1 l.anchor.steps
  target : f.2.2.StandsFor .canonical l.target

section Stock

variable {k : Stock} (hk : k.Legible .canonical)

include hk

/-- A path writes its steps in their canonical forms ... -/
theorem Path.Built.writes {p : Path} (hp : p.Built k) :
    Writes path (fun fs p => Forall₂ (fun f x => f.StandsFor .canonical x ∧ x.Built k) fs p.steps)
      p.canonical.toList p := by
  have hstep : ∀ x ∈ p.steps, Writes Productions.anyExpression
      (fun f x => f.StandsFor .canonical x ∧ x.Built k) x.canonical.toList x :=
    fun x hx o => ((hp.facts.1 x hx).writes hk o).imp fun _ hf => ⟨hf.1, hf.2, hp.facts.1 x hx⟩
  have htext : p.canonical.toList =
      ['>'].intercalate (p.steps.map fun x => x.canonical.toList) := by
    simp [canonical, Function.comp_def]
  rw [htext]
  exact fun o => Writes.separated '>' hstep (List.cons_ne_nil _ _) o

/-- ... and a link its ends around its steps. -/
theorem Hyperlink.Facts.writes_link {l : Hyperlink} (hl : l.Facts k) :
    Writes link StandsForLink l.canonical.toList l := by
  have hsteps := Writes.separated '>' (fun p hp => (hl.steps p hp).writes_step hk)
    (List.cons_ne_nil _ _)
  have hway := (hsteps.seq ((hl.target.writes hk).markRight '@')).markRight '@'
  have htext : l.canonical.toList = '(' :: ((l.source.canonical.toList ++ '@' ::
      (['>'].intercalate (l.anchor.steps.map fun p => p.canonical.toList) ++
        '@' :: l.target.canonical.toList)) ++ [')']) := by
    simp [canonical, Anchor.canonical, Function.comp_def]
  rw [htext]
  exact fun o => (((hl.source.writes hk).seq hway).between '(' ')' o).imp
    fun _ hf => ⟨hf.1, hf.2.1, hf.2.2.1, hf.2.2.2⟩

/-! ## What shares a canonical form is level -/

/-- Parts of one canonical form are level. -/
theorem Part.Built.level {p q : Part} (hp : p.Built k) (hq : q.Built k)
    (h : p.canonical = q.canonical) : compare p q = .eq :=
  compare_eq_of_writes (R := fun f p => ExpressionForm.StandsFor .canonical f (.part p))
    Productions.reads_anyExpression (stops_nil _) h (hp.writes hk) (hq.writes hk)
    fun hp hq => by
      cases hp with | part hp => cases hq with | part hq => exact PartForm.decides _ hp hq

theorem Proposition.level_toPart {p q : Proposition} (hp : p.toPart.Built k)
    (hq : q.toPart.Built k) (h : compare p q = .eq) : compare p.toPart q.toPart = .eq :=
  hp.level hk hq (Proposition.compare_eq_iff.1 h).2

/-- Each link has its place in the form of a hypertext, where it is found again. -/
theorem exists_level_link {h h' : Hypertext} (hh : h.Facts k) (hh' : h'.Facts k)
    {blocks : List BlockForm} (hblocks : Forall₂ (BlockForm.StandsFor h) blocks h.sources)
    (hblocks' : Forall₂ (BlockForm.StandsFor h') blocks h'.sources) {l : Hyperlink}
    (hl : l ∈ h.links) : ∃ l' ∈ h'.links, compare l l' = .eq := by
  have hfacts := hh.links l hl
  -- the source, its member and the anchor behind it, in the form of `h`
  obtain ⟨source, hsource, p, hp, hplace⟩ := hh.exists_place hl
  obtain ⟨block, hblock, hstands⟩ := exists_mem_of_forall₂ hblocks.flip hsource
  obtain ⟨f, hf, hfp⟩ := exists_mem_of_forall₂ hstands.flip hp
  obtain ⟨a, ha, hal⟩ := exists_mem_of_forall₂ hfp.anchors.flip hplace
  -- and what they stand for in `h'`
  obtain ⟨source', -, hstands'⟩ := exists_mem_of_forall₂ hblocks' hblock
  obtain ⟨p', -, hfp'⟩ := exists_mem_of_forall₂ hstands' hf
  obtain ⟨l', hplace', hal'⟩ := exists_mem_of_forall₂ hfp'.anchors ha
  obtain ⟨-, hlsource, hpl⟩ := Hypertext.mem_linksFrom.1 hplace
  obtain ⟨hl', hlsource', hpl'⟩ := Hypertext.mem_linksFrom.1 hplace'
  have hfacts' := hh'.links l' hl'
  have hsources : compare source source' = .eq := by
    have hmembers : ∀ {links : List Hyperlink} {t : Text},
        Forall₂ (MemberForm.StandsFor links) block.members t.members →
        Forall₂ (PropositionForm.StandsFor .canonical) (block.members.map (·.proposition))
          t.members := fun h => List.forall₂_map_left_iff.2 (h.imp fun _ _ hf => hf.proposition)
    exact Text.compare_eq_iff.2
      ((PropositionForm.decides _).alike (hmembers hstands) (hmembers hstands'))
  have hmember : compare l.anchor.member l'.anchor.member = .eq :=
    TransCmp.eq_trans (OrientedCmp.eq_symm hpl) (TransCmp.eq_trans
      (PropositionForm.decides _ hfp.proposition hfp'.proposition) hpl')
  refine ⟨l', hl', Hyperlink.compare_eq_iff.2 ⟨?_, .cons ?_ ?_, ?_⟩⟩
  · exact TransCmp.eq_trans hlsource (TransCmp.eq_trans hsources
      (OrientedCmp.eq_symm hlsource'))
  · exact Proposition.level_toPart hk (hfacts.steps _ List.mem_cons_self)
      (hfacts'.steps _ List.mem_cons_self) hmember
  · exact (PartForm.decides _).alike hal.steps hal'.steps
  · exact TextForm.decides _ hal.target hal'.target

/-- A form decides which links a hypertext has. -/
theorem Hypertext.Facts.level {h h' : Hypertext} (hh : h.Facts k) (hh' : h'.Facts k)
    {blocks : List BlockForm} (hblocks : Forall₂ (BlockForm.StandsFor h) blocks h.sources)
    (hblocks' : Forall₂ (BlockForm.StandsFor h') blocks h'.sources) : compare h h' = .eq :=
  Hypertext.compare_eq_iff.2 (alike_of_increasing hh.increasing hh'.increasing
    (fun _ hl => exists_level_link hk hh hh' hblocks hblocks' hl)
    fun _ hl => exists_level_link hk hh' hh hblocks' hblocks hl)

/-- **A form decides an expression.** -/
theorem ExpressionForm.StandsFor.level {f : ExpressionForm} {x y : Expression}
    (hx : f.StandsFor .canonical x) (hy : f.StandsFor .canonical y) (hbx : x.Built k)
    (hby : y.Built k) : compare x y = .eq := by
  cases hx with
  | part hp => cases hy with | part hq => exact PartForm.decides _ hp hq
  | text ht => cases hy with | text hu => exact TextForm.decides _ ht hu
  | hypertext hh =>
    cases hy with
    | hypertext hh' =>
      cases hbx with
      | hypertext built =>
        cases hby with
        | hypertext built' => exact built.facts.level hk built'.facts hh hh'

/-- **Expressions of one canonical form are level.** -/
theorem Expression.Built.level {x y : Expression} (hx : x.Built k) (hy : y.Built k)
    (h : x.canonical = y.canonical) : compare x y = .eq :=
  compare_eq_of_writes Productions.reads_anyExpression (stops_nil _) h (hx.writes hk)
    (hy.writes hk) fun hfx hfy => hfx.level hk hfy hx hy

/-- Paths of one canonical form are level: no expression goes on with what parts the steps. -/
theorem Path.Built.level {p q : Path} (hp : p.Built k) (hq : q.Built k)
    (h : p.canonical = q.canonical) : compare p q = .eq :=
  compare_eq_of_writes reads_path (stops_nil _) h (hp.writes hk) (hq.writes hk) fun hfp hfq =>
    Path.compare_eq_iff.2 (Decides.alike (fun _ _ _ hx hy => hx.1.level hk hy.1 hx.2 hy.2) hfp hfq)

/-- Links of one canonical form are level. -/
theorem Hyperlink.Built.level {l l' : Hyperlink} (hl : l.Built k) (hl' : l'.Built k)
    (h : l.canonical = l'.canonical) : compare l l' = .eq :=
  compare_eq_of_writes reads_link trivial h (hl.facts.writes_link hk) (hl'.facts.writes_link hk)
    fun hf hf' => Hyperlink.compare_eq_iff.2 ⟨TextForm.decides _ hf.source hf'.source,
      (PartForm.decides _).alike hf.steps hf'.steps, TextForm.decides _ hf.target hf'.target⟩

end Stock

/-! ## One identity -/

/-- Things that are equal, level and of one canonical form together, in a total order. -/
structure OneIdentity {X : Type} [BEq X] [Ord X] (built : X → Prop) (canonical : X → String) :
    Prop where
  beq_iff : ∀ {x y}, built x → built y → ((x == y) = true ↔ canonical x = canonical y)
  compare_iff : ∀ {x y}, built x → built y → (compare x y = .eq ↔ canonical x = canonical y)
  total : TransOrd X

/-- The terms of all dictionaries, with any literals. -/
def Stock.issued : Stock := ⟨fun t => ∃ d, Dictionary.Accepted d ∧ t ∈ d.terms, fun _ => True⟩

theorem Stock.legible_issued : Stock.issued.Legible .canonical where
  script := fun ⟨_, hd, ht⟩ => hd.valid ht
  body := nofun

section Kinds

variable {k : Stock} (hk : k.Legible .canonical)

include hk

/-- **Expressions have one identity** ... -/
theorem Expression.oneIdentity : OneIdentity (Expression.Built k) canonical where
  beq_iff {x y} hx hy := by
    change (x.kind == y.kind && x.canonical == y.canonical) = true ↔ _
    rw [Bool.and_eq_true, beq_iff_eq, beq_iff_eq]
    exact ⟨fun h => h.2, fun h => ⟨kind_eq_of_compare (hx.level hk hy h), h⟩⟩
  compare_iff hx hy := ⟨canonical_congr, hx.level hk hy⟩
  total := inferInstance

/-- ... and paths ... -/
theorem Path.oneIdentity : OneIdentity (Path.Built k) canonical where
  beq_iff {p q} _ _ := show (p.canonical == q.canonical) = true ↔ _ from beq_iff_eq
  compare_iff hp hq := ⟨canonical_congr, hp.level hk hq⟩
  total := inferInstance

/-- ... and links, by the same argument: each is read from its canonical form in one way ... -/
theorem Hyperlink.oneIdentity : OneIdentity (Hyperlink.Built k) canonical where
  beq_iff {l l'} _ _ := show (l.canonical == l'.canonical) = true ↔ _ from beq_iff_eq
  compare_iff hl hl' := ⟨canonical_congr, hl.level hk hl'⟩
  total := inferInstance

/-- ... and propositions, as the parts that they are. -/
theorem Proposition.oneIdentity :
    OneIdentity (fun p : Proposition => p.toPart.Built k) canonical := by
  have hlevel : ∀ {p q : Proposition}, p.toPart.Built k → q.toPart.Built k →
      p.canonical = q.canonical → compare p q = .eq :=
    fun hp hq h => compare_eq_of_toPart (hp.level hk hq h)
  have hcongr : ∀ {p q : Proposition}, compare p q = .eq → p.canonical = q.canonical :=
    fun h => (Proposition.compare_eq_iff.1 h).2
  exact {
    beq_iff hp hq := compare_eq_iff_beq.symm.trans ⟨hcongr, hlevel hp hq⟩
    compare_iff hp hq := ⟨hcongr, hlevel hp hq⟩
    total := inferInstance }

/-- **Hypertexts are written alike** when they have the same links. -/
theorem Hypertext.Built.canonical_eq_iff {h h' : Hypertext} (hh : h.Built k) (hh' : h'.Built k) :
    h.canonical = h'.canonical ↔ ∀ l, h.hasLink l = h'.hasLink l := by
  have hiff := (Expression.oneIdentity hk).compare_iff (.hypertext hh) (.hypertext hh')
  exact hiff.symm.trans (Hypertext.compare_eq_iff.trans
    (alike_iff_has hh.facts.increasing hh'.facts.increasing))

end Kinds

/-- **One identity**, for expressions of all kinds, paths, links and propositions over the terms of
any dictionaries, whatever their literals. Hypertexts are written alike exactly when they have the
same links, and expressions of different kinds never are. -/
theorem one_identity :
    OneIdentity (Expression.Built .issued) Expression.canonical ∧
      OneIdentity (Path.Built .issued) Path.canonical ∧
      OneIdentity (Hyperlink.Built .issued) Hyperlink.canonical ∧
      OneIdentity (fun p : Proposition => p.toPart.Built .issued) Proposition.canonical ∧
      (∀ {h h' : Hypertext}, h.Built .issued → h'.Built .issued →
        (h.canonical = h'.canonical ↔ ∀ l, h.hasLink l = h'.hasLink l)) ∧
      ∀ {x y : Expression}, x.Built .issued → y.Built .issued → x.kind ≠ y.kind →
        x.canonical ≠ y.canonical := by
  have hk := Stock.legible_issued
  refine ⟨Expression.oneIdentity hk, Path.oneIdentity hk, Hyperlink.oneIdentity hk,
    Proposition.oneIdentity hk, fun hh hh' => hh.canonical_eq_iff hk hh', ?_⟩
  intro x y hx hy hkind h
  exact hkind (Expression.kind_eq_of_compare (hx.level hk hy h))

/-- A word and the same word with a literal. -/
theorem one_identity_noted : ∃ x y : Expression, x.Built .issued ∧ y.Built .issued ∧
    x.display ≠ y.display ∧ (x == y) = true ∧ compare x y = .eq := by
  have hnoun : Stock.issued.term (Sample.noun "a." 0) :=
    ⟨Sample.dictionary, Sample.accepted, List.mem_cons_self⟩
  have hbuilt : ∀ literals, Expression.Built .issued
      (.part (.word (Sample.word (Sample.noun "a." 0) literals))) := fun literals =>
    .part (Sample.word_built hnoun fun _ _ => trivial)
  refine ⟨_, _, hbuilt [], hbuilt [.ofText "here"], by decide, ?_, ?_⟩
  · exact (one_identity.1.beq_iff (hbuilt _) (hbuilt _)).2 rfl
  · exact (one_identity.1.compare_iff (hbuilt _) (hbuilt _)).2 rfl

end Metalanguage
