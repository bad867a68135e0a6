import Metalanguage.Expression.Path
import Metalanguage.Proofs.Ordered.Laws

/-!
# Proofs/Expression/Order — the orders of all levels are total

The comparison of each level is lexicographic in comparisons of the levels below, so the laws come
from below: `TransOrd` at every level, up to links and hypertexts. Parts compare by kind first,
which is lexicographic too, in the levels that a part is not of (`Part.compare_eq_levels`). Level
expressions have the same canonical form (`LawfulNode.canonical_congr` for the nodes of clauses,
then level by level), and they have the same children up to level ones (`Expression.hasChild_congr`),
although each kind looks for its children in its own way.
-/

namespace Metalanguage

open Std Ordered

/-! ## Kinds -/

instance : TransOrd Kind :=
  have h : (compare : Kind → Kind → Ordering) = compareOn Kind.ctorIdx := by
    funext a b
    cases a <;> cases b <;> rfl
  show TransCmp (compare : Kind → Kind → Ordering) from h ▸ inferInstance

instance : LawfulEqOrd Kind where
  eq_of_compare {a b} h := by cases a <;> cases b <;> first | rfl | cases h

/-! ## From terms to words -/

instance : TransOrd Term :=
  inferInstanceAs (TransCmp (compareLex (compareOn Term.layer) (compareOn Term.script)))

/-- Exactly terms of one script are level. -/
theorem Term.compare_eq_iff {t u : Term} : compare t u = .eq ↔ t.script = u.script := by
  change ((compare t.layer u.layer).then (compare t.script u.script)) = .eq ↔ _
  rw [Ordering.then_eq_eq, LawfulEqOrd.compare_eq_iff_eq, LawfulEqOrd.compare_eq_iff_eq]
  refine ⟨fun h => h.2, fun h => ⟨?_, h⟩⟩
  rw [Term.layer, Term.layer, h]

/-- Exactly terms of one script are equal. -/
theorem Term.beq_iff {t u : Term} : (t == u) = true ↔ compare t u = .eq := by
  rw [Term.compare_eq_iff]
  change (t.canonical == u.canonical) = true ↔ _
  simp [Term.canonical, String.append_right_inj, String.append_left_inj]

/-- Level terms have one script, and are written by it. -/
theorem Term.canonical_congr {t u : Term} (h : compare t u = .eq) : t.canonical = u.canonical := by
  rw [Term.canonical, Term.canonical, Term.compare_eq_iff.1 h]

instance : TransOrd Morpheme := inferInstanceAs (TransCmp (compareOn Morpheme.terms))

theorem Morpheme.alike_of_compare {m n : Morpheme} (h : compare m n = .eq) :
    Alike compare m.terms n.terms := compare_list_eq_iff.1 h

theorem Morpheme.canonical_congr {m n : Morpheme} (h : compare m n = .eq) :
    m.canonical = n.canonical := by
  rw [canonical, canonical, (alike_of_compare h).map_eq fun _ _ _ _ => Term.canonical_congr]

instance : TransOrd Word :=
  inferInstanceAs (TransCmp (compareLex (compareOn Word.substance) (compareOn Word.mode)))

/-- Words are level when their substances and their modes are. -/
theorem Word.compare_eq_iff {w v : Word} : compare w v = .eq ↔
    compare w.substance v.substance = .eq ∧ compare w.mode v.mode = .eq := Ordering.then_eq_eq

/-- Level words have level morphemes, a mode only where the other has one. -/
theorem Word.morphemes_alike {w v : Word} (h : compare w v = .eq) :
    Alike compare w.morphemes v.morphemes := by
  obtain ⟨hsubstance, hmode⟩ := Word.compare_eq_iff.1 h
  refine .cons hsubstance ?_
  cases hw : w.mode <;> cases hv : v.mode <;> rw [hw, hv] at hmode
  · exact .nil
  · cases hmode
  · cases hmode
  · exact .cons hmode .nil

/-- Literals are in neither the order nor the canonical form of a word. -/
theorem Word.canonical_congr {w v : Word} (h : compare w v = .eq) :
    w.canonical = v.canonical := by
  rw [canonical, canonical, (morphemes_alike h).map_eq fun _ _ _ _ => Morpheme.canonical_congr]

/-! ## Clauses and sentences -/

/-- Nodes of clauses whose comparison is an order that cannot tell canonical forms apart. -/
class LawfulNode (N : Type) [ClauseNode N] : Prop extends TransOrd N where
  canonical_congr : ∀ {a b : N}, compare a b = .eq → ClauseNode.canonical a = ClauseNode.canonical b

instance : LawfulNode Word where
  canonical_congr := Word.canonical_congr

section Nodes

variable {N : Type} [ClauseNode N] [LawfulNode N]

instance : TransOrd (Clause N) :=
  inferInstanceAs (TransCmp (compareLex
    (compareLex (compareOn Clause.substance) (compareOn Clause.attr)) (compareOn Clause.mode)))

omit [LawfulNode N] in
/-- Clauses are level when their nodes are. -/
theorem Clause.compare_eq_iff {c d : Clause N} : compare c d = .eq ↔
    compare c.substance d.substance = .eq ∧ compare c.attr d.attr = .eq ∧
      compare c.mode d.mode = .eq :=
  Ordering.then_eq_eq.trans ((and_congr_left fun _ => Ordering.then_eq_eq).trans and_assoc)

omit [LawfulNode N] in
theorem Clause.nodes_alike {c d : Clause N} (h : compare c d = .eq) :
    Alike compare c.nodes d.nodes := by
  obtain ⟨hsubstance, hattr, hmode⟩ := Clause.compare_eq_iff.1 h
  exact .cons hsubstance (.cons hattr (.cons hmode .nil))

/-- What is written alike node by node is written alike. -/
theorem Clause.canonical_congr {c d : Clause N} (h : compare c d = .eq) :
    c.canonical = d.canonical := by
  rw [canonical, canonical, (nodes_alike h).map_eq fun _ _ _ _ => LawfulNode.canonical_congr]

instance : TransOrd (Sentence N) := inferInstanceAs (TransCmp (compareOn Sentence.clauses))

omit [LawfulNode N] in
/-- Sentences are level when their clauses are. -/
theorem Sentence.compare_eq_iff {s t : Sentence N} : compare s t = .eq ↔
    Alike compare s.clauses t.clauses := compare_list_eq_iff

/-- A sentence is ordered by its clauses and written by them. -/
theorem Sentence.canonical_congr {s t : Sentence N} (h : compare s t = .eq) :
    s.canonical = t.canonical := by
  rw [canonical, canonical,
    (Sentence.compare_eq_iff.1 h).map_eq fun _ _ _ _ => Clause.canonical_congr]

end Nodes

instance : LawfulNode (Sentence Word) where
  canonical_congr := Sentence.canonical_congr

/-! ## Parts -/

namespace Part

section Levels

attribute [local instance] lexOrd

/-- The levels from the highest down, each empty but the one that a part is of. -/
def levels : Part → Option SuperSentence × Option SuperClause × Option (Sentence Word) ×
    Option (Clause Word) × Option Word × Option Morpheme × Option Term
  | superSentence s => (some s, none, none, none, none, none, none)
  | superClause c => (none, some c, none, none, none, none, none)
  | sentence s => (none, none, some s, none, none, none, none)
  | clause c => (none, none, none, some c, none, none, none)
  | word w => (none, none, none, none, some w, none, none)
  | morpheme m => (none, none, none, none, none, some m, none)
  | term t => (none, none, none, none, none, none, some t)

/-- **Parts are compared by kind first**: of two parts of different kinds, one has an empty level
where the other one's own is, and no level decides before. -/
theorem compare_eq_levels : (compare : Part → Part → Ordering) = compareOn levels := by
  funext p q
  cases p <;> cases q <;> first | rfl | exact Ordering.then_eq.symm

instance : TransOrd Part :=
  show TransCmp (compare : Part → Part → Ordering) from compare_eq_levels ▸ inferInstance

end Levels

/-- Parts of different kinds are never level. -/
theorem kind_eq_of_compare {p q : Part} (h : compare p q = .eq) : p.kind = q.kind := by
  cases p <;> cases q <;> first | rfl | cases h

/-- **Level parts are written alike** in canonical form. -/
theorem canonical_congr {p q : Part} (h : compare p q = .eq) : p.canonical = q.canonical := by
  have hkind := kind_eq_of_compare h
  cases p <;> cases q <;> try cases hkind
  case term.term t u => exact t.canonical_congr h
  case morpheme.morpheme m n => exact m.canonical_congr h
  case word.word w v => exact w.canonical_congr h
  case clause.clause c d => exact c.canonical_congr h
  case sentence.sentence s t => exact s.canonical_congr h
  case superClause.superClause c d => exact c.canonical_congr h
  case superSentence.superSentence s t => exact s.canonical_congr h

/-- Level parts have level children. -/
theorem children_alike {p q : Part} (h : compare p q = .eq) :
    Alike compare p.children q.children := by
  have hkind := kind_eq_of_compare h
  cases p <;> cases q <;> try cases hkind
  case term.term => exact .nil
  case morpheme.morpheme => exact (Morpheme.alike_of_compare h).map fun hab => hab
  case word.word => exact (Word.morphemes_alike h).map fun hab => hab
  case clause.clause => exact (Clause.nodes_alike h).map fun hab => hab
  case sentence.sentence => exact (Sentence.compare_eq_iff.1 h).map fun hab => hab
  case superClause.superClause => exact (Clause.nodes_alike h).map fun hab => hab
  case superSentence.superSentence => exact (Sentence.compare_eq_iff.1 h).map fun hab => hab

/-- Equality asks for kind and canonical form, so it cannot tell level parts apart. -/
theorem beq_congr {p p' q q' : Part} (hp : compare p p' = .eq) (hq : compare q q' = .eq) :
    (p == q) = (p' == q') := by
  change (p.kind == q.kind && p.canonical == q.canonical) = _
  rw [kind_eq_of_compare hp, kind_eq_of_compare hq, canonical_congr hp, canonical_congr hq]
  rfl

/-- A morpheme finds a term in its order exactly if one of its terms is equal. -/
theorem morpheme_hasChild_term_iff {m : Morpheme} {t : Term} :
    (morpheme m).hasChild (term t) = true ↔ ∃ u ∈ m.terms, (u == t) = true := by
  refine has_iff.trans (exists_congr fun u => and_congr_right fun _ => ?_)
  rw [OrientedCmp.eq_comm, ← Term.beq_iff]

/-- **The children that are asked for are found by equality**, whatever the search goes by. -/
theorem hasChild_iff {p q : Part} : p.hasChild q = true ↔ ∃ c ∈ p.children, (c == q) = true := by
  cases p with
  | morpheme m =>
    cases q with
    | term t =>
      rw [morpheme_hasChild_term_iff, children]
      simp only [List.mem_map, exists_exists_and_eq_and]
      rfl
    | _ => exact List.any_eq_true
  | _ => exact List.any_eq_true

/-- A search for a child cannot tell level parts apart either. -/
theorem hasChild_congr {p p' q q' : Part} (hp : compare p p' = .eq) (hq : compare q q' = .eq)
    (h : p.hasChild q = true) : p'.hasChild q' = true := by
  obtain ⟨child, hchild, heq⟩ := hasChild_iff.1 h
  obtain ⟨child', hchild', hlevel⟩ := exists_mem_of_forall₂ (children_alike hp) hchild
  exact hasChild_iff.2 ⟨child', hchild', beq_congr hlevel hq ▸ heq⟩

end Part

/-! ## Texts, links and hypertexts -/

instance : TransOrd Proposition :=
  inferInstanceAs (TransCmp (compareLex (compareOn Proposition.kind)
    (compareOn Proposition.canonical)))

/-- Propositions are level when they are of one kind and share their canonical form. -/
theorem Proposition.compare_eq_iff {p q : Proposition} : compare p q = .eq ↔
    p.kind = q.kind ∧ p.canonical = q.canonical :=
  Ordering.then_eq_eq.trans
    (and_congr LawfulEqOrd.compare_eq_iff_eq LawfulEqOrd.compare_eq_iff_eq)

/-- Propositions are compared by the very forms that they are equal by. -/
theorem Proposition.compare_eq_iff_beq {p q : Proposition} :
    compare p q = .eq ↔ (p == q) = true := by
  rw [Proposition.compare_eq_iff]
  change _ ↔ (p.kind == q.kind && p.canonical == q.canonical) = true
  simp

/-- Level parts have one kind and form, so as propositions they are level. -/
theorem Proposition.compare_eq_of_toPart {p q : Proposition}
    (h : compare p.toPart q.toPart = .eq) : compare p q = .eq :=
  Proposition.compare_eq_iff.2 ⟨Part.kind_eq_of_compare h, Part.canonical_congr h⟩

instance : TransOrd Text := inferInstanceAs (TransCmp (compareOn Text.members))

/-- Texts are level if their members are, one by one in order. -/
theorem Text.compare_eq_iff {t u : Text} : compare t u = .eq ↔
    Alike compare t.members u.members := compare_list_eq_iff

theorem Text.canonical_congr {t u : Text} (h : compare t u = .eq) : t.canonical = u.canonical := by
  rw [canonical, canonical, (Text.compare_eq_iff.1 h).map_eq fun _ _ _ _ hpq =>
    (Proposition.compare_eq_iff.1 hpq).2]

instance : TransOrd Hyperlink :=
  inferInstanceAs (TransCmp (compareLex (compareLex (compareOn Hyperlink.source)
    (compareOn fun l => l.anchor.steps)) (compareOn Hyperlink.target)))

/-- Links are level when their sources, their ways and their targets are. -/
theorem Hyperlink.compare_eq_iff {l k : Hyperlink} : compare l k = .eq ↔
    compare l.source k.source = .eq ∧ Alike compare l.anchor.steps k.anchor.steps ∧
      compare l.target k.target = .eq :=
  Ordering.then_eq_eq.trans ((and_congr_left fun _ =>
    Ordering.then_eq_eq.trans (and_congr_right fun _ => compare_list_eq_iff)).trans and_assoc)

/-- A link is written by its source, its steps and its target, and ordered by these. -/
theorem Hyperlink.canonical_congr {l k : Hyperlink} (h : compare l k = .eq) :
    l.canonical = k.canonical := by
  obtain ⟨hsource, hsteps, htarget⟩ := Hyperlink.compare_eq_iff.1 h
  rw [canonical, canonical, Text.canonical_congr hsource, Text.canonical_congr htarget,
    Anchor.canonical, Anchor.canonical, hsteps.map_eq fun _ _ _ _ => Part.canonical_congr]

instance : TransOrd Hypertext := inferInstanceAs (TransCmp (compareOn Hypertext.links))

theorem Hypertext.compare_eq_iff {h k : Hypertext} : compare h k = .eq ↔
    Alike compare h.links k.links := compare_list_eq_iff

namespace Hypertext

/-- The form of a link behind its member shows its steps and its target. -/
theorem linkSuffix_congr {l k : Hyperlink} (h : compare l k = .eq) :
    linkSuffix l = linkSuffix k := by
  obtain ⟨-, hsteps, htarget⟩ := Hyperlink.compare_eq_iff.1 h
  have hdescent : Alike compare l.anchor.descent k.anchor.descent :=
    (List.forall₂_cons.1 hsteps).2
  rw [linkSuffix, linkSuffix, Text.canonical_congr htarget,
    hdescent.map_eq fun _ _ _ _ hpq => by rw [Part.canonical_congr hpq]]

/-- A member has the same form among level links. -/
theorem memberForm_congr {links links' : List Hyperlink} (h : Alike compare links links')
    {p q : Proposition} (hpq : compare p q = .eq) : memberForm links p = memberForm links' q := by
  have hfilter : Alike compare (links.filter fun l => p == l.anchor.member)
      (links'.filter fun l => q == l.anchor.member) := by
    refine h.filter fun {l k} hlk => ?_
    obtain ⟨-, hsteps, -⟩ := Hyperlink.compare_eq_iff.1 hlk
    have hmember := Proposition.compare_eq_of_toPart (List.forall₂_cons.1 hsteps).1
    rw [Bool.eq_iff_iff, ← Proposition.compare_eq_iff_beq, ← Proposition.compare_eq_iff_beq,
      TransCmp.congr_left hpq, TransCmp.congr_right hmember]
  rw [memberForm, memberForm, (Proposition.compare_eq_iff.1 hpq).2,
    hfilter.map_eq fun _ _ _ _ => linkSuffix_congr]

/-- A source text has the same form among level links. -/
theorem blockForm_congr {h k : Hypertext} (hhk : Alike compare h.links k.links) {t u : Text}
    (htu : compare t u = .eq) : h.blockForm t = k.blockForm u := by
  have hfilter : Alike compare (h.links.filter fun l => compare l.source t == .eq)
      (k.links.filter fun l => compare l.source u == .eq) := by
    refine hhk.filter fun hl => ?_
    rw [TransCmp.congr_left (Hyperlink.compare_eq_iff.1 hl).1, TransCmp.congr_right htu]
  have hmembers : t.members.map (memberForm (h.links.filter fun l => compare l.source t == .eq)) =
      u.members.map (memberForm (k.links.filter fun l => compare l.source u == .eq)) := by
    rw [(Text.compare_eq_iff.1 htu).map_eq fun _ _ _ _ => memberForm_congr (.refl _)]
    exact List.map_congr_left fun p _ => memberForm_congr hfilter (level_self _ p)
  rw [blockForm, blockForm, hmembers]

/-- **Level hypertexts are written alike**: they have the same source texts, and level links behind
the same members. -/
theorem canonical_congr {h k : Hypertext} (hhk : compare h k = .eq) :
    h.canonical = k.canonical := by
  have hlinks := Hypertext.compare_eq_iff.1 hhk
  have hsources : Alike compare h.sources k.sources :=
    keepFirst_alike (hlinks.map fun hl => (Hyperlink.compare_eq_iff.1 hl).1)
  have hblocks : h.sources.map h.blockForm = k.sources.map k.blockForm := by
    rw [hsources.map_eq fun _ _ _ _ => blockForm_congr (.refl _)]
    exact List.map_congr_left fun t _ => blockForm_congr hlinks (level_self _ t)
  rw [canonical, canonical, hblocks]

/-- The texts of a hypertext are the two ends of its links. -/
theorem exists_link_of_mem_texts {h : Hypertext} {t : Text} (ht : t ∈ h.texts) :
    ∃ l ∈ h.links, t = l.source ∨ t = l.target := by
  obtain ⟨l, hl, hlt⟩ := List.mem_flatMap.1 (mem_of_mem_keepLast ht)
  exact ⟨l, hl, List.mem_pair.1 hlt⟩

/-- Level hypertexts have level texts. -/
theorem exists_level_text {g h : Hypertext} (hlevel : compare g h = .eq) {t : Text}
    (ht : t ∈ g.texts) : ∃ u ∈ h.texts, compare t u = .eq := by
  obtain ⟨l, hl, hlt⟩ := exists_link_of_mem_texts ht
  obtain ⟨l', hl', hlink⟩ := exists_mem_of_forall₂ (compare_eq_iff.1 hlevel) hl
  obtain ⟨hsource, -, htarget⟩ := Hyperlink.compare_eq_iff.1 hlink
  obtain ⟨u, hu, htu⟩ : ∃ u ∈ [l'.source, l'.target], compare t u = .eq := by
    rcases hlt with rfl | rfl
    · exact ⟨_, List.mem_cons_self, hsource⟩
    · exact ⟨_, List.mem_cons_of_mem _ List.mem_cons_self, htarget⟩
  have hmem : u ∈ h.links.flatMap fun l => [l.source, l.target] :=
    List.mem_flatMap.2 ⟨l', hl', hu⟩
  -- of level texts only the last is listed
  obtain ⟨v, hv, huv⟩ := exists_mem_keepLast compare hmem
  exact ⟨v, hv, TransCmp.eq_trans htu huv⟩

end Hypertext

/-! ## Expressions and paths -/

namespace Expression

section Levels

attribute [local instance] lexOrd

/-- A hypertext, a text or a part, each empty but the one that an expression is. -/
def levels : Expression → Option Hypertext × Option Text × Option Part
  | hypertext h => (some h, none, none)
  | text t => (none, some t, none)
  | part p => (none, none, some p)

/-- **Expressions are compared by kind first**, and parts among them as parts. -/
theorem compare_eq_levels : (compare : Expression → Expression → Ordering) = compareOn levels := by
  funext x y
  rcases x with p | t | h <;> rcases y with q | u | k
  all_goals first
    | rfl
    | exact Ordering.then_eq.symm
    | cases p <;> rfl
    | cases q <;> rfl

instance : TransOrd Expression :=
  show TransCmp (compare : Expression → Expression → Ordering) from
    compare_eq_levels ▸ inferInstance

end Levels

/-- **Level expressions are both parts, both texts or both hypertexts**, and level as such. -/
theorem compare_cases {x y : Expression} (h : compare x y = .eq) :
    (∃ p q, x = part p ∧ y = part q ∧ compare p q = .eq) ∨
      (∃ t u, x = text t ∧ y = text u ∧ compare t u = .eq) ∨
        ∃ g g', x = hypertext g ∧ y = hypertext g' ∧ compare g g' = .eq := by
  rcases x with p | t | g <;> rcases y with q | u | g'
  case part.part => exact .inl ⟨p, q, rfl, rfl, h⟩
  case text.text => exact .inr (.inl ⟨t, u, rfl, rfl, h⟩)
  case hypertext.hypertext => exact .inr (.inr ⟨g, g', rfl, rfl, h⟩)
  all_goals first
    | cases h
    | cases p <;> cases h
    | cases q <;> cases h

theorem kind_eq_of_compare {x y : Expression} (h : compare x y = .eq) : x.kind = y.kind := by
  rcases compare_cases h with ⟨p, q, rfl, rfl, h⟩ | ⟨t, u, rfl, rfl, -⟩ | ⟨g, g', rfl, rfl, -⟩
  · exact Part.kind_eq_of_compare h
  · rfl
  · rfl

/-- **Level expressions are written alike** in canonical form. -/
theorem canonical_congr {x y : Expression} (h : compare x y = .eq) :
    x.canonical = y.canonical := by
  rcases compare_cases h with ⟨p, q, rfl, rfl, h⟩ | ⟨t, u, rfl, rfl, h⟩ | ⟨g, g', rfl, rfl, h⟩
  · exact Part.canonical_congr h
  · exact Text.canonical_congr h
  · exact Hypertext.canonical_congr h

/-! ## Equality and children -/

/-- Two expressions are equal if they have one kind and one canonical form. -/
theorem beq_iff {x y : Expression} :
    (x == y) = true ↔ x.kind = y.kind ∧ x.canonical = y.canonical := by
  change (x.kind == y.kind && x.canonical == y.canonical) = true ↔ _
  rw [Bool.and_eq_true, beq_iff_eq, beq_iff_eq]

theorem beq_self (x : Expression) : (x == x) = true := beq_iff.2 ⟨rfl, rfl⟩

theorem beq_trans {x y z : Expression} (h : (x == y) = true) (h' : (y == z) = true) :
    (x == z) = true := by
  rw [beq_iff] at *
  exact ⟨h.1.trans h'.1, h.2.trans h'.2⟩

theorem beq_of_compare {x y : Expression} (h : compare x y = .eq) : (x == y) = true :=
  beq_iff.2 ⟨kind_eq_of_compare h, canonical_congr h⟩

/-- Level expressions are equal to the same ones. -/
theorem beq_congr {x x' y y' : Expression} (hx : compare x x' = .eq) (hy : compare y y' = .eq) :
    (x == y) = (x' == y') := by
  rw [Bool.eq_iff_iff, beq_iff, beq_iff, kind_eq_of_compare hx, canonical_congr hx,
    kind_eq_of_compare hy, canonical_congr hy]

/-- A text looks for a part among its members, by equality ... -/
theorem text_hasChild_iff {t : Text} {p : Part} : (text t).hasChild (part p) = true ↔
    ∃ m ∈ t.members, (part m.toPart == part p) = true := List.any_eq_true

/-- ... and a hypertext for a text among the ends of its links, by order. -/
theorem hypertext_hasChild_iff {h : Hypertext} {t : Text} :
    (hypertext h).hasChild (text t) = true ↔ ∃ u ∈ h.texts, compare t u = .eq := has_iff

/-- What is found as a child is equal to one of the children. -/
theorem exists_child_of_hasChild {x y : Expression} (h : x.hasChild y = true) :
    ∃ c ∈ x.children, (c == y) = true := by
  rcases x with p | t | g <;> rcases y with q | u | g'
  case part.part =>
    obtain ⟨c, hc, heq⟩ := Part.hasChild_iff.1 h
    exact ⟨part c, List.mem_map_of_mem hc, heq⟩
  case text.part =>
    obtain ⟨m, hm, heq⟩ := text_hasChild_iff.1 h
    exact ⟨part m.toPart, List.mem_map_of_mem hm, heq⟩
  case hypertext.text =>
    obtain ⟨v, hv, hlevel⟩ := hypertext_hasChild_iff.1 h
    have hvu : compare (text v) (text u) = .eq := OrientedCmp.eq_symm hlevel
    exact ⟨text v, List.mem_map_of_mem hv, beq_of_compare hvu⟩
  all_goals cases h

/-- Whatever an expression lists as a child it has as one. -/
theorem hasChild_of_mem {x c : Expression} (h : c ∈ x.children) : x.hasChild c = true := by
  cases x <;> obtain ⟨a, ha, rfl⟩ := List.mem_map.1 h
  case part p => exact Part.hasChild_iff.2 ⟨a, ha, beq_self (part a)⟩
  case text t => exact text_hasChild_iff.2 ⟨a, ha, beq_self _⟩
  case hypertext g => exact hypertext_hasChild_iff.2 ⟨a, ha, level_self compare a⟩

/-- Level expressions have the same children. -/
theorem hasChild_congr {x x' y y' : Expression} (hx : compare x x' = .eq)
    (hy : compare y y' = .eq) (h : x.hasChild y = true) : x'.hasChild y' = true := by
  rcases compare_cases hx with
      ⟨p, p', rfl, rfl, hx⟩ | ⟨t, t', rfl, rfl, hx⟩ | ⟨g, g', rfl, rfl, hx⟩ <;>
    rcases compare_cases hy with
      ⟨q, q', rfl, rfl, hq⟩ | ⟨u, u', rfl, rfl, hu⟩ | ⟨f, f', rfl, rfl, -⟩
  · exact Part.hasChild_congr hx hq h
  · cases h
  · cases h
  · obtain ⟨m, hm, heq⟩ := text_hasChild_iff.1 h
    obtain ⟨m', hm', hlevel⟩ := exists_mem_of_forall₂ (Text.compare_eq_iff.1 hx) hm
    have hmember : (part m'.toPart == part m.toPart) = true :=
      Proposition.compare_eq_iff_beq.1 (OrientedCmp.eq_symm hlevel)
    exact text_hasChild_iff.2 ⟨m', hm', beq_trans hmember (beq_trans heq (beq_of_compare hy))⟩
  · cases h
  · cases h
  · cases h
  · obtain ⟨v, hv, huv⟩ := hypertext_hasChild_iff.1 h
    obtain ⟨v', hv', hlevel⟩ := Hypertext.exists_level_text hx hv
    exact hypertext_hasChild_iff.2
      ⟨v', hv', TransCmp.eq_trans (OrientedCmp.eq_symm hu) (TransCmp.eq_trans huv hlevel)⟩
  · cases h

end Expression

instance : TransOrd Path := inferInstanceAs (TransCmp (compareOn Path.steps))

theorem Path.compare_eq_iff {p q : Path} : compare p q = .eq ↔ Alike compare p.steps q.steps :=
  compare_list_eq_iff

/-- A path is written step by step. -/
theorem Path.canonical_congr {p q : Path} (h : compare p q = .eq) : p.canonical = q.canonical := by
  rw [canonical, canonical,
    (Path.compare_eq_iff.1 h).map_eq fun _ _ _ _ => Expression.canonical_congr]

end Metalanguage
