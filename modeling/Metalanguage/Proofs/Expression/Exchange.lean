import Metalanguage.Proofs.Expression.Order
import Metalanguage.Proofs.TreeGraph.Mapping

/-!
# Proofs/Expression/Exchange — expressions over exchanged terms

The terms of an expression may be exchanged for others of the same scripts and classes, say those of
another dictionary (`mapTerms`). No comparison, written form or class shows the exchange: on each
level the new expression is level with the old one and displayed like it, up to
`Expression.compare_mapTerms`.
-/

namespace Metalanguage

open Std Ordered

/-- **An exchange of terms** for others of the same scripts and classes. -/
structure Exchange (φ : Term → Term) : Prop where
  script : ∀ t, (φ t).script = t.script
  grammaticalClass : ∀ t, (φ t).grammaticalClass = t.grammaticalClass

/-- To leave all terms is an exchange. -/
theorem Exchange.id : Exchange id := ⟨fun _ => rfl, fun _ => rfl⟩

/-! ## Exchanged terms on each level -/

/-- The morpheme of the exchanged terms. -/
def Morpheme.mapTerms (φ : Term → Term) (m : Morpheme) : Morpheme := ⟨m.terms.map φ⟩

/-- The word of the exchanged terms. -/
def Word.mapTerms (φ : Term → Term) (w : Word) : Word :=
  ⟨w.substance.mapTerms φ, w.mode.map (·.mapTerms φ), w.literals⟩

/-- The clause of other nodes. -/
def Clause.map {N : Type} (f : N → N) (c : Clause N) : Clause N :=
  ⟨f c.substance, f c.attr, f c.mode⟩

/-- The sentence over other nodes. -/
def Sentence.map {N : Type} (f : N → N) (s : Sentence N) : Sentence N :=
  ⟨s.graph.map f (Clause.map f), s.literals⟩

/-- The part of the exchanged terms. -/
def Part.mapTerms (φ : Term → Term) : Part → Part
  | term t => term (φ t)
  | morpheme m => morpheme (m.mapTerms φ)
  | word w => word (w.mapTerms φ)
  | clause c => clause (c.map (Word.mapTerms φ))
  | sentence s => sentence (s.map (Word.mapTerms φ))
  | superClause c => superClause (c.map (Sentence.map (Word.mapTerms φ)))
  | superSentence s => superSentence (s.map (Sentence.map (Word.mapTerms φ)))

/-- The proposition of the exchanged terms. -/
def Proposition.mapTerms (φ : Term → Term) : Proposition → Proposition
  | word w => word (w.mapTerms φ)
  | sentence s => sentence (s.map (Word.mapTerms φ))
  | superSentence s => superSentence (s.map (Sentence.map (Word.mapTerms φ)))

/-- The text of the exchanged terms. -/
def Text.mapTerms (φ : Term → Term) (t : Text) : Text := ⟨t.members.map (·.mapTerms φ)⟩

/-- The place of the exchanged terms. -/
def Anchor.mapTerms (φ : Term → Term) (a : Anchor) : Anchor :=
  ⟨a.member.mapTerms φ, a.descent.map (·.mapTerms φ)⟩

/-- The link of the exchanged terms. -/
def Hyperlink.mapTerms (φ : Term → Term) (l : Hyperlink) : Hyperlink :=
  ⟨l.source.mapTerms φ, l.target.mapTerms φ, l.anchor.mapTerms φ⟩

/-- The hypertext of the exchanged terms. -/
def Hypertext.mapTerms (φ : Term → Term) (h : Hypertext) : Hypertext :=
  ⟨h.links.map (·.mapTerms φ)⟩

/-- **The expression of the exchanged terms.** -/
def Expression.mapTerms (φ : Term → Term) : Expression → Expression
  | part p => part (p.mapTerms φ)
  | text t => text (t.mapTerms φ)
  | hypertext h => hypertext (h.mapTerms φ)

/-- The path of the exchanged terms. -/
def Path.mapTerms (φ : Term → Term) (p : Path) : Path :=
  ⟨p.first.mapTerms φ, p.rest.map (·.mapTerms φ)⟩

/-- A proposition is exchanged as the part that it is. -/
@[simp] theorem Proposition.toPart_mapTerms (φ : Term → Term) (p : Proposition) :
    (p.mapTerms φ).toPart = p.toPart.mapTerms φ := by cases p <;> rfl

@[simp] theorem Part.kind_mapTerms (φ : Term → Term) (p : Part) : (p.mapTerms φ).kind = p.kind := by
  cases p <;> rfl

/-! ## No exchange at all -/

/-- If terms stay, so does the morpheme of them ... -/
theorem Morpheme.mapTerms_id (m : Morpheme) : m.mapTerms id = m :=
  congrArg Morpheme.mk (List.map_id m.terms)

theorem Word.mapTerms_id : Word.mapTerms id = id := by
  funext w
  simp [mapTerms, Morpheme.mapTerms_id]

theorem Clause.map_id {N : Type} : Clause.map (id : N → N) = id := rfl

/-- ... and the tree of a sentence with its payloads ... -/
theorem Sentence.map_id {N : Type} : Sentence.map (id : N → N) = id := by
  have harc : Arc.map (id : Clause N → Clause N) = id := rfl
  funext s
  simp only [map, TreeGraph.map, Clause.map_id, harc, List.map_id, id_eq]

theorem Proposition.mapTerms_id (p : Proposition) : p.mapTerms id = p := by
  cases p <;> simp [mapTerms, Word.mapTerms_id, Sentence.map_id]

theorem Part.mapTerms_id (p : Part) : p.mapTerms id = p := by
  cases p <;> simp [mapTerms, Morpheme.mapTerms_id, Word.mapTerms_id, Sentence.map_id, Clause.map_id]

theorem Text.mapTerms_id (t : Text) : t.mapTerms id = t := by
  simp [mapTerms, Proposition.mapTerms_id]

/-- ... **and every expression**, its links and ways among them. -/
theorem Expression.mapTerms_id (x : Expression) : x.mapTerms id = x := by
  cases x <;> simp [mapTerms, Part.mapTerms_id, Text.mapTerms_id, Hypertext.mapTerms,
    Hyperlink.mapTerms, Anchor.mapTerms, Proposition.mapTerms_id]

/-! ## What keeps its place -/

/-- A function that leaves each value level with itself keeps the order. -/
theorem compare_map_of_level {X : Type} [Ord X] [TransOrd X] {f : X → X}
    (hf : ∀ x, compare (f x) x = .eq) (x y : X) : compare (f x) (f y) = compare x y := by
  rw [TransCmp.congr_left (hf x), TransCmp.congr_right (hf y)]

/-- ... and each list level with itself. -/
theorem alike_map_of_level {X : Type} [Ord X] {f : X → X} (hf : ∀ x, compare (f x) x = .eq)
    (l : List X) : Alike compare (l.map f) l :=
  List.forall₂_map_left_iff.2 (List.forall₂_same.2 fun x _ => hf x)

/-- **What cannot be told from the nodes of clauses** by their order, written form and class. -/
structure Faithful {N : Type} [ClauseNode N] (f : N → N) : Prop where
  level : ∀ n, compare (f n) n = .eq
  display : ∀ n, ClauseNode.display (f n) = ClauseNode.display n
  grammaticalClass : ∀ n, ClauseNode.grammaticalClass (f n) = ClauseNode.grammaticalClass n

section Nodes

variable {N : Type} [ClauseNode N] {f : N → N} (hf : Faithful f)

include hf

/-- Clauses are compared by their nodes. -/
theorem Clause.compare_map (c : Clause N) : compare (c.map f) c = .eq :=
  Clause.compare_eq_iff.2 ⟨hf.level _, hf.level _, hf.level _⟩

/-- The literals of its nodes show in a clause, and an exchange keeps them. -/
theorem Clause.display_map (c : Clause N) : (c.map f).display = c.display := by
  simp only [display, nodes, map, List.map_cons, hf.display]

/-- Sentences are compared by their clauses, in the order in which they are listed, and an exchange
does not sort them again. -/
theorem Sentence.compare_map (s : Sentence N) : compare (s.map f) s = .eq :=
  Sentence.compare_eq_iff.2 (alike_map_of_level (Clause.compare_map hf) s.clauses)

/-- The literals of a sentence are its own, and are left as they are. -/
theorem Sentence.display_map (s : Sentence N) : (s.map f).display = s.display := by
  have hclauses : (s.map f).clauses.map Clause.display = s.clauses.map Clause.display := by
    change (s.clauses.map (Clause.map f)).map Clause.display = _
    rw [List.map_map]
    exact List.map_congr_left fun c _ => c.display_map hf
  rw [display, hclauses]
  rfl

end Nodes

namespace Exchange

variable {φ : Term → Term} (hφ : Exchange φ)

include hφ

/-! ## Words and sentences -/

/-- Terms are compared by script. -/
theorem term (t : Term) : compare (φ t) t = .eq := Term.compare_eq_iff.2 (hφ.script t)

/-- A morpheme has its terms in order, and keeps them in it. -/
theorem morpheme (m : Morpheme) : compare (m.mapTerms φ) m = .eq :=
  compare_list_eq_iff.2 (alike_map_of_level hφ.term m.terms)

/-- The class of a morpheme comes of those of its terms. -/
theorem morpheme_class (m : Morpheme) :
    (m.mapTerms φ).grammaticalClass = m.grammaticalClass := by
  have hclasses : (m.terms.map φ).map Term.grammaticalClass = m.terms.map Term.grammaticalClass := by
    rw [List.map_map]
    exact List.map_congr_left fun t _ => hφ.grammaticalClass t
  rw [Morpheme.grammaticalClass, Morpheme.mapTerms, hclasses, Morpheme.grammaticalClass]

theorem compare_word (w : Word) : compare (w.mapTerms φ) w = .eq := by
  refine Word.compare_eq_iff.2 ⟨hφ.morpheme _, ?_⟩
  cases h : w.mode with
  | none => rw [Word.mapTerms, h]; rfl
  | some mode => rw [Word.mapTerms, h]; exact hφ.morpheme mode

/-- **Words do not show the exchange**, by their order, written form or class. -/
theorem word : Faithful (Word.mapTerms φ) where
  level := hφ.compare_word
  display w := by
    change (w.mapTerms φ).canonical ++ Literal.displayAll w.literals = w.display
    rw [Word.canonical_congr (hφ.compare_word w)]
    rfl
  grammaticalClass w := hφ.morpheme_class w.substance

/-- **Neither do sentences**: what holds of nodes holds of what is built of them, so that sentences
can be nodes in turn. -/
theorem sentence : Faithful (Sentence.map (Word.mapTerms φ)) where
  level := Sentence.compare_map hφ.word
  display := Sentence.display_map hφ.word
  grammaticalClass s := hφ.word.grammaticalClass s.root

/-! ## Parts and texts -/

/-- One case for each level: the upper ones are the lower ones over other nodes. -/
theorem part (p : Part) : compare (p.mapTerms φ) p = .eq := by
  cases p with
  | term t => exact hφ.term t
  | morpheme m => exact hφ.morpheme m
  | word w => exact hφ.compare_word w
  | clause c => exact c.compare_map hφ.word
  | sentence s => exact s.compare_map hφ.word
  | superClause c => exact c.compare_map hφ.sentence
  | superSentence s => exact s.compare_map hφ.sentence

/-- Where a part has no literals it is displayed as its canonical form, which levels fix. With
literals it is displayed node by node. -/
theorem part_display (p : Part) : (p.mapTerms φ).display = p.display := by
  cases p with
  | term t => exact Term.canonical_congr (hφ.term t)
  | morpheme m => exact Morpheme.canonical_congr (hφ.morpheme m)
  | word w => exact hφ.word.display w
  | clause c => exact c.display_map hφ.word
  | sentence s => exact s.display_map hφ.word
  | superClause c => exact c.display_map hφ.sentence
  | superSentence s => exact s.display_map hφ.sentence

/-- The class of a clause is that of its attribute, and the class of a sentence that of its root. -/
theorem part_class (p : Part) : (p.mapTerms φ).grammaticalClass = p.grammaticalClass := by
  cases p with
  | term t => exact hφ.grammaticalClass t
  | morpheme m => exact hφ.morpheme_class m
  | word w => exact hφ.word.grammaticalClass w
  | clause c => exact hφ.word.grammaticalClass c.attr
  | sentence s => exact hφ.word.grammaticalClass s.root
  | superClause c => exact hφ.sentence.grammaticalClass c.attr
  | superSentence s => exact hφ.sentence.grammaticalClass s.root

theorem proposition (p : Proposition) : compare (p.mapTerms φ) p = .eq :=
  Proposition.compare_eq_of_toPart (p.toPart_mapTerms φ ▸ hφ.part p.toPart)

theorem text (t : Text) : compare (t.mapTerms φ) t = .eq :=
  Text.compare_eq_iff.2 (alike_map_of_level hφ.proposition t.members)

/-- A text displays its members in order. -/
theorem text_display (t : Text) : (t.mapTerms φ).display = t.display := by
  have hmembers : (t.members.map (·.mapTerms φ)).map Proposition.display =
      t.members.map Proposition.display := by
    rw [List.map_map]
    refine List.map_congr_left fun p _ => ?_
    change (p.mapTerms φ).toPart.display = p.toPart.display
    rw [p.toPart_mapTerms, hφ.part_display]
  rw [Text.display, Text.mapTerms, hmembers, Text.display]

/-! ## Links and expressions -/

/-- The steps of a way are its member and the parts it leads down to. -/
theorem steps (a : Anchor) : Alike compare (a.mapTerms φ).steps a.steps := by
  refine .cons ?_ (alike_map_of_level hφ.part a.descent)
  exact a.member.toPart_mapTerms φ ▸ hφ.part a.member.toPart

/-- A link is compared by its source, its steps and its target. -/
theorem hyperlink (l : Hyperlink) : compare (l.mapTerms φ) l = .eq :=
  Hyperlink.compare_eq_iff.2 ⟨hφ.text l.source, hφ.steps l.anchor, hφ.text l.target⟩

theorem hypertext (h : Hypertext) : compare (h.mapTerms φ) h = .eq :=
  Hypertext.compare_eq_iff.2 (alike_map_of_level hφ.hyperlink h.links)

/-- **Exchanged terms leave an expression level with itself.** -/
theorem expression (x : Expression) : compare (x.mapTerms φ) x = .eq := by
  cases x with
  | part p => exact hφ.part p
  | text t => exact hφ.text t
  | hypertext h => exact hφ.hypertext h

/-- **Exchanged terms do not show in what is written.** -/
theorem expression_display (x : Expression) : (x.mapTerms φ).display = x.display := by
  cases x with
  | part p => exact hφ.part_display p
  | text t => exact hφ.text_display t
  | hypertext h => exact Hypertext.canonical_congr (hφ.hypertext h)

/-- Texts and hypertexts have no class, and none comes of an exchange. -/
theorem expression_class (x : Expression) :
    (x.mapTerms φ).grammaticalClass? = x.grammaticalClass? := by
  cases x with
  | part p => exact congrArg some (hφ.part_class p)
  | text t => rfl
  | hypertext h => rfl

/-- A path is compared step by step. -/
theorem path (p : Path) : compare (p.mapTerms φ) p = .eq :=
  Path.compare_eq_iff.2 (.cons (hφ.expression p.first) (alike_map_of_level hφ.expression p.rest))

end Exchange

end Metalanguage
