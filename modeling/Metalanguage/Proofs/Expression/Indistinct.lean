import Metalanguage.Proofs.Expression.ClauseOrder
import Metalanguage.Proofs.Expression.Containment

/-!
# Proofs/Expression/Indistinct — nothing tells level expressions apart but their literals

Level expressions over one dictionary are equal, have one canonical form and one class, the same
stages and the same order of clauses (`Sentence.SameTree.stages_eq`, `Sentence.SameTree.clauses_eq`),
and answer alike when they are compared with a third expression, looked for in it or searched for it
(`Expression.Built.indistinct`). The third expression may be any.
-/

namespace Metalanguage

open Std Ordered

/-- The stages of a sentence from the root down, in the canonical forms of their nodes. -/
def Expression.stageForms : Expression → List (List String)
  | part (.sentence s) => s.stages.map (List.map Word.canonical)
  | part (.superSentence s) => s.stages.map (List.map Sentence.canonical)
  | _ => []

/-- The clauses of a sentence in their order, each by the canonical forms of its substance, its
attribute and its mode. -/
def Expression.clauseForms : Expression → List (List String)
  | part (.sentence s) => s.clauses.map fun c => c.nodes.map Word.canonical
  | part (.superSentence s) => s.clauses.map fun c => c.nodes.map Sentence.canonical
  | _ => []

/-- **Nothing tells two expressions apart**, except what shows their literals. -/
structure Expression.Indistinct (x y : Expression) : Prop where
  beq : (x == y) = true
  canonical : x.canonical = y.canonical
  grammaticalClass? : x.grammaticalClass? = y.grammaticalClass?
  children : x.children.map Expression.canonical = y.children.map Expression.canonical
  stages : x.stageForms = y.stageForms
  clauses : x.clauseForms = y.clauseForms
  /-- Root, stages and clauses as they are described. -/
  tree : x.describeTree = y.describeTree
  compare : ∀ z, compare x z = compare y z ∧ compare z x = compare z y
  contains : ∀ z, x.contains z = y.contains z ∧ z.contains x = z.contains y
  hasChild : ∀ z, x.hasChild z = y.hasChild z ∧ z.hasChild x = z.hasChild y

variable {k : Stock}

/-! ## Classes and trees -/

theorem Part.Built.class_eq (hk : k.Unique) {p q : Part} (hp : p.Built k) (hq : q.Built k)
    (h : compare p q = .eq) : p.grammaticalClass = q.grammaticalClass := by
  have hkind := kind_eq_of_compare h
  have hword : ∀ {w v : Word}, w.Built k → v.Built k → compare w v = .eq →
      w.grammaticalClass = v.grammaticalClass := fun hw hv => hw.class_eq hk hv
  have hsentence : ∀ {s t : Sentence Word}, s.Built k (Word.Built k) → t.Built k (Word.Built k) →
      compare s t = .eq → s.grammaticalClass = t.grammaticalClass := fun hs ht =>
    hs.class_eq hk ht
  cases p <;> cases q <;> try cases hkind
  case term.term => exact congrArg Term.grammaticalClass (hk hp hq h)
  case morpheme.morpheme =>
    exact congrArg Morpheme.grammaticalClass (Morpheme.Built.eq_of_level hk hp hq h)
  case word.word => exact hword hp hq h
  case clause.clause =>
    exact hword (Clause.Built.nodes hp _ (by simp [Clause.nodes]))
      (Clause.Built.nodes hq _ (by simp [Clause.nodes])) (Clause.compare_eq_iff.1 h).2.1
  case sentence.sentence => exact hsentence hp hq h
  case superClause.superClause =>
    exact hsentence (Clause.Built.nodes hp _ (by simp [Clause.nodes]))
      (Clause.Built.nodes hq _ (by simp [Clause.nodes])) (Clause.compare_eq_iff.1 h).2.1
  case superSentence.superSentence => exact Sentence.Built.class_eq_of_nodes hsentence hp hq h

/-- **Level parts have the same tree**, by its stages, by its clauses and as it is described. -/
theorem Part.Built.tree_eq {p q : Part} (hp : p.Built k) (hq : q.Built k)
    (h : compare p q = .eq) :
    (Expression.part p).stageForms = (Expression.part q).stageForms ∧
      (Expression.part p).clauseForms = (Expression.part q).clauseForms ∧
      (Expression.part p).describeTree = (Expression.part q).describeTree := by
  have hkind := kind_eq_of_compare h
  have hsame : ∀ {N : Type} [ClauseNode N] [LawfulNode N] {s t : Sentence N}, s.SameTree t →
      s.stages.map (List.map ClauseNode.canonical) =
          t.stages.map (List.map ClauseNode.canonical) ∧
        (s.clauses.map fun c => c.nodes.map ClauseNode.canonical) =
          (t.clauses.map fun c => c.nodes.map ClauseNode.canonical) ∧
        [("graph", s.describeGraph)] = [("graph", t.describeGraph)] := fun h =>
    ⟨h.stages_eq, h.clauses_eq, congrArg (fun j => [("graph", j)]) h.describeGraph_eq⟩
  cases p <;> cases q <;> try cases hkind
  case sentence.sentence => exact hsame (Sentence.Built.sameTree hp hq h)
  case superSentence.superSentence => exact hsame (Sentence.Built.sameTree hp hq h)
  all_goals exact ⟨rfl, rfl, rfl⟩

/-- Level hypertexts have level texts, in the same order. -/
theorem Hypertext.texts_alike {g h : Hypertext} (hlevel : compare g h = .eq) :
    Alike compare g.texts h.texts :=
  alike_of_increasing (increasing_keepLast _) (increasing_keepLast _)
    (fun _ ht => exists_level_text hlevel ht)
    fun _ hu => exists_level_text (OrientedCmp.eq_symm hlevel) hu

namespace Expression

theorem map_canonical_children_eq {x y : Expression} (h : compare x y = .eq) :
    x.children.map canonical = y.children.map canonical := by
  rcases compare_cases h with ⟨p, q, rfl, rfl, h⟩ | ⟨t, u, rfl, rfl, h⟩ | ⟨g, g', rfl, rfl, h⟩ <;>
    rw [children, children, List.map_map, List.map_map]
  · exact (Part.children_alike h).map_eq fun _ _ _ _ => Part.canonical_congr
  · exact (Text.compare_eq_iff.1 h).map_eq fun _ _ _ _ hpq => (Proposition.compare_eq_iff.1 hpq).2
  · exact (Hypertext.texts_alike h).map_eq fun _ _ _ _ => Text.canonical_congr

/-! ## Containment -/

/-- A part is looked for in the members of a text; a text is, member by member. -/
theorem contains_text_of_compare {z : Expression} {t u : Text} (h : compare t u = .eq)
    (hz : z.contains (text t) = true) : z.contains (text u) = true := by
  have hmember : ∀ {w : Text}, contains (text w) (text t) = true →
      contains (text w) (text u) = true := by
    intro w hw
    rw [Built.text_contains_text_iff] at hw ⊢
    intro m hm
    obtain ⟨m', hm', hlevel⟩ := exists_mem_of_forall₂ (Text.compare_eq_iff.1 h).symm hm
    have hmember : (Expression.part m'.toPart == .part m.toPart) = true :=
      Proposition.compare_eq_iff_beq.1 (OrientedCmp.eq_symm hlevel)
    exact contains_congr (part_kind_ne_text _) hmember (hw m' hm')
  cases z with
  | part p => cases hz
  | text w => exact hmember hz
  | hypertext g =>
    obtain ⟨w, hw, hwt⟩ := List.any_eq_true.1 hz
    exact List.any_eq_true.2 ⟨w, hw, hmember hwt⟩

/-- Level needles are found in the same expressions. -/
theorem contains_of_compare_needle {x y z : Expression} (h : compare x y = .eq)
    (hz : z.contains x = true) : z.contains y = true := by
  rcases compare_cases h with ⟨p, q, rfl, rfl, -⟩ | ⟨t, u, rfl, rfl, h⟩ | ⟨g, g', rfl, rfl, -⟩
  · exact contains_congr (part_kind_ne_text p) (beq_of_compare h) hz
  · exact contains_text_of_compare h hz
  · exact contains_congr Kind.noConfusion (beq_of_compare h) hz

section Legible

variable (hk : k.Legible .canonical)

include hk

theorem Built.contains_of_compare {x y z : Expression} (hx : x.Built k) (hy : y.Built k)
    (h : compare x y = .eq) (hz : x.contains z = true) : y.contains z = true := by
  have hsimple : ∀ {x y z : Expression}, x.Built k → y.Built k → compare x y = .eq →
      z.kind ≠ .text → x.contains z = true → y.contains z = true := by
    intro x y z hx hy h htext hz
    obtain ⟨d, hd, hdz⟩ := (contains_iff htext).1 hz
    obtain ⟨e, he, hde⟩ := hx.exists_level_below hk hy h hd
    exact (contains_iff htext).2 ⟨e, he, beq_congr hde (level_self compare z) ▸ hdz⟩
  -- a text is in a text when its members are, and in a hypertext when it is in one of its texts
  have hmembers : ∀ {t u w : Text}, (Expression.text t).Built k → (Expression.text u).Built k →
      compare t u = .eq → contains (.text t) (.text w) = true →
        contains (.text u) (.text w) = true := by
    intro t u w ht hu h hw
    rw [text_contains_text_iff] at hw ⊢
    exact fun m hm => hsimple ht hu h (part_kind_ne_text _) (hw m hm)
  cases z with
  | part p => exact hsimple hx hy h (part_kind_ne_text p) hz
  | hypertext g => exact hsimple hx hy h Kind.noConfusion hz
  | text w =>
    rcases compare_cases h with ⟨p, q, rfl, rfl, -⟩ | ⟨t, u, rfl, rfl, h⟩ | ⟨g, g', rfl, rfl, h⟩
    · cases hz
    · exact hmembers hx hy h hz
    · obtain ⟨t, ht, htw⟩ := List.any_eq_true.1 hz
      obtain ⟨u, hu, htu⟩ := Hypertext.exists_level_text h ht
      exact List.any_eq_true.2 ⟨u, hu, hmembers (hx.of_mem_children (List.mem_map_of_mem ht))
        (hy.of_mem_children (List.mem_map_of_mem hu)) htu htw⟩

end Legible

/-- Level expressions of one class are told apart by their literals alone. -/
theorem Built.indistinct_of_class (hk : k.Legible .canonical) {x y : Expression} (hx : x.Built k)
    (hy : y.Built k) (h : compare x y = .eq)
    (hclass : x.grammaticalClass? = y.grammaticalClass?) : Indistinct x y := by
  have hsymm := OrientedCmp.eq_symm h
  obtain ⟨hstages, hclauses, htree⟩ : x.stageForms = y.stageForms ∧
      x.clauseForms = y.clauseForms ∧ x.describeTree = y.describeTree := by
    rcases compare_cases h with ⟨p, q, rfl, rfl, h⟩ | ⟨t, u, rfl, rfl, -⟩ | ⟨g, g', rfl, rfl, -⟩
    · cases hx with | part hp => cases hy with | part hq => exact hp.tree_eq hq h
    · exact ⟨rfl, rfl, rfl⟩
    · exact ⟨rfl, rfl, rfl⟩
  refine ⟨beq_of_compare h, canonical_congr h, hclass, map_canonical_children_eq h, hstages,
    hclauses, htree, fun z => ⟨TransCmp.congr_left h, TransCmp.congr_right h⟩,
    fun z => ⟨?_, ?_⟩, fun z => ⟨?_, ?_⟩⟩
  · exact Bool.eq_iff_iff.2 ⟨hx.contains_of_compare hk hy h, hy.contains_of_compare hk hx hsymm⟩
  · exact Bool.eq_iff_iff.2 ⟨contains_of_compare_needle h, contains_of_compare_needle hsymm⟩
  · exact Bool.eq_iff_iff.2
      ⟨hasChild_congr h (level_self compare z), hasChild_congr hsymm (level_self compare z)⟩
  · exact Bool.eq_iff_iff.2
      ⟨hasChild_congr (level_self compare z) h, hasChild_congr (level_self compare z) hsymm⟩

/-- **Nothing tells level expressions apart** but their literals. -/
theorem Built.indistinct {d : Dictionary} (hd : d.Accepted) {x y : Expression}
    (hx : x.Built d.stock) (hy : y.Built d.stock) (h : compare x y = .eq) : Indistinct x y := by
  refine hx.indistinct_of_class ⟨fun ht => hd.valid ht, nofun⟩ hy h ?_
  rcases compare_cases h with ⟨p, q, rfl, rfl, h⟩ | ⟨t, u, rfl, rfl, -⟩ | ⟨g, g', rfl, rfl, -⟩
  · cases hx with | part hp => cases hy with | part hq =>
      exact congrArg some (hp.class_eq hd.unique hq h)
  · rfl
  · rfl

end Expression

end Metalanguage
