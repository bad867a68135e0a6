import Metalanguage.Description
import Metalanguage.Proofs.Expression.Built

/-!
# Proofs/Expression/ClauseOrder — a sentence does not depend on the order of its clauses

Two orders of the same clauses have the same edges, so their trees differ at most in which of
several level nodes they name. Level nodes have one canonical form, which settles the refusals
(`Sentence.refusal_eq`); the clauses of an accepted sentence are the same on both sides, literals
and all. What is left is the root, and over one dictionary level roots have one class
(`Word.Built.class_eq`, `Sentence.Built.class_eq`).
-/

namespace Metalanguage

open Std Ordered

section Nodes

variable {N : Type} [ClauseNode N] [LawfulNode N]

namespace Sentence

/-- Refusals that differ only in which of several level nodes they name are the same error. -/
theorem refusal_eq {e e' : TreeRefusal N}
    (h : TreeGraph.SameAnswer (P := Clause N) (.error e) (.error e')) : refusal e = refusal e' := by
  have hnames : ∀ {p q : List N}, Alike compare p q →
      p.map ClauseNode.canonical = q.map ClauseNode.canonical := fun hpq =>
    hpq.map_eq fun _ _ _ _ => LawfulNode.canonical_congr
  cases h with
  | cycle h => simp only [refusal, TreeDefect.map, hnames h]
  | noRoot => rfl
  | multipleRoots h => simp only [refusal, TreeDefect.map, hnames h]
  | multipleParents hab h =>
    simp only [refusal, TreeDefect.map, hnames h, LawfulNode.canonical_congr hab]
  | tooManyNodes limit actual => rfl

/-- The stages hold nodes of the same canonical forms, in the same order. -/
theorem SameTree.stages_eq {s t : Sentence N} (h : SameTree s t) :
    s.stages.map (List.map ClauseNode.canonical) = t.stages.map (List.map ClauseNode.canonical) := by
  have hstage : ∀ positions, (TreeGraph.pick s.graph.nodes positions).map ClauseNode.canonical =
      (TreeGraph.pick t.graph.nodes positions).map ClauseNode.canonical := fun positions =>
    (TreeGraph.pick_alike h.nodes positions).map_eq fun _ _ _ _ => LawfulNode.canonical_congr
  rw [Sentence.stages, Sentence.stages, TreeGraph.stageNodes, TreeGraph.stageNodes,
    List.map_map, List.map_map, h.stages]
  exact List.map_congr_left fun positions _ => hstage positions

/-- The clauses join nodes of the same canonical forms, in the same order. -/
theorem SameTree.clauses_eq {s t : Sentence N} (h : SameTree s t) :
    s.clauses.map (fun c => c.nodes.map ClauseNode.canonical) =
      t.clauses.map fun c => c.nodes.map ClauseNode.canonical :=
  h.clauses.map_eq fun _ _ _ _ hcd =>
    (Clause.nodes_alike hcd).map_eq fun _ _ _ _ => LawfulNode.canonical_congr

/-- The tree is described in the same words. -/
theorem SameTree.describeGraph_eq {s t : Sentence N} (h : SameTree s t) :
    s.describeGraph = t.describeGraph := by
  have hroot : ClauseNode.canonical s.root = ClauseNode.canonical t.root :=
    LawfulNode.canonical_congr h.root
  have hstages : s.stages.map (fun stage => Json.ofStrings (stage.map ClauseNode.canonical)) =
      t.stages.map (fun stage => Json.ofStrings (stage.map ClauseNode.canonical)) := by
    simpa only [List.map_map, Function.comp_def] using
      congrArg (List.map Json.ofStrings) h.stages_eq
  rw [describeGraph, describeGraph, hroot, hstages, h.clauses.map_eq fun c _ d _ hcd => ?_]
  obtain ⟨hsubstance, hattr, hmode⟩ := Clause.compare_eq_iff.1 hcd
  rw [LawfulNode.canonical_congr hsubstance, LawfulNode.canonical_congr hattr,
    LawfulNode.canonical_congr hmode]

/-- Sentences with the same clauses, literals and stages, and with nodes that are alike. -/
structure Same (s t : Sentence N) : Prop where
  clauses : s.clauses = t.clauses
  literals : s.literals = t.literals
  nodes : Alike compare s.nodes t.nodes
  root : compare s.root t.root = .eq
  stages : s.graph.stages = t.graph.stages

namespace Same

variable {s t : Sentence N}

omit [LawfulNode N] in
theorem canonical_eq (h : Same s t) : s.canonical = t.canonical := by
  rw [canonical, canonical, h.clauses]

omit [LawfulNode N] in
theorem display_eq (h : Same s t) : s.display = t.display := by
  rw [display, display, h.clauses, h.literals]

omit [LawfulNode N] in
theorem literalSet_eq (h : Same s t) : s.literalSet = t.literalSet := by
  rw [literalSet, literalSet, h.clauses, h.literals]

theorem compare_eq (h : Same s t) : compare s t = .eq :=
  Sentence.compare_eq_iff.2 (h.clauses ▸ .refl _)

theorem sameTree (h : Same s t) : SameTree s t :=
  ⟨h.clauses ▸ .refl _, h.nodes, h.root, h.stages⟩

end Same

/-- **Two orders of the same clauses** are refused with one error or make sentences that are the
same. -/
theorem ofClauses_of_perm {clauses clauses' : List (Clause N)} (h : clauses.Perm clauses')
    (limit : ℕ) :
    (∃ e, ofClauses limit clauses = .error e ∧ ofClauses limit clauses' = .error e) ∨
      ∃ s t, ofClauses limit clauses = .ok s ∧ ofClauses limit clauses' = .ok t ∧ Same s t := by
  have hsame := sameEdges (.refl clauses) (.refl clauses) h
  have hanswer := hsame.ofEdges_sameAnswer (payloadDecides clauses) limit
  rw [ofClauses_eq, ofClauses_eq]
  cases hg : TreeGraph.ofEdges limit (clauses.map edgeOf) with
  | error e =>
    cases hg' : TreeGraph.ofEdges limit (clauses'.map edgeOf) with
    | error e' =>
      rw [hg, hg'] at hanswer
      exact .inl ⟨refusal e, rfl, congrArg Except.error (refusal_eq hanswer).symm⟩
    | ok g' => rw [hg, hg'] at hanswer; cases hanswer
  | ok g =>
    cases hg' : TreeGraph.ofEdges limit (clauses'.map edgeOf) with
    | error e' => rw [hg, hg'] at hanswer; cases hanswer
    | ok g' =>
      have hpayloads := TreeGraph.payloads_eq_of_perm hg hg' (payloadDecides clauses) (h.map edgeOf)
      rw [hg, hg'] at hanswer
      cases hanswer with
      | tree hnodes hroot hstages _ =>
        exact .inr ⟨⟨g, []⟩, ⟨g', []⟩, rfl, rfl, hpayloads, rfl, hnodes, hroot, hstages⟩

end Sentence

end Nodes

/-! ## Classes -/

variable {k : Stock}

theorem Word.Built.class_eq (hk : k.Unique) {w v : Word} (hw : w.Built k) (hv : v.Built k)
    (h : compare w v = .eq) : w.grammaticalClass = v.grammaticalClass := by
  have hsubstance : w.substance = v.substance := (List.cons.inj (hw.morphemes_eq hk hv h)).1
  rw [grammaticalClass, grammaticalClass, hsubstance]

/-- Level sentences are of one class, that of their roots, where level nodes are. -/
theorem Sentence.Built.class_eq_of_nodes {N : Type} [ClauseNode N] [LawfulNode N]
    {node : N → Prop} (hnode : ∀ {a b : N}, node a → node b → compare a b = .eq →
      ClauseNode.grammaticalClass a = ClauseNode.grammaticalClass b) {s t : Sentence N}
    (hs : s.Built k node) (ht : t.Built k node) (h : compare s t = .eq) :
    s.grammaticalClass = t.grammaticalClass := by
  obtain ⟨_, _, -, hsTree⟩ := hs.exists_tree
  obtain ⟨_, _, -, htTree⟩ := ht.exists_tree
  exact hnode (hs.of_mem_nodes (root_mem_nodes hsTree)) (ht.of_mem_nodes (root_mem_nodes htTree))
    (hs.sameTree ht h).root

theorem Sentence.Built.class_eq (hk : k.Unique) {s t : Sentence Word}
    (hs : s.Built k (Word.Built k)) (ht : t.Built k (Word.Built k)) (h : compare s t = .eq) :
    s.grammaticalClass = t.grammaticalClass :=
  hs.class_eq_of_nodes (fun ha hb => ha.class_eq hk hb) ht h

/-! ## The outcome -/

/-- **Nothing tells the two outcomes apart**: one error, or parts that are equal and show the same.
-/
inductive Sentence.SameOutcome {N : Type} [ClauseNode N] (toPart : Sentence N → Part) :
    Except Error (Sentence N) → Except Error (Sentence N) → Prop
  | error (e : Error) : SameOutcome toPart (.error e) (.error e)
  | ok {s t : Sentence N} (beq : (toPart s == toPart t) = true)
    (compare : compare (toPart s) (toPart t) = .eq)
    (canonical : (toPart s).canonical = (toPart t).canonical)
    (children : (toPart s).children = (toPart t).children)
    (display : (toPart s).display = (toPart t).display) (literalSet : s.literalSet = t.literalSet)
    (grammaticalClass : (toPart s).grammaticalClass = (toPart t).grammaticalClass)
    (describe : (Expression.part (toPart s)).describe = (Expression.part (toPart t)).describe) :
    SameOutcome toPart (.ok s) (.ok t)

/-- How the sentences over one type of nodes are parts: what is asked of such a part is answered by
the sentence. -/
structure Sentence.Embeds {N : Type} [ClauseNode N] (toPart : Sentence N → Part) : Prop where
  kind : ∀ s t, (toPart s).kind = (toPart t).kind
  compare : ∀ s t, compare (toPart s) (toPart t) = compare s t
  canonical : ∀ s, (toPart s).canonical = s.canonical
  display : ∀ s, (toPart s).display = s.display
  grammaticalClass : ∀ s, (toPart s).grammaticalClass = s.grammaticalClass
  children : ∃ f : Clause N → Part, ∀ s, (toPart s).children = s.clauses.map f
  literals : ∀ s, (Expression.part (toPart s)).literals = s.literals
  tree : ∀ s, (Expression.part (toPart s)).describeTree = [("graph", s.describeGraph)]

theorem Sentence.embeds_sentence : Embeds Part.sentence where
  kind _ _ := rfl
  compare _ _ := rfl
  canonical _ := rfl
  display _ := rfl
  grammaticalClass _ := rfl
  children := ⟨Part.clause, fun _ => rfl⟩
  literals _ := rfl
  tree _ := rfl

theorem Sentence.embeds_superSentence : Embeds Part.superSentence where
  kind _ _ := rfl
  compare _ _ := rfl
  canonical _ := rfl
  display _ := rfl
  grammaticalClass _ := rfl
  children := ⟨Part.superClause, fun _ => rfl⟩
  literals _ := rfl
  tree _ := rfl

/-- Sentences that are the same, with roots of one class, are the same in every view. -/
theorem Sentence.Same.outcome {N : Type} [ClauseNode N] [LawfulNode N] {toPart : Sentence N → Part}
    (he : Embeds toPart) {s t : Sentence N} (h : Same s t)
    (hclass : s.grammaticalClass = t.grammaticalClass) : SameOutcome toPart (.ok s) (.ok t) := by
  have hkind := he.kind s t
  have hcanonical : (toPart s).canonical = (toPart t).canonical := by
    rw [he.canonical, he.canonical, h.canonical_eq]
  have hdisplay : (toPart s).display = (toPart t).display := by
    rw [he.display, he.display, h.display_eq]
  have hclass : (toPart s).grammaticalClass = (toPart t).grammaticalClass := by
    rw [he.grammaticalClass, he.grammaticalClass, hclass]
  have hchildren : (toPart s).children = (toPart t).children := by
    obtain ⟨f, hf⟩ := he.children
    rw [hf, hf, h.clauses]
  have hliterals : (Expression.part (toPart s)).literals =
      (Expression.part (toPart t)).literals := by
    rw [he.literals, he.literals, h.literals]
  refine .ok ?_ (by rw [he.compare, h.compare_eq]) hcanonical hchildren hdisplay h.literalSet_eq
    hclass ?_
  · change ((toPart s).kind == (toPart t).kind &&
      (toPart s).canonical == (toPart t).canonical) = true
    rw [hkind, hcanonical, beq_self_eq_true, beq_self_eq_true, Bool.and_self]
  · simp only [Expression.describe, Expression.describeClass, Expression.describeLiterals,
      Expression.grammaticalClass?, Expression.children, Expression.display, Expression.canonical,
      Expression.rank, Expression.kind, he.tree, hkind, hcanonical, hdisplay, hclass, hchildren,
      hliterals, h.sameTree.describeGraph_eq]

/-- Over nodes whose class is known by their level, the outcome is the same for every order. -/
theorem Sentence.sameOutcome_of_perm {N : Type} [ClauseNode N] [LawfulNode N]
    {toPart : Sentence N → Part} (he : Embeds toPart) {node : N → Prop}
    (hclass : ∀ {a b : N}, node a → node b → compare a b = .eq →
      ClauseNode.grammaticalClass a = ClauseNode.grammaticalClass b)
    {clauses clauses' : List (Clause N)} (hbuilt : ∀ c ∈ clauses, c.Built node)
    (h : clauses.Perm clauses') (limit : ℕ) :
    SameOutcome toPart (ofClauses limit clauses) (ofClauses limit clauses') := by
  have root_of : ∀ {clauses : List (Clause N)} {s : Sentence N}, (∀ c ∈ clauses, c.Built node) →
      ofClauses limit clauses = .ok s → node s.root := by
    intro clauses s hbuilt hs
    have hs' : s.Built ⟨fun _ => True, fun _ => True⟩ node := built_of_ofClauses hbuilt hs
    obtain ⟨_, _, -, htree⟩ := hs'.exists_tree
    exact hs'.of_mem_nodes (root_mem_nodes htree)
  rcases ofClauses_of_perm h limit with ⟨e, he, he'⟩ | ⟨s, t, hs, ht, hsame⟩
  · rw [he, he']
    exact .error e
  · rw [hs, ht]
    refine hsame.outcome he (hclass (root_of hbuilt hs) (root_of ?_ ht) hsame.root)
    exact fun c hc => hbuilt c (h.mem_iff.2 hc)

/-- **A sentence does not depend on the order of its clauses.** Over the terms of one dictionary,
with any literals on the nodes, every order of some clauses or super-clauses has the same outcome
under every limit. -/
theorem Sentence.ofClauses_order_independent {d : Dictionary} (hd : d.Accepted) (limit : ℕ) :
    (∀ clauses clauses' : List (Clause Word), (∀ c ∈ clauses, (Part.clause c).Built d.stock) →
      clauses.Perm clauses' →
        SameOutcome Part.sentence (ofClauses limit clauses) (ofClauses limit clauses')) ∧
    ∀ clauses clauses' : List SuperClause, (∀ c ∈ clauses, (Part.superClause c).Built d.stock) →
      clauses.Perm clauses' →
        SameOutcome Part.superSentence (ofClauses limit clauses) (ofClauses limit clauses') :=
  ⟨fun _ _ hbuilt h => sameOutcome_of_perm embeds_sentence
      (fun ha hb => ha.class_eq hd.unique hb) hbuilt h limit,
    fun _ _ hbuilt h => sameOutcome_of_perm embeds_superSentence
      (fun ha hb => ha.class_eq hd.unique hb) hbuilt h limit⟩

/-- The clauses of the fork make one sentence in both orders. -/
theorem Sentence.ofClauses_order_independent_fork :
    Sample.dictionary.Accepted ∧ Sample.fork.Perm Sample.fork.reverse ∧
      (∀ c ∈ Sample.fork, (Part.clause c).Built Sample.dictionary.stock) ∧
      (ofClauses 3 Sample.fork).isOk = true ∧
      SameOutcome Part.sentence (ofClauses 3 Sample.fork) (ofClauses 3 Sample.fork.reverse) := by
  have hbuilt : ∀ c ∈ Sample.fork, (Part.clause c).Built Sample.dictionary.stock :=
    Sample.fork_built (fun _ ht => ht) trivial
  have hperm : Sample.fork.Perm Sample.fork.reverse := (List.reverse_perm _).symm
  exact ⟨Sample.accepted, hperm, hbuilt, rfl,
    (ofClauses_order_independent Sample.accepted 3).1 _ _ hbuilt hperm⟩

end Metalanguage
