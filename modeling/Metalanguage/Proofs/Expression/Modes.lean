import Metalanguage.Proofs.Expression.Built
import Metalanguage.Proofs.TreeGraph.Coarsening

/-!
# Proofs/Expression/Modes — modes never shape the tree

Clauses are compared by substance and attribute before they are compared by mode, so the order of
their ends (`Clause.Ends`) is coarser than their own and still decides the edge. Forgetting the
modes therefore commutes with building the tree, and clauses with the same ends, one by one, are
refused with one error or make sentences that differ in modes only
(`Sentence.ofClauses_of_ends`).
-/

namespace Metalanguage

open Std Ordered

/-! ## Clauses without modes -/

/-- What a clause joins, without its mode. -/
structure Clause.Ends (N : Type) where
  substance : N
  attr : N

namespace Clause

variable {N : Type}

/-- The substance and the attribute of a clause. -/
def ends (c : Clause N) : Ends N := ⟨c.substance, c.attr⟩

variable [ClauseNode N]

/-- By substance, then by attribute. -/
instance : Ord (Ends N) := ⟨compareLex (compareOn Ends.substance) (compareOn Ends.attr)⟩

instance [LawfulNode N] : TransOrd (Ends N) :=
  inferInstanceAs (TransCmp (compareLex (compareOn Ends.substance) (compareOn Ends.attr)))

theorem Ends.compare_eq_iff {a b : Ends N} : compare a b = .eq ↔
    compare a.substance b.substance = .eq ∧ compare a.attr b.attr = .eq :=
  Ordering.then_eq_eq

/-- **Modes are compared last.** -/
theorem refines_ends : Refines compare compare (ends : Clause N → Ends N) := by
  intro c d h
  change (compare (ends c) (ends d)).then (compare c.mode d.mode) = compare (ends c) (ends d)
  cases hcd : compare (ends c) (ends d) with
  | eq => exact absurd hcd h
  | lt => rfl
  | gt => rfl

end Clause

namespace Sentence

variable {N : Type} [ClauseNode N]

/-! ## Outcomes up to modes -/

/-- **Nothing but the modes differs**: one error, or two sentences that agree on the tree and on what
each clause joins. -/
inductive SameButModes : Except Error (Sentence N) → Except Error (Sentence N) → Prop
  | error (e : Error) : SameButModes (.error e) (.error e)
  | ok {s t : Sentence N} (nodes : s.nodes = t.nodes) (root : s.root = t.root)
    (stages : s.stages = t.stages) (parent? : s.graph.parent? = t.graph.parent?)
    (grammaticalClass : s.grammaticalClass = t.grammaticalClass)
    (nodeCount : s.graph.size = t.graph.size)
    (ends : s.clauses.map Clause.ends = t.clauses.map Clause.ends) : SameButModes (.ok s) (.ok t)

/-- Trees that are the same once the modes are forgotten. -/
theorem SameButModes.of_map_eq {g g' : TreeGraph N (Clause N)}
    (h : g.map id Clause.ends = g'.map id Clause.ends) :
    SameButModes (.ok ⟨g, []⟩) (.ok ⟨g', []⟩) := by
  have hparent : g.parent? = g'.parent? := by
    simpa only [TreeGraph.parent?_map_payloads] using congrArg TreeGraph.parent? h
  simp only [TreeGraph.map, TreeGraph.mk.injEq, List.map_id, id] at h
  obtain ⟨hnodes, -, hroot, hstages, hends⟩ := h
  refine .ok hnodes hroot ?_ hparent (congrArg ClauseNode.grammaticalClass hroot)
    (congrArg List.length hnodes) hends
  simp only [stages, TreeGraph.stageNodes, hnodes, hstages]

variable [LawfulNode N]

omit [LawfulNode N] in
/-- Clauses that join level ends stand for level edges. -/
theorem payloadDecides_ends (clauses : List (Clause N)) : TreeGraph.PayloadDecides
    ((clauses.map edgeOf).map (Edge.map id Clause.ends)) := by
  intro e he d hd h
  rw [List.map_map] at he hd
  obtain ⟨c, -, rfl⟩ := List.mem_map.1 he
  obtain ⟨c', -, rfl⟩ := List.mem_map.1 hd
  exact Clause.Ends.compare_eq_iff.1 h

/-- **Clauses that join the same** have the same outcome up to their modes. -/
theorem ofClauses_of_ends {clauses clauses' : List (Clause N)}
    (h : clauses.map Clause.ends = clauses'.map Clause.ends) (limit : ℕ) :
    SameButModes (ofClauses limit clauses) (ofClauses limit clauses') := by
  have hedges : (clauses.map edgeOf).map (Edge.map id Clause.ends) =
      (clauses'.map edgeOf).map (Edge.map id Clause.ends) := by
    have hedge : ∀ cs : List (Clause N), (cs.map edgeOf).map (Edge.map id Clause.ends) =
        (cs.map Clause.ends).map fun ends => ⟨ends.substance, ends.attr, ends⟩ := fun cs => by
      rw [List.map_map, List.map_map]
      rfl
    rw [hedge, hedge, h]
  have hforget : ∀ cs : List (Clause N),
      (TreeGraph.ofEdges limit (cs.map edgeOf)).map (TreeGraph.map id Clause.ends) =
        TreeGraph.ofEdges limit ((cs.map edgeOf).map (Edge.map id Clause.ends)) := fun cs =>
    (TreeGraph.ofEdges_of_refines Clause.refines_ends (payloadDecides_ends cs) limit).symm
  have hsame : (TreeGraph.ofEdges limit (clauses.map edgeOf)).map (TreeGraph.map id Clause.ends) =
      (TreeGraph.ofEdges limit (clauses'.map edgeOf)).map (TreeGraph.map id Clause.ends) := by
    rw [hforget, hforget, hedges]
  rw [ofClauses_eq, ofClauses_eq]
  cases hg : TreeGraph.ofEdges limit (clauses.map edgeOf) with
  | error e =>
    cases hg' : TreeGraph.ofEdges limit (clauses'.map edgeOf) with
    | error e' =>
      rw [hg, hg'] at hsame
      cases hsame
      exact .error _
    | ok g' => rw [hg, hg'] at hsame; cases hsame
  | ok g =>
    cases hg' : TreeGraph.ofEdges limit (clauses'.map edgeOf) with
    | error e' => rw [hg, hg'] at hsame; cases hsame
    | ok g' =>
      rw [hg, hg'] at hsame
      exact .of_map_eq (Except.ok.inj hsame)

/-- **Modes never shape the tree.** Replace the modes of some clauses, or of some super-clauses, by
any others, and keep each substance and attribute: under every limit the outcome is the same up to
the modes. -/
theorem ofClauses_modes_irrelevant (limit : ℕ) :
    (∀ clauses clauses' : List (Clause Word),
      clauses.map Clause.ends = clauses'.map Clause.ends →
        SameButModes (ofClauses limit clauses) (ofClauses limit clauses')) ∧
    ∀ clauses clauses' : List SuperClause,
      clauses.map Clause.ends = clauses'.map Clause.ends →
        SameButModes (ofClauses limit clauses) (ofClauses limit clauses') :=
  ⟨fun _ _ h => ofClauses_of_ends h limit, fun _ _ h => ofClauses_of_ends h limit⟩

/-- The fork with one mode for both clauses makes the same tree. -/
theorem ofClauses_modes_irrelevant_fork :
    Sample.fork.map Clause.ends =
        (Sample.fork.map fun c => { c with mode := c.substance }).map Clause.ends ∧
      (ofClauses 3 Sample.fork).isOk = true ∧
      SameButModes (ofClauses 3 Sample.fork)
        (ofClauses 3 (Sample.fork.map fun c => { c with mode := c.substance })) :=
  ⟨rfl, rfl, (ofClauses_modes_irrelevant 3).1 _ _ rfl⟩

end Sentence

end Metalanguage
