import Metalanguage.Proofs.TreeGraph.Children

/-!
# Proofs/TreeGraph/Ties — what edges that tie leave open

Two orders of the same edges are both accepted or both refused, and the trees agree on the nodes, the
root, the stages, the parents and the payloads (`ofEdges_up_to_ties`). Two edges out of one node tie
when their payloads are level but their targets are not. Such edges are listed in the order in which
they are given, and the search for a cycle follows them in that order (`ties_as_given`); without ties
the lists of outgoing edges are the same, and a reported cycle is too.
-/

namespace Metalanguage

open List (Forall₂)
open Std Ordered

namespace TreeGraph

variable {N P : Type} [Ord N] [Ord P]

/-! ## Views up to ties -/

/-- Entries of level nodes with level payloads. -/
def LevelEntry (x y : N × P) : Prop := compare x.1 y.1 = .eq ∧ compare x.2 y.2 = .eq

/-- **Trees that agree in every view**, but for the order of outgoing edges that tie. -/
structure SameViews (edges : List (Edge N P)) (g g' : TreeGraph N P) : Prop where
  nodes : Alike compare g.nodes g'.nodes
  root : compare g.root g'.root = .eq
  stages : Forall₂ (Alike compare) g.stageNodes g'.stageNodes
  parent? : ∀ a, Option.Rel (compare · · = .eq) (g.parent? a) (g'.parent? a)
  payloads : Alike compare g.payloads g'.payloads
  /-- The payloads out of a node stand in one order, ties or not. -/
  outgoing_payloads : ∀ a, Alike compare ((g.outgoing a).map (·.2)) ((g'.outgoing a).map (·.2))
  /-- The entries out of a node are the same, in some order. -/
  outgoing_entries : ∀ a, ∃ entries, Forall₂ LevelEntry (g.outgoing a) entries ∧
    entries.Perm (g'.outgoing a)
  outgoing : ∀ a, UntiedAt edges a → Forall₂ LevelEntry (g.outgoing a) (g'.outgoing a)

/-- **Answers that are the same but for ties.** -/
inductive SameUpToTies (edges : List (Edge N P)) :
    Except (TreeRefusal N) (TreeGraph N P) → Except (TreeRefusal N) (TreeGraph N P) → Prop
  /-- Both refuse the edges for a cycle, and without ties for the same one. -/
  | cycle {p q : List N} (h : (∀ a, UntiedAt edges a) → Alike compare p q) :
    SameUpToTies edges (.error (.defect (.cycle p))) (.error (.defect (.cycle q)))
  /-- Both refuse the edges for the same reason. -/
  | refused {e e' : TreeRefusal N} (h : SameAnswer (P := P) (.error e) (.error e')) :
    SameUpToTies edges (.error e) (.error e')
  | accepted {g g' : TreeGraph N P} (h : SameViews edges g g') :
    SameUpToTies edges (.ok g) (.ok g')

variable [TransOrd N] {edges edges' : List (Edge N P)} {root root' : N}

namespace SameEdges

/-- The parents stand at the same numbers. -/
theorem parentAt?_eq (h : SameEdges edges edges') (hp : Passed edges root)
    (hp' : Passed edges' root') :
    (treeOf edges root).parentAt? = (treeOf edges' root').parentAt? := by
  funext j
  refine Option.ext fun i => ?_
  rw [hp.parentAt?_eq_some_iff, hp'.parentAt?_eq_some_iff, ← TreeGraph.hasArc_iff,
    ← TreeGraph.hasArc_iff, h.hasArc_iff]

theorem parent?_rel (h : SameEdges edges edges') (hp : Passed edges root)
    (hp' : Passed edges' root') (a : N) : Option.Rel (compare · · = .eq)
      ((treeOf edges root).parent? a) ((treeOf edges' root').parent? a) := by
  have hposition : position? compare a (treeOf edges root).nodes =
      position? compare a (treeOf edges' root').nodes := position?_alike h.nodes_alike a
  rw [parent?, parent?, hposition, h.parentAt?_eq hp hp']
  cases position? compare a (treeOf edges' root').nodes with
  | none => exact .none
  | some j =>
    change Option.Rel _ (((treeOf edges' root').parentAt? j).bind _)
      (((treeOf edges' root').parentAt? j).bind _)
    cases (treeOf edges' root').parentAt? j with
    | none => exact .none
    | some i => exact getElem?_alike h.nodes_alike i

/-- Nodes at one number are level. -/
theorem getD_level (h : SameEdges edges edges') (hroot : compare root root' = .eq) (i : ℕ) :
    compare ((nodesOf edges)[i]?.getD root) ((nodesOf edges')[i]?.getD root') = .eq := by
  have hrel := getElem?_alike h.nodes_alike i
  generalize (nodesOf edges)[i]? = x, (nodesOf edges')[i]? = y at hrel
  cases hrel with
  | none => exact hroot
  | some hxy => exact hxy

variable [TransOrd P]

/-- **Accepted edges make trees that agree in every view**, in whatever order they are listed. -/
theorem sameViews (h : SameEdges edges edges') (hp : Passed edges root)
    (hp' : Passed edges' root')
    (hanswer : SameAnswer (.ok (treeOf edges root)) (.ok (treeOf edges' root'))) :
    SameViews edges (treeOf edges root) (treeOf edges' root') := by
  cases hanswer with
  | tree hnodes hroot hstages hpayloads =>
    -- a node is out of range on both sides, or its number is the same
    have hcases : ∀ a, (treeOf edges root).outgoing a = [] ∧ (treeOf edges' root').outgoing a = [] ∨
        ∃ i, position? compare a (nodesOf edges) = some i ∧
          position? compare a (nodesOf edges') = some i := by
      intro a
      cases hi : position? compare a (nodesOf edges) with
      | none => exact .inl ⟨outgoing_eq_nil hi, outgoing_eq_nil (position?_alike hnodes a ▸ hi)⟩
      | some i => exact .inr ⟨i, rfl, (position?_alike hnodes a).symm.trans hi⟩
    refine ⟨hnodes, hroot, stageNodes_alike hnodes hstages, h.parent?_rel hp hp', hpayloads,
      fun a => ?_, fun a => ?_, fun a hu => ?_⟩
    · rcases hcases a with ⟨hnil, hnil'⟩ | ⟨i, hi, hi'⟩
      · rw [hnil, hnil']
        exact .nil
      · rw [outgoing_treeOf hi, outgoing_treeOf hi', List.map_map, List.map_map]
        exact (h.sameArcs.leaving_alike i).map fun hab => hab
    · rcases hcases a with ⟨hnil, hnil'⟩ | ⟨i, hi, hi'⟩
      · rw [hnil, hnil']
        exact ⟨[], .nil, .refl _⟩
      · obtain ⟨m, hm, hperm⟩ := h.sameArcs.leaving i
        rw [outgoing_treeOf hi, outgoing_treeOf hi']
        refine ⟨m.map fun arc => ((nodesOf edges')[arc.head]?.getD root', arc.payload),
          List.rel_map (fun x y hxy => ?_) hm, hperm.map _⟩
        exact ⟨hxy.head ▸ h.getD_level hroot x.head, hxy.payload⟩
    · rcases hcases a with ⟨hnil, hnil'⟩ | ⟨i, hi, hi'⟩
      · rw [hnil, hnil']
        exact .nil
      · obtain ⟨ha, rfl⟩ := position?_nodesOf.1 hi
        have hheads := h.sameArcs.successors_eq (v := place edges a) fun x hx y hy hxa hya hxy =>
          h.head_eq_of_untiedAt ha hu hx hy hxa hya hxy
        rw [Arc.successors, Arc.successors, ← List.forall₂_eq_eq_eq, List.forall₂_map_left_iff,
          List.forall₂_map_right_iff] at hheads
        rw [outgoing_treeOf hi, outgoing_treeOf hi']
        refine List.rel_map (R := fun x y => x.head = y.head ∧ compare x.payload y.payload = .eq)
          (fun x y hxy => ⟨hxy.1 ▸ h.getD_level hroot x.head, hxy.2⟩) ?_
        exact hheads.mp (fun _ _ hhead hpayload => ⟨hhead, hpayload⟩) (h.sameArcs.leaving_alike _)

end SameEdges

variable [TransOrd P]

/-- **The order in which edges are listed shows in ties alone.** Of two orders of the same edges both
are accepted or both are refused, with the same nodes, root, stages, parents and payloads or for the
same reason. What edges that tie can change is their own order out of a node, and which cycle is
reported. -/
theorem ofEdges_up_to_ties (h : edges.Perm edges') (limit : ℕ) :
    SameUpToTies edges (ofEdges limit edges) (ofEdges limit edges') := by
  have hsame := SameEdges.of_perm h
  by_cases hcyclic : Cyclic edges
  · obtain ⟨walk, hwalk⟩ := cycle?_of_cyclic hcyclic
    obtain ⟨walk', hwalk'⟩ := cycle?_of_cyclic (hsame.cyclic_iff.1 hcyclic)
    rw [ofEdges_of_cycle? limit hwalk, ofEdges_of_cycle? limit hwalk']
    refine .cycle fun hu => ?_
    have hanswer := hsame.ofEdges_sameAnswer_of_untied hu limit
    rw [ofEdges_of_cycle? limit hwalk, ofEdges_of_cycle? limit hwalk'] at hanswer
    cases hanswer with | cycle hpaths => exact hpaths
  · have hanswer := hsame.ofEdges_sameAnswer_of_not_cyclic hcyclic limit
    rcases hg : ofEdges limit edges with e | g <;> rcases hg' : ofEdges limit edges' with e' | g' <;>
      rw [hg, hg'] at hanswer
    · exact .refused hanswer
    · cases hanswer
    · cases hanswer
    · obtain ⟨root, hp, rfl⟩ := exists_passed hg
      obtain ⟨root', hp', rfl⟩ := exists_passed hg'
      exact .accepted (hsame.sameViews hp hp' hanswer)

end TreeGraph

/-- Two edges that tie, the one to the greater node first. -/
def Sample.tied : List (Edge ℕ ℕ) := [⟨0, 2, 5⟩, ⟨0, 1, 5⟩]

/-- Two circles through one node, whose edges out of it tie. -/
def Sample.circles : List (Edge ℕ ℕ) := [⟨0, 1, 5⟩, ⟨1, 0, 6⟩, ⟨0, 2, 5⟩, ⟨2, 0, 7⟩]

namespace TreeGraph

/-- Both orders of two edges that tie make one tree, and both orders of two circles are refused. -/
theorem ofEdges_up_to_ties_tied :
    Sample.tied.Perm Sample.tied.reverse ∧ Sample.circles.Perm Sample.circles.reverse ∧
      SameUpToTies Sample.tied (ofEdges 3 Sample.tied) (ofEdges 3 Sample.tied.reverse) ∧
      SameUpToTies Sample.circles (ofEdges 3 Sample.circles) (ofEdges 3 Sample.circles.reverse) := by
  have htied : Sample.tied.Perm Sample.tied.reverse := (List.reverse_perm _).symm
  have hcircles : Sample.circles.Perm Sample.circles.reverse := (List.reverse_perm _).symm
  exact ⟨htied, hcircles, ofEdges_up_to_ties htied 3, ofEdges_up_to_ties hcircles 3⟩

/-- **Edges that tie are listed, and searched, in the order in which they are given.** -/
theorem ties_as_given :
    (ofEdges 3 Sample.tied).map (outgoing · 0) = .ok [(2, 5), (1, 5)] ∧
      (ofEdges 3 Sample.tied.reverse).map (outgoing · 0) = .ok [(1, 5), (2, 5)] ∧
      ofEdges 3 Sample.circles = .error (.defect (.cycle [0, 1, 0])) ∧
      ofEdges 3 Sample.circles.reverse = .error (.defect (.cycle [0, 2, 0])) :=
  ⟨rfl, rfl, rfl, rfl⟩

end TreeGraph

end Metalanguage
