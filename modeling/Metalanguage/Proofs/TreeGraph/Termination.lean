import Metalanguage.Proofs.TreeGraph.Building

/-!
# Proofs/TreeGraph/Termination — building a tree ends for all edges

The two loops of `build` end for different reasons (`LoopsEnd`). The search does nothing twice, so it
ends on every graph. The stages have no such guard, and go on for ever where a cycle can be reached;
but they are only asked for when the search has found none. So `build` has an answer for all edges,
and asks for no place that its tables do not have (`build_terminates`).
-/

namespace Metalanguage.TreeGraph

open Std
open Metalanguage.Digraph (Tables Search levelsRound AcyclicFrom)

variable {N P : Type} [Ord N] [Ord P]

/-- **What ends the loops** on the tables of some edges. -/
structure LoopsEnd (edges : List (Edge N P)) (g : Tables) (entering : List (List ℕ)) : Prop where
  /-- The search ends, over all starts, with the answer of the recursive search. It has done nothing
  twice: each node has been pushed once at most, and each edge followed once at most. -/
  search : ∀ rounds, roundsFor edges ≤ rounds → ∃ last,
    loop (Search.round g) rounds (.initial g) =
        .ok (last, Digraph.cycle? (nextOf edges) (nodesOf edges).length) ∧
      last.done.Nodup ∧ last.done ⊆ Search.acts (nodesOf edges).length edges.length
  /-- The stages are asked for below a node from which no cycle can be reached. -/
  entered : ∀ rounds root, checkTables rounds (nodesOf edges) g entering = .ok (.ok root) →
    root < (nodesOf edges).length ∧ AcyclicFrom (nextOf edges) root
  /-- From such a node the stages end, and are no more than the nodes. -/
  stages : ∀ root < (nodesOf edges).length, AcyclicFrom (nextOf edges) root →
    ∀ rounds, (nodesOf edges).length ≤ rounds → ∃ stages,
      loop (levelsRound g) rounds [[root]] = .ok (stages, ()) ∧
        stages.length ≤ (nodesOf edges).length
  /-- From any other node they would go on for ever. -/
  endless : ∀ root < (nodesOf edges).length, ¬ AcyclicFrom (nextOf edges) root →
    ∀ rounds, loop (levelsRound g) rounds [[root]] = .error .unfinished

variable [TransOrd N] {edges : List (Edge N P)} {g : Tables} {entering : List (List ℕ)}

/-- Where the checks find a root, no cycle can be reached from it. -/
theorem Tabulated.acyclicFrom_of_checkTables (h : TabulatedEdges edges g entering) {rounds i : ℕ}
    (hchecks : checkTables rounds (nodesOf edges) g entering = .ok (.ok i)) :
    i < (nodesOf edges).length ∧ AcyclicFrom (nextOf edges) i := by
  -- whatever the number of rounds, the search has ended in them
  obtain ⟨⟨last, found⟩, hloop, -⟩ := bind_eq_ok_iff.1 hchecks
  rcases checkTables_cases h hloop with ⟨refusal, hrefused, -⟩ | ⟨root, hfound, hpassed, -⟩
  · cases hrefused.symm.trans hchecks
  · cases hfound.symm.trans hchecks
    exact ⟨hpassed.rooted.root_lt, hpassed.rooted.acyclic.acyclicFrom _⟩

/-- **The loops end on the tables of all edges.** -/
theorem Tabulated.loopsEnd (h : TabulatedEdges edges g entering) : LoopsEnd edges g entering where
  search rounds hrounds := by
    obtain ⟨last, hloop, hlast⟩ := h.exists_search hrounds
    refine ⟨last, hloop, hlast.done_nodup, ?_⟩
    have hdone := hlast.done_subset h.fit
    rwa [h.length_eq, h.length_heads] at hdone
  entered _ _ hchecks := h.acyclicFrom_of_checkTables hchecks
  stages root hroot hacyclic rounds hrounds := by
    rw [← h.next_eq_nextOf] at hacyclic
    rw [← h.length_eq] at hroot hrounds ⊢
    exact ⟨_, Digraph.loop_levelsRound_of_acyclicFrom h.fit hroot hacyclic hrounds,
      Digraph.length_levels_le _ _⟩
  endless root hroot hcyclic rounds := by
    rw [← h.next_eq_nextOf] at hcyclic
    exact Digraph.loop_levelsRound_of_not_acyclicFrom h.fit (h.length_eq ▸ hroot) hcyclic rounds

/-- **Building ends on all edges**, with every place that is asked for in range: the tables are made,
the loops on them end, and what is built is the tree of the edges or their refusal. -/
theorem build_terminates (edges : List (Edge N P)) :
    ∃ arcs g entering, numbered (nodesOf edges) edges = .ok arcs ∧
      tabulate (nodesOf edges).length arcs = .ok (g, entering) ∧ LoopsEnd edges g entering ∧
      ∀ limit rounds, roundsFor edges ≤ rounds →
        build rounds limit edges = .ok (ofEdges limit edges) := by
  obtain ⟨g, entering, htabulate, h⟩ := exists_tabulatedEdges edges
  exact ⟨_, g, entering, numbered_eq edges, htabulate, h.loopsEnd, fun limit _ hrounds =>
    build_eq limit edges hrounds⟩

/-- Two edges in a circle are refused as one, and a fork is built. -/
theorem build_terminates_circle_and_fork :
    build 13 9 [(⟨1, 2, 5⟩ : Edge ℕ ℕ), ⟨2, 1, 4⟩] = .ok (.error (.defect (.cycle [1, 2, 1]))) ∧
      build 13 9 [(⟨1, 2, 5⟩ : Edge ℕ ℕ), ⟨1, 3, 4⟩] =
        .ok (.ok ⟨[1, 2, 3], [⟨0, 1, 5⟩, ⟨0, 2, 4⟩], 1, [[0], [1, 2]], [4, 5]⟩) := by
  obtain ⟨-, -, -, -, -, -, hcircle⟩ := build_terminates [(⟨1, 2, 5⟩ : Edge ℕ ℕ), ⟨2, 1, 4⟩]
  obtain ⟨-, -, -, -, -, -, hfork⟩ := build_terminates [(⟨1, 2, 5⟩ : Edge ℕ ℕ), ⟨1, 3, 4⟩]
  exact ⟨(hcircle 9 13 (by decide)).trans rfl, (hfork 9 13 (by decide)).trans rfl⟩

end Metalanguage.TreeGraph
