import Metalanguage.Proofs.TreeGraph.Stages

/-!
# Proofs/TreeGraph/Ways — the tree of edges that are listed in another order

A way lists the edges that it takes by their positions, so it is another list of positions when the
edges are listed in another order, but it is as long and leads as far (`Leads.exists_of_perm`). An
accepted tree is therefore a tree of its edges however they are listed, and the stage of a node is
the length of the way to it (`Spans`, `spans_of_ofEdges`).
-/

namespace Metalanguage

open Std Ordered

namespace TreeGraph

variable {N P : Type} [Ord N] {edges edges' : List (Edge N P)}

/-- **A way through edges that are listed in another order.** -/
theorem Leads.exists_of_perm (h : edges.Perm edges') {b : N} : ∀ {way : List ℕ} {a : N},
    Leads edges a way b → ∃ way', way'.length = way.length ∧ Leads edges' a way' b
  | [], _, hab => ⟨[], rfl, hab⟩
  | _ :: _, _, ⟨e, he, hae, hrest⟩ => by
    obtain ⟨way', hlength, hway'⟩ := exists_of_perm h hrest
    obtain ⟨j, hj⟩ := List.mem_iff_getElem?.1 (h.mem_iff.1 (List.mem_of_getElem? he))
    exact ⟨j :: way', congrArg (· + 1) hlength, e, hj, hae, hway'⟩

/-- **A graph spans some edges**: its nodes are the ends of the edges, each once, and it is one tree
below its root, whose stages are the distances from there. -/
structure Spans (g : TreeGraph N P) (edges : List (Edge N P)) : Prop where
  nodes_increasing : Increasing compare g.nodes
  hasNode : ∀ a, g.hasNode a = true ↔
    ∃ e ∈ edges, compare a e.source = .eq ∨ compare a e.target = .eq
  root_mem : g.root ∈ g.nodes
  way : ∀ a ∈ g.nodes, ∃! way, Leads edges g.root way a
  stageOf : ∀ {a way}, Leads edges g.root way a → g.stageOf a = way.length

theorem incoming_eq_nil_of_perm {root : N} (h : edges.Perm edges')
    (hroot : incoming edges root = []) : incoming edges' root = [] :=
  ((h.filter _).symm.trans (.of_eq hroot)).eq_nil

variable [TransOrd N]

theorem crowded_eq_nil_of_perm (h : edges.Perm edges') (hcrowded : crowded edges = []) :
    crowded edges' = [] := by
  refine List.filter_eq_nil_iff.2 fun node _ => ?_
  have hle := incoming_length_le hcrowded node
  have hlength : (incoming edges node).length = (incoming edges' node).length :=
    (h.filter _).length_eq
  simp only [decide_eq_true_eq]
  omega

/-- No two edges enter one node. -/
theorem targets_apart (h : crowded edges = []) :
    edges.Pairwise fun e d => compare e.target d.target ≠ .eq := by
  refine List.pairwise_iff_getElem.2 fun i j hi hj hij hed => ?_
  have hle : (edges.filter fun e => compare e.target edges[j].target == .eq).length ≤ 1 :=
    incoming_length_le h _
  have heq := position_unique hle (List.getElem?_eq_getElem hi) (by simpa using hed)
    (List.getElem?_eq_getElem hj) (by simp)
  omega

/-- What a way leads to is an end of an edge, if it starts there. -/
theorem Leads.occurs {a b : N} : ∀ {way : List ℕ}, Occurs edges a → Leads edges a way b →
    Occurs edges b
  | [], ⟨c, hc, hac⟩, hab => ⟨c, hc, TransCmp.eq_trans (OrientedCmp.eq_symm hab) hac⟩
  | _ :: _, _, ⟨_, he, _, hrest⟩ => hrest.occurs (occurs_target (List.mem_of_getElem? he))

variable [Ord P]

theorem Passed.spans {root : N} (h : Passed edges root) (hperm : edges.Perm edges') :
    (treeOf edges root).Spans edges' where
  nodes_increasing := increasing_nodesOf edges
  hasNode a := by
    refine (has_iff.trans occurs_iff).trans (exists_congr fun e => ?_)
    rw [hperm.mem_iff]
  root_mem := List.mem_of_getElem? h.root_getElem?
  way a ha := by
    have hocc := occurs_of_mem ha
    obtain ⟨k, hk⟩ := h.rooted.exists_walks hocc.place_lt
    obtain ⟨way, -, hway⟩ := (exists_leads_iff hocc h.occurs_root).2 hk
    obtain ⟨way', -, hway'⟩ := hway.exists_of_perm hperm
    refine ⟨way', hway', fun way₁ h₁ => ?_⟩
    exact leads_unique (incoming_eq_nil_of_perm hperm h.incoming_root)
      (crowded_eq_nil_of_perm hperm h.crowded) h₁ hway'
  stageOf {a way} hway := by
    obtain ⟨way', hlength, hway'⟩ := hway.exists_of_perm hperm.symm
    have hocc := hway'.occurs h.occurs_root
    have hwalk := (exists_leads_iff hocc h.occurs_root).1 ⟨way', hlength, hway'⟩
    exact h.stageOf_eq (h.onStage_iff.2 ⟨hocc, hwalk⟩)

/-- **An accepted tree spans its edges**, in whatever order they are listed. -/
theorem spans_of_ofEdges {limit : ℕ} {g : TreeGraph N P} (h : ofEdges limit edges = .ok g)
    (hperm : edges.Perm edges') : g.Spans edges' := by
  obtain ⟨root, hpassed, rfl⟩ := exists_passed h
  exact hpassed.spans hperm

/-- An accepted tree has at least two nodes. -/
theorem two_le_size_of_ofEdges {limit : ℕ} {g : TreeGraph N P} (h : ofEdges limit edges = .ok g) :
    2 ≤ g.size := by
  obtain ⟨root, hpassed, rfl⟩ := exists_passed h
  obtain ⟨e, he, -⟩ := occurs_iff.1 hpassed.occurs_root
  have hpos := List.length_pos_of_mem he
  have hlength := hpassed.length_add_one
  rw [size]
  change 2 ≤ (nodesOf edges).length
  omega

end TreeGraph

end Metalanguage
