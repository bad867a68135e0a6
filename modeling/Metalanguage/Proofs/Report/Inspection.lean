import Metalanguage.Proofs.Expression.ClauseOrder
import Metalanguage.Proofs.Ordered.Survivors
import Metalanguage.Proofs.Report.Drawing

/-!
# Proofs/Report/Inspection — what the order of the clauses shows of the nodes

Nodes that are equal may carry different literals, and a sentence keeps one of them: the one that its
clauses mention last (`find?_nodes`). So two orders of the same clauses make sentences that agree in
everything but which of several equal nodes they show (`inspection_of_perm`). They show the same, the
whole drawing included, exactly if the last mentions do; where equal nodes carry different literals
the order can be seen (`order_shown_in_literals`).
-/

namespace Metalanguage

open List (Forall₂)
open Std Ordered

section Nodes

variable {N : Type} [ClauseNode N]

/-- Branches to equal nodes, otherwise the same. -/
structure Branch.Same (b c : Branch N) : Prop where
  indent : b.indent = c.indent
  isLast : b.isLast = c.isLast
  node : compare b.node c.node = .eq
  mode : b.mode = c.mode

namespace Sentence

/-! ## Mentions -/

/-- The nodes that clauses join, in the order in which the clauses are listed. -/
def mentions (clauses : List (Clause N)) : List N := clauses.flatMap fun c => [c.substance, c.attr]

/-- The last node equal to `a` that clauses join. -/
def lastMention (clauses : List (Clause N)) (a : N) : Option N :=
  (mentions clauses).reverse.find? (compare a · == .eq)

variable [LawfulNode N] {limit : ℕ} {clauses clauses' : List (Clause N)} {s t : Sentence N}

/-- **Of equal nodes a sentence keeps the one mentioned last.** -/
theorem find?_nodes (h : ofClauses limit clauses = .ok s) (a : N) :
    s.nodes.find? (compare a · == .eq) = lastMention clauses a := by
  obtain ⟨root, -, hgraph⟩ := TreeGraph.exists_passed (ofClauses_eq_ok_iff.1 h).1
  have hnodes : s.nodes = keepLast compare (mentions clauses) := by
    rw [nodes, hgraph, TreeGraph.treeOf, TreeGraph.nodesOf, List.flatMap_map]
    rfl
  rw [hnodes, find?_keepLast, lastMention]

theorem lastMention_of_mem (h : ofClauses limit clauses = .ok s) {a b : N} (hb : b ∈ s.nodes)
    (hab : compare a b = .eq) : lastMention clauses a = some b := by
  rw [← find?_nodes h]
  exact (drawnAsTree (ofClauses_eq_ok_iff.1 h).1).nodes_increasing.find?_eq_some_iff.2 ⟨hb, hab⟩

/-! ## The same but for which of equal nodes -/

/-- Sentences whose nodes show the same, wherever they are asked for. -/
structure SameDisplays (s t : Sentence N) : Prop where
  root : ClauseNode.display s.root = ClauseNode.display t.root
  nodes : s.nodes.map ClauseNode.display = t.nodes.map ClauseNode.display
  stages : s.stages.map (·.map ClauseNode.display) = t.stages.map (·.map ClauseNode.display)

/-- **What inspecting two sentences can tell apart** when they are made of the same clauses. -/
structure SameInspection (clauses clauses' : List (Clause N)) (s t : Sentence N) : Prop where
  clauses_eq : s.clauses = t.clauses
  root : compare s.root t.root = .eq
  nodes : Alike compare s.nodes t.nodes
  stages : Forall₂ (Alike compare) s.stages t.stages
  branches : Forall₂ Branch.Same s.branches t.branches
  /-- Both show the last mention of each node. -/
  last_mention : (∀ a ∈ s.nodes, lastMention clauses a = some a) ∧
    ∀ a ∈ t.nodes, lastMention clauses' a = some a
  displays_iff : SameDisplays s t ↔ ∀ a ∈ s.nodes,
    (lastMention clauses a).map ClauseNode.display =
      (lastMention clauses' a).map ClauseNode.display
  drawing : SameDisplays s t → s.grammaticalClass = t.grammaticalClass → s.drawing = t.drawing

/-! ### Branches -/

/-- The same clauses leave equal nodes, for equal nodes. -/
theorem outgoing_same (hs : ofClauses limit clauses = .ok s) (ht : ofClauses limit clauses' = .ok t)
    (hclauses : s.clauses = t.clauses) {a b : N} (hab : compare a b = .eq) :
    Forall₂ (fun x y => compare x.1 y.1 = .eq ∧ x.2 = y.2) (s.graph.outgoing a)
      (t.graph.outgoing b) := by
  have hs := (ofClauses_eq_ok_iff.1 hs).1
  have ht := (ofClauses_eq_ok_iff.1 ht).1
  have hsame : (s.graph.outgoing a).map (·.2) = (t.graph.outgoing b).map (·.2) := by
    rw [outgoing_clauses hs, outgoing_clauses ht, hclauses]
    exact List.filter_congr fun c _ => by rw [TransCmp.congr_right hab]
  rw [← List.forall₂_eq_eq_eq, List.forall₂_map_left_iff, List.forall₂_map_right_iff,
    List.forall₂_iff_zip] at hsame
  refine List.forall₂_iff_zip.2 ⟨hsame.1, fun {x y} hxy => ?_⟩
  obtain ⟨hx, hy⟩ := List.of_mem_zip hxy
  obtain ⟨-, -, -, hxattr⟩ := (mem_outgoing_iff hs).1 hx
  obtain ⟨-, -, -, hyattr⟩ := (mem_outgoing_iff ht).1 hy
  rw [hsame.2 hxy] at hxattr
  exact ⟨TransCmp.eq_trans (OrientedCmp.eq_symm hxattr) hyattr, hsame.2 hxy⟩

omit [LawfulNode N] in
theorem branchesBelow_same (hout : ∀ {a b : N}, compare a b = .eq →
    Forall₂ (fun x y => compare x.1 y.1 = .eq ∧ x.2 = y.2) (s.graph.outgoing a)
      (t.graph.outgoing b)) : ∀ (fuel : ℕ) (indent : String) {a b : N}, compare a b = .eq →
        Forall₂ Branch.Same (s.branchesBelow fuel indent a) (t.branchesBelow fuel indent b)
  | 0, _, _, _, _ => .nil
  | fuel + 1, indent, a, b, hab => by
    have hlength := (hout hab).length_eq
    rw [branchesBelow, branchesBelow, hlength]
    refine forall₂_flatMap (forall₂_zipIdx (hout hab) 0) ?_
    rintro ⟨⟨child, clause⟩, i⟩ ⟨⟨child', clause'⟩, i'⟩ - - ⟨⟨hnode, hclause⟩, hi⟩
    obtain rfl : clause = clause' := hclause
    obtain rfl : i = i' := hi
    exact .cons ⟨rfl, rfl, hnode, rfl⟩ (branchesBelow_same hout fuel _ hnode)

/-! ### Displays -/

/-- Where the last mentions show the same, equal nodes do. -/
theorem display_eq_of_level (hs : ofClauses limit clauses = .ok s)
    (ht : ofClauses limit clauses' = .ok t)
    (h : ∀ a ∈ s.nodes, (lastMention clauses a).map ClauseNode.display =
      (lastMention clauses' a).map ClauseNode.display) {a b : N} (ha : a ∈ s.nodes)
    (hb : b ∈ t.nodes) (hab : compare a b = .eq) :
    ClauseNode.display a = ClauseNode.display b := by
  have hlast := h a ha
  rw [lastMention_of_mem hs ha (level_self compare a), lastMention_of_mem ht hb hab] at hlast
  exact Option.some.inj hlast

theorem sameDisplays_iff (hs : ofClauses limit clauses = .ok s)
    (ht : ofClauses limit clauses' = .ok t) (hsame : Same s t) :
    SameDisplays s t ↔ ∀ a ∈ s.nodes, (lastMention clauses a).map ClauseNode.display =
      (lastMention clauses' a).map ClauseNode.display := by
  constructor
  · intro h a ha
    have hdisplays := h.nodes
    rw [← List.forall₂_eq_eq_eq, List.forall₂_map_left_iff, List.forall₂_map_right_iff] at hdisplays
    obtain ⟨b, hb, hab, hdisplay⟩ := exists_mem_of_forall₂
      (hdisplays.mp (fun _ _ hdisplay hab => And.intro hab hdisplay) hsame.nodes) ha
    rw [lastMention_of_mem hs ha (level_self compare a), lastMention_of_mem ht hb hab,
      Option.map_some, Option.map_some, hdisplay]
  · intro h
    have hdisplay := @display_eq_of_level N _ _ limit clauses clauses' s t hs ht h
    refine ⟨hdisplay (root_mem_nodes (ofClauses_eq_ok_iff.1 hs).1)
      (root_mem_nodes (ofClauses_eq_ok_iff.1 ht).1) hsame.root,
      hsame.nodes.map_eq fun a ha b hb => hdisplay ha hb, ?_⟩
    rw [stages, stages, TreeGraph.stageNodes, TreeGraph.stageNodes, ← hsame.stages, List.map_map,
      List.map_map]
    exact List.map_congr_left fun positions _ => (TreeGraph.pick_alike hsame.nodes positions).map_eq
      fun a ha b hb => hdisplay (TreeGraph.pick_subset ha) (TreeGraph.pick_subset hb)

theorem drawing_eq (hs : ofClauses limit clauses = .ok s) (ht : ofClauses limit clauses' = .ok t)
    (hsame : Same s t) (hbranches : Forall₂ Branch.Same s.branches t.branches)
    (h : SameDisplays s t) (hclass : s.grammaticalClass = t.grammaticalClass) :
    s.drawing = t.drawing := by
  have hdisplay := @display_eq_of_level N _ _ limit clauses clauses' s t hs ht
    ((sameDisplays_iff hs ht hsame).1 h)
  have hshown : ∀ {limit clauses} {s : Sentence N}, ofClauses limit clauses = .ok s →
      ∀ b ∈ s.branches, b.node ∈ s.nodes := fun hs b hb =>
    (drawnAsTree (ofClauses_eq_ok_iff.1 hs).1).nodes.mem_iff.1
      (List.mem_cons_of_mem _ (List.mem_map_of_mem hb))
  have hlines : s.branches.map Branch.line = t.branches.map Branch.line := by
    rw [← List.forall₂_eq_eq_eq, List.forall₂_map_left_iff, List.forall₂_map_right_iff]
    refine List.forall₂_iff_zip.2 ⟨hbranches.length_eq, fun {b c} hbc => ?_⟩
    obtain ⟨hb, hc⟩ := List.of_mem_zip hbc
    obtain ⟨hindent, hlast, hnode, hmode⟩ := (List.forall₂_iff_zip.1 hbranches).2 hbc
    rw [Branch.line, Branch.line, hindent, hlast, hmode,
      hdisplay (hshown hs b hb) (hshown ht c hc) hnode]
  have hdepth : s.graph.depth = t.graph.depth := congrArg List.length hsame.stages
  rw [drawing, drawing, h.root, hlines, hsame.nodes.length_eq, hdepth, hclass]

/-! ## Orders of clauses -/

theorem sameInspection_of_perm (hperm : clauses.Perm clauses') (hs : ofClauses limit clauses = .ok s) :
    ∃ t, ofClauses limit clauses' = .ok t ∧ SameInspection clauses clauses' s t := by
  rcases ofClauses_of_perm hperm limit with ⟨e, he, -⟩ | ⟨s', t, hs', ht, hsame⟩
  · rw [hs] at he
    cases he
  · obtain rfl : s = s' := Except.ok.inj (hs.symm.trans hs')
    have hbranches : Forall₂ Branch.Same s.branches t.branches := by
      rw [branches, branches, hsame.nodes.length_eq]
      exact branchesBelow_same (outgoing_same hs ht hsame.clauses) _ _ hsame.root
    exact ⟨t, ht, hsame.clauses, hsame.root, hsame.nodes,
      TreeGraph.stageNodes_alike hsame.nodes hsame.stages, hbranches,
      ⟨fun a ha => lastMention_of_mem hs ha (level_self compare a),
        fun a ha => lastMention_of_mem ht ha (level_self compare a)⟩,
      sameDisplays_iff hs ht hsame, drawing_eq hs ht hsame hbranches⟩

/-- **The order of the clauses shows in the literals of equal nodes alone.** Every order of the clauses
of a sentence or super-sentence makes one with the same clauses, equal nodes in the same places and
the same branches to them. Each shows the last mention of every node, and they show the same exactly
where these do. -/
theorem inspection_of_perm (limit : ℕ) :
    (∀ (clauses clauses' : List (Clause Word)) (s : Sentence Word), clauses.Perm clauses' →
      ofClauses limit clauses = .ok s →
        ∃ t, ofClauses limit clauses' = .ok t ∧ SameInspection clauses clauses' s t) ∧
    ∀ (clauses clauses' : List SuperClause) (s : SuperSentence), clauses.Perm clauses' →
      ofClauses limit clauses = .ok s →
        ∃ t, ofClauses limit clauses' = .ok t ∧ SameInspection clauses clauses' s t :=
  ⟨fun _ _ _ => sameInspection_of_perm, fun _ _ _ => sameInspection_of_perm⟩

end Sentence

end Nodes

namespace Sentence

/-- The clauses of the fork, whose root carries a literal in one of them, in both orders. -/
theorem inspection_of_perm_fork :
    ∃ s t, ofClauses 3 Sample.fork = .ok s ∧ ofClauses 3 Sample.fork.reverse = .ok t ∧
      SameInspection Sample.fork Sample.fork.reverse s t := by
  have h : ofClauses 3 Sample.fork = .ok _ := rfl
  obtain ⟨t, ht, hsame⟩ := (inspection_of_perm 3).1 Sample.fork Sample.fork.reverse _
    (List.reverse_perm _).symm h
  exact ⟨_, t, h, ht, hsame⟩

/-- **Two orders of the same clauses are drawn differently**: from a root with a literal, and from the
same root without. -/
theorem order_shown_in_literals :
    Sample.fork.Perm Sample.fork.reverse ∧
      (ofClauses 3 Sample.fork).map (fun s => (s.root.display, s.drawing)) =
        .ok ("[([a.])]", "[([a.])]\n├─ [([b.])]  (mode [([s.])])\n└─ [([s.])]  (mode [([b.])])\n\n" ++
          "3 node(s), 2 stage(s), class noun\n") ∧
      (ofClauses 3 Sample.fork.reverse).map (fun s => (s.root.display, s.drawing)) =
        .ok ("[([a.])]<here>", "[([a.])]<here>\n├─ [([b.])]  (mode [([s.])])\n" ++
          "└─ [([s.])]  (mode [([b.])])\n\n3 node(s), 2 stage(s), class noun\n") :=
  ⟨(List.reverse_perm _).symm, rfl, rfl⟩

end Sentence

end Metalanguage
