import Metalanguage.Proofs.Expression.Built
import Metalanguage.Proofs.Report.Preorder
import Metalanguage.Proofs.TreeGraph.Children

/-!
# Proofs/Report/Drawing — the drawing of a sentence is its tree

The branches of a drawing come from the top down (`preorder_branches`). Going through a tree depth
first meets the nodes of each stage before it is through, and no node twice, since a node has one
parent: with the root the branches show every node once (`nodes_perm`). A branch shows the mode of the
one clause that leads to its node, and the indents tell the parents, so the clauses can be read back
(`Sentence.DrawnAsTree`).
-/

namespace Metalanguage

open Std Ordered

namespace Sentence

variable {N : Type} [ClauseNode N] {s : Sentence N}

/-! ## The order of the branches -/

/-- **The branches come from the top down**, from a node at any stage of a tree, as long as the fuel
reaches past the last stage. -/
theorem preorder_branchesBelow (hg : s.graph.Branching) :
    ∀ {fuel k : ℕ} {indent : String} {a : N}, s.graph.OnStage k a → s.graph.size ≤ k + fuel →
      Branch.Preorder s.graph.outgoing indent (s.graph.outgoing a)
        (s.branchesBelow fuel indent a)
  | 0, k, _, _, hk, hfuel => absurd (hg.lt_size hk) (Nat.not_lt.2 hfuel)
  | fuel + 1, k, indent, a, hk, hfuel => by
    refine Branch.preorder_zipIdx (fun isLast child =>
      s.branchesBelow fuel (indent ++ Branch.continuation isLast) child) (Nat.zero_add _) ?_
    intro x hx isLast
    exact preorder_branchesBelow hg (hg.onStage_target hk hx) (by omega)

theorem preorder_branches [TransOrd N] (hg : s.graph.Branching) :
    Branch.Preorder s.graph.outgoing "" (s.graph.outgoing s.root) s.branches :=
  preorder_branchesBelow hg (hg.onStage_zero.2 (level_self compare _)) (Nat.le_add_left _ _)

/-! ## Every node once -/

/-- The nodes below a node, from the top down. -/
def nodesBelow (s : Sentence N) : ℕ → N → List N
  | 0, _ => []
  | fuel + 1, a => (s.graph.outgoing a).flatMap fun x => x.1 :: s.nodesBelow fuel x.1

theorem map_node_branchesBelow : ∀ (fuel : ℕ) (indent : String) (a : N),
    (s.branchesBelow fuel indent a).map (·.node) = s.nodesBelow fuel a
  | 0, _, _ => rfl
  | fuel + 1, indent, a => by
    have hfst : (s.graph.outgoing a).zipIdx.map (·.1) = s.graph.outgoing a := List.zipIdx_map_fst _ _
    rw [branchesBelow, nodesBelow, List.map_flatMap]
    conv_rhs => rw [← hfst, List.flatMap_map]
    refine List.flatMap_congr fun x _ => ?_
    rw [List.map_cons, map_node_branchesBelow fuel]

/-- One stage after the other: what is below some nodes are their children and what is below these. -/
theorem flatMap_nodesBelow_succ (fuel : ℕ) (stage : List N) :
    (stage.flatMap (s.nodesBelow (fuel + 1))).Perm
      ((stage.flatMap fun a => (s.graph.outgoing a).map (·.1)) ++
        (stage.flatMap fun a => (s.graph.outgoing a).map (·.1)).flatMap (s.nodesBelow fuel)) := by
  rw [List.flatMap_assoc]
  refine List.Perm.trans ?_ (List.flatMap_append_perm stage _ _).symm
  refine List.Perm.flatMap_left stage fun a _ => ?_
  rw [List.flatMap_map, nodesBelow]
  exact (List.map_append_flatMap_perm _ _ _).symm

/-- The children of the nodes of a stage are the nodes of the next stage, each once. -/
theorem children_stage (hg : s.graph.Branching) {k : ℕ} {stage : List N} (hnodup : stage.Nodup)
    (hmem : ∀ a, a ∈ stage ↔ a ∈ s.nodes ∧ s.graph.OnStage k a) :
    (stage.flatMap fun a => (s.graph.outgoing a).map (·.1)).Nodup ∧
      ∀ t, t ∈ (stage.flatMap fun a => (s.graph.outgoing a).map (·.1)) ↔
        t ∈ s.nodes ∧ s.graph.OnStage (k + 1) t := by
  constructor
  · refine List.nodup_flatMap.2 ⟨fun a _ => hg.targets_nodup a, ?_⟩
    refine hnodup.imp_of_mem fun {a b} ha hb hne t hta htb => hne ?_
    obtain ⟨x, hx, rfl⟩ := List.mem_map.1 hta
    obtain ⟨y, hy, hyx⟩ := List.mem_map.1 htb
    have hparent := hg.parent_target ((hmem a).1 ha).1 hx
    rw [← hyx, hg.parent_target ((hmem b).1 hb).1 hy] at hparent
    exact (Option.some.inj hparent).symm
  · intro t
    rw [List.mem_flatMap]
    constructor
    · rintro ⟨a, ha, hta⟩
      obtain ⟨x, hx, rfl⟩ := List.mem_map.1 hta
      exact ⟨hg.target_mem hx, hg.onStage_target ((hmem a).1 ha).2 hx⟩
    · rintro ⟨ht, hk⟩
      obtain ⟨a, ha, hak, c, hc⟩ := hg.exists_source ht hk
      exact ⟨a, (hmem a).2 ⟨ha, hak⟩, List.mem_map_of_mem (f := (·.1)) hc⟩

/-- **Below the nodes of a stage are those of the stages that the fuel reaches**, each once. -/
theorem flatMap_nodesBelow (hg : s.graph.Branching) : ∀ (fuel : ℕ) {k : ℕ} {stage : List N},
    stage.Nodup → (∀ a, a ∈ stage ↔ a ∈ s.nodes ∧ s.graph.OnStage k a) →
      (stage.flatMap (s.nodesBelow fuel)).Nodup ∧ ∀ b, b ∈ stage.flatMap (s.nodesBelow fuel) ↔
        b ∈ s.nodes ∧ ∃ j, k < j ∧ j ≤ k + fuel ∧ s.graph.OnStage j b
  | 0, k, stage, _, _ => by
    have hnil : stage.flatMap (s.nodesBelow 0) = [] := by simp [nodesBelow]
    rw [hnil]
    refine ⟨.nil, fun b => ⟨nofun, ?_⟩⟩
    rintro ⟨-, j, hkj, hjk, -⟩
    omega
  | fuel + 1, k, stage, hnodup, hmem => by
    have hperm := flatMap_nodesBelow_succ (s := s) fuel stage
    obtain ⟨hnext, hmemNext⟩ := children_stage hg hnodup hmem
    obtain ⟨hbelow, hmemBelow⟩ := flatMap_nodesBelow hg fuel hnext hmemNext
    rw [hperm.nodup_iff]
    refine ⟨hnext.append hbelow fun b hb hb' => ?_, fun b => ?_⟩
    · obtain ⟨-, j, hj, -, hbj⟩ := (hmemBelow b).1 hb'
      have := hg.onStage_unique ((hmemNext b).1 hb).2 hbj
      omega
    · rw [hperm.mem_iff, List.mem_append, hmemNext, hmemBelow]
      constructor
      · rintro (⟨hb, hk⟩ | ⟨hb, j, hkj, hjk, hj⟩)
        · exact ⟨hb, k + 1, by omega, by omega, hk⟩
        · exact ⟨hb, j, by omega, by omega, hj⟩
      · rintro ⟨hb, j, hkj, hjk, hj⟩
        rcases Nat.eq_or_lt_of_le hkj with rfl | hlt
        · exact .inl ⟨hb, hj⟩
        · exact .inr ⟨hb, j, hlt, by omega, hj⟩

/-- **With the root the branches show every node once.** -/
theorem nodes_perm [TransOrd N] (hg : s.graph.Branching) :
    (s.root :: s.branches.map (·.node)).Perm s.nodes := by
  have hnodes : Increasing compare s.nodes := hg.nodes_increasing
  have hroot : ∀ a, a ∈ [s.root] ↔ a ∈ s.nodes ∧ s.graph.OnStage 0 a := fun a => by
    rw [List.mem_singleton, hg.onStage_zero]
    constructor
    · rintro rfl
      exact ⟨hg.root_mem, level_self compare _⟩
    · rintro ⟨ha, hlevel⟩
      exact hnodes.eq_of_level ha hg.root_mem hlevel
  obtain ⟨hnodup, hmem⟩ :=
    flatMap_nodesBelow hg s.nodes.length (List.nodup_singleton _) hroot
  rw [List.flatMap_singleton] at hnodup hmem
  rw [branches, map_node_branchesBelow]
  refine (List.perm_ext_iff_of_nodup (List.nodup_cons.2 ⟨fun hbelow => ?_, hnodup⟩)
    hnodes.nodup).2 fun a => ?_
  · obtain ⟨-, j, hj, -, honStage⟩ := (hmem _).1 hbelow
    have := hg.onStage_unique honStage (hg.onStage_zero.2 (level_self compare _))
    omega
  · rw [List.mem_cons, hmem]
    constructor
    · rintro (rfl | ⟨ha, -⟩)
      · exact hg.root_mem
      · exact ha
    · intro ha
      obtain ⟨k, hk⟩ := hg.exists_onStage ha
      rcases Nat.eq_zero_or_pos k with rfl | hpos
      · exact .inl (hnodes.eq_of_level ha hg.root_mem (hg.onStage_zero.1 hk))
      · have : k < s.nodes.length := hg.lt_size hk
        exact .inr ⟨ha, k, hpos, by omega, hk⟩

/-! ## Clauses -/

section Clauses

variable [LawfulNode N] {limit : ℕ} {clauses : List (Clause N)}
  (h : TreeGraph.ofEdges limit (clauses.map edgeOf) = .ok s.graph)

include h

/-- The clauses out of a node, each with the node that the tree holds for its attribute. -/
theorem mem_outgoing_iff {a t : N} {c : Clause N} : (t, c) ∈ s.graph.outgoing a ↔
    t ∈ s.nodes ∧ c ∈ s.clauses ∧ compare c.substance a = .eq ∧ compare c.attr t = .eq := by
  obtain ⟨root, -, hgraph⟩ := TreeGraph.exists_passed h
  rw [(clauses_perm h).mem_iff, nodes, hgraph, TreeGraph.mem_outgoing_treeOf]
  simp [edgeOf, TreeGraph.treeOf]

/-- One clause leads to a node. -/
theorem clause_unique {c d : Clause N} (hc : c ∈ s.clauses) (hd : d ∈ s.clauses)
    (hattr : compare c.attr d.attr = .eq) : c = d := by
  obtain ⟨root, hpassed, -⟩ := TreeGraph.exists_passed h
  have hin : ∀ {c}, c ∈ s.clauses → compare c.attr d.attr = .eq →
      edgeOf c ∈ TreeGraph.incoming (clauses.map edgeOf) d.attr := fun hc hattr =>
    TreeGraph.mem_incoming.2 ⟨List.mem_map_of_mem ((clauses_perm h).mem_iff.1 hc), hattr⟩
  exact congrArg (·.payload) (TreeGraph.eq_of_mem_incoming hpassed.crowded (hin hc hattr)
    (hin hd (level_self compare _)))

/-- **The clauses out of a node stand in the order of the sentence.** -/
theorem outgoing_clauses (a : N) : (s.graph.outgoing a).map (·.2) =
    s.clauses.filter fun c => compare c.substance a == .eq := by
  obtain ⟨root, hpassed, hgraph⟩ := TreeGraph.exists_passed h
  obtain ⟨listed, hlisted, hpayloads, hsorted⟩ := hpassed.exists_listing
  have hedge : ∀ e ∈ listed, e.source = e.payload.substance := fun e he => by
    obtain ⟨c, -, rfl⟩ := List.mem_map.1 (hlisted.mem_iff.1 he)
    rfl
  have hfilter : s.clauses.filter (fun c => compare c.substance a == .eq) =
      (listed.filter fun e => compare e.source a == .eq).map (·.payload) := by
    rw [Sentence.clauses, hgraph, hpayloads, List.filter_map]
    exact congrArg _ (List.filter_congr fun e he => by rw [Function.comp_apply, hedge e he])
  have hperm : ((s.graph.outgoing a).map (·.2)).Perm
      (s.clauses.filter fun c => compare c.substance a == .eq) := by
    rw [hfilter, hgraph]
    exact (TreeGraph.outgoing_payloads_perm a).trans ((hlisted.symm.filter _).map _)
  -- the clauses out of one node are listed on one stage, and there by themselves
  have horder : Sorted compare (s.clauses.filter fun c => compare c.substance a == .eq) := by
    rw [hfilter]
    refine List.pairwise_map.2 ((hsorted.filter _).imp_of_mem fun {e d} he hd hed => ?_)
    have hlevel : compare e.source d.source = .eq :=
      TransCmp.eq_trans (by simpa using (List.mem_filter.1 he).2)
        (OrientedCmp.eq_symm (by simpa using (List.mem_filter.1 hd).2))
    have hstage : compare ((TreeGraph.treeOf (clauses.map edgeOf) root).stageOf e.source)
        ((TreeGraph.treeOf (clauses.map edgeOf) root).stageOf d.source) = .eq := by
      rw [TreeGraph.stageOf_congr hlevel]
      exact level_self compare _
    rwa [compareLex, compareOn, hstage] at hed
  have hsorted' : Sorted compare ((s.graph.outgoing a).map (·.2)) :=
    hgraph ▸ TreeGraph.sorted_outgoing_payloads a
  rw [← sort_of_sorted hsorted', ← sort_of_sorted horder]
  refine sort_eq_of_perm hperm fun c hc d hd hcd => ?_
  have hmem : ∀ c ∈ (s.graph.outgoing a).map (·.2), c ∈ s.clauses := fun c hc =>
    (List.mem_filter.1 (hperm.mem_iff.1 hc)).1
  exact clause_unique h (hmem c hc) (hmem d hd) (Clause.compare_eq_iff.1 hcd).2.1

end Clauses

/-! ## The drawing -/

/-- **The drawing of a sentence is its tree.** -/
structure DrawnAsTree (s : Sentence N) : Prop where
  /-- The root comes first, then a line for each branch, and last the counts and the class. -/
  text : s.drawing = ClauseNode.display s.root ++ "\n" ++
    String.join (s.branches.map fun b => b.indent ++ (if b.isLast then "└─" else "├─") ++ " " ++
      ClauseNode.display b.node ++ "  (mode " ++ ClauseNode.display b.mode ++ ")\n") ++ "\n" ++
    toString s.nodes.length ++ " node(s), " ++ toString s.graph.depth ++ " stage(s), class " ++
    s.grammaticalClass.name ++ "\n"
  nodes_increasing : Increasing compare s.nodes
  /-- With the root the branches show every node once. -/
  nodes : (s.root :: s.branches.map (·.node)).Perm s.nodes
  length : s.branches.length = s.nodes.length - 1
  /-- Each branch is followed by those below it, and these by those beside it. -/
  preorder : Branch.Preorder s.graph.outgoing "" (s.graph.outgoing s.root) s.branches
  /-- The branches of a node stand in the order of the clauses. -/
  siblings : ∀ a, (s.graph.outgoing a).map (·.2) =
    s.clauses.filter fun c => compare c.substance a == .eq
  /-- Each stage below the root stands three characters further in. -/
  indent : ∀ b ∈ s.branches, ∀ k, s.graph.OnStage k b.node → b.indent.length + 3 = 3 * k
  /-- A branch shows the mode of the one clause that leads to its node. -/
  mode : ∀ b ∈ s.branches, ∃ c, (∀ d, d ∈ s.clauses ∧ compare d.attr b.node = .eq ↔ d = c) ∧
    b.mode = c.mode
  /-- The nearest branch before that stands one step less far in, or the root, shows the parent. -/
  parent : ∀ before b after, s.branches = before ++ b :: after →
    s.graph.parent? b.node = some (Branch.above s.root before.reverse b.indent.length)
  /-- The last child of each node, and no other, is marked as the last. -/
  isLast : ∀ b ∈ s.branches, b.isLast = true ↔
    ∃ p c, s.graph.parent? b.node = some p ∧ (s.graph.outgoing p).getLast? = some (b.node, c)
  /-- The triples of the clauses can be read back from the branches. -/
  readBack : ∃ listed, Alike compare (Branch.readBack s.root s.branches) listed ∧
    listed.Perm s.clauses

/-- A branch of the tree below `p`: what a drawing shows of it is right. -/
structure ShownBelow (s : Sentence N) (p : N) (b : Branch N) : Prop where
  parent : s.graph.parent? b.node = some p
  clause : ∃ c ∈ s.clauses, compare c.substance p = .eq ∧ compare c.attr b.node = .eq ∧
    b.mode = c.mode
  isLast : b.isLast = true ↔ ∃ c, (s.graph.outgoing p).getLast? = some (b.node, c)

section Drawn

variable [LawfulNode N] {limit : ℕ} {clauses : List (Clause N)}
  (h : TreeGraph.ofEdges limit (clauses.map edgeOf) = .ok s.graph)

include h

theorem shownBelow_of_hangs {p : N} {b : Branch N} (hp : p ∈ s.nodes)
    (hb : Branch.Hangs s.graph.outgoing p b) : s.ShownBelow p b := by
  have hg := TreeGraph.branching_of_ofEdges h
  obtain ⟨c, before, after, hchildren, hmode, hlast⟩ := hb
  have hmem : (b.node, c) ∈ s.graph.outgoing p := by simp [hchildren]
  obtain ⟨-, hc, hsubstance, hattr⟩ := (mem_outgoing_iff h).1 hmem
  refine ⟨hg.parent_target hp hmem, ⟨c, hc, hsubstance, hattr, hmode⟩, ?_⟩
  rw [hlast, hchildren]
  cases after with
  | nil => simp
  | cons x rest =>
    -- another child comes last, and no child comes twice
    refine ⟨nofun, ?_⟩
    rintro ⟨d, hd⟩
    rw [List.getLast?_append, List.getLast?_cons_cons, Option.or_of_isSome (by simp)] at hd
    have hnodup := hg.targets_nodup p
    rw [hchildren, List.map_append, List.map_cons] at hnodup
    exact absurd (List.mem_map_of_mem (f := (·.1)) (List.mem_of_getLast? hd))
      (List.nodup_cons.1 hnodup.of_append_right).1

/-- **A branch is shown below the node that stands above it.** -/
theorem shownBelow_above {before after : List (Branch N)} {b : Branch N}
    (hsplit : s.branches = before ++ b :: after) :
    s.ShownBelow (Branch.above s.root before.reverse b.indent.length) b := by
  have hg := TreeGraph.branching_of_ofEdges h
  have hmem : (Branch.above s.root before.reverse b.indent.length, b) ∈
      Branch.withParents s.root [] s.branches := hsplit ▸ Branch.mem_withParents
  refine shownBelow_of_hangs h ((nodes_perm hg).mem_iff.1 ?_)
    ((preorder_branches hg).hangs (List.suffix_refl _) rfl _ hmem)
  rcases Branch.above_eq_or s.root before.reverse b.indent.length with habove | ⟨c, hc, habove⟩
  · rw [habove]
    exact List.mem_cons_self
  · rw [habove]
    refine List.mem_cons_of_mem _ (List.mem_map_of_mem ?_)
    exact hsplit ▸ List.mem_append_left _ (List.mem_reverse.1 hc)

theorem exists_shownBelow {b : Branch N} (hb : b ∈ s.branches) : ∃ p, s.ShownBelow p b := by
  obtain ⟨before, after, hsplit⟩ := List.append_of_mem hb
  exact ⟨_, shownBelow_above h hsplit⟩

theorem length_branches : s.branches.length = s.nodes.length - 1 := by
  have hlength := (nodes_perm (TreeGraph.branching_of_ofEdges h)).length_eq
  rw [List.length_cons, List.length_map] at hlength
  exact Nat.eq_sub_of_add_eq hlength

theorem length_clauses : s.clauses.length = s.nodes.length - 1 := by
  obtain ⟨root, hpassed, hgraph⟩ := TreeGraph.exists_passed h
  have hlength := hpassed.length_add_one
  rw [List.length_map, ← (clauses_perm h).length_eq] at hlength
  rw [nodes, hgraph]
  exact Nat.eq_sub_of_add_eq hlength

/-- The indent counts the stages. -/
theorem length_indent {b : Branch N} (hb : b ∈ s.branches) {k : ℕ}
    (hk : s.graph.OnStage k b.node) : b.indent.length + 3 = 3 * k := by
  have hg := TreeGraph.branching_of_ofEdges h
  have hroot : s.graph.OnStage 0 s.root := hg.onStage_zero.2 (level_self compare _)
  obtain ⟨j, hj, hindent⟩ := (preorder_branches hg).stage
    (fun hk hx => hg.onStage_target hk hx) (k := 0) rfl (fun x hx => hg.onStage_target hroot hx) b hb
  rw [hg.onStage_unique hk hj, hindent, Nat.mul_succ]

/-- **The triples of the clauses can be read back**, each once. -/
theorem exists_readBack : ∃ listed, Alike compare (Branch.readBack s.root s.branches) listed ∧
    listed.Perm s.clauses := by
  have hg := TreeGraph.branching_of_ofEdges h
  have hnodes : Increasing compare s.nodes := hg.nodes_increasing
  have hperm := nodes_perm hg
  let placed := Branch.withParents s.root [] s.branches
  have hbranches : placed.map (·.2) = s.branches := Branch.map_snd_withParents
  -- each branch has its clause, and no two have the same
  obtain ⟨listed, hlisted⟩ : ∃ listed, List.Forall₂ (fun x c => x.2.node ∈ s.nodes ∧ c ∈ s.clauses ∧
      compare c.substance x.1 = .eq ∧ compare c.attr x.2.node = .eq ∧ x.2.mode = c.mode)
      placed listed := by
    refine exists_forall₂ fun x hx => ?_
    obtain ⟨before, after, hsplit, habove⟩ := Branch.exists_split_of_mem_withParents hx
    rw [List.append_nil] at habove
    obtain ⟨c, hc⟩ := (shownBelow_above h hsplit).clause
    refine ⟨c, hperm.mem_iff.1 (List.mem_cons_of_mem _ (List.mem_map_of_mem ?_)), habove ▸ hc⟩
    exact hsplit ▸ List.mem_append_right _ List.mem_cons_self
  have hnodup : listed.Nodup := by
    refine nodup_of_forall₂ (f := fun x => x.2.node) hlisted (fun {x y c} hx hy => ?_) ?_
    · exact hnodes.eq_of_level hx.1 hy.1
        (TransCmp.eq_trans (OrientedCmp.eq_symm hx.2.2.2.1) hy.2.2.2.1)
    · have hnode : placed.map (fun x => x.2.node) = s.branches.map (·.node) := by
        rw [← hbranches, List.map_map]
        rfl
      rw [hnode]
      exact (List.nodup_cons.1 (hperm.nodup_iff.2 hnodes.nodup)).2
  have hsubset : listed ⊆ s.clauses := fun c hc => by
    obtain ⟨x, -, hx⟩ := exists_mem_of_forall₂ hlisted.flip hc
    exact hx.2.1
  have hcount : listed.length = s.clauses.length := by
    rw [← hlisted.length_eq, length_clauses h, ← length_branches h, ← hbranches, List.length_map]
  refine ⟨listed, ?_, (hnodup.subperm hsubset).perm_of_length_le hcount.ge⟩
  rw [Branch.readBack]
  refine List.forall₂_map_left_iff.2 (hlisted.imp fun x c hx => ?_)
  obtain ⟨-, -, hsubstance, hattr, hmode⟩ := hx
  exact Clause.compare_eq_iff.2 ⟨OrientedCmp.eq_symm hsubstance, OrientedCmp.eq_symm hattr,
    hmode ▸ level_self compare _⟩

theorem drawnAsTree : s.DrawnAsTree where
  text := rfl
  nodes_increasing := (TreeGraph.branching_of_ofEdges h).nodes_increasing
  nodes := nodes_perm (TreeGraph.branching_of_ofEdges h)
  length := length_branches h
  preorder := preorder_branches (TreeGraph.branching_of_ofEdges h)
  siblings := outgoing_clauses h
  indent _ hb _ hk := length_indent h hb hk
  mode b hb := by
    obtain ⟨p, hshown⟩ := exists_shownBelow h hb
    obtain ⟨c, hc, -, hattr, hmode⟩ := hshown.clause
    refine ⟨c, fun d => ⟨fun hd => ?_, fun hd => hd ▸ ⟨hc, hattr⟩⟩, hmode⟩
    exact clause_unique h hd.1 hc (TransCmp.eq_trans hd.2 (OrientedCmp.eq_symm hattr))
  parent _ _ _ hsplit := (shownBelow_above h hsplit).parent
  isLast b hb := by
    obtain ⟨p, hshown⟩ := exists_shownBelow h hb
    rw [hshown.isLast]
    constructor
    · rintro ⟨c, hc⟩
      exact ⟨p, c, hshown.parent, hc⟩
    · rintro ⟨q, c, hq, hc⟩
      rw [hshown.parent] at hq
      exact ⟨c, Option.some.inj hq ▸ hc⟩
  readBack := exists_readBack h

end Drawn

/-- **A drawing is the tree of its sentence**: the root and every other node once, from the top down
and in the order of the clauses, each as far in as its stage, with its parent above it and the mode of
its clause behind it. So it is for sentences and super-sentences, with any literals. -/
theorem drawn_as_tree :
    (∀ (limit : ℕ) (clauses : List (Clause Word)) (literals : List Literal) (s : Sentence Word),
      ofClauses limit clauses = .ok s → (s.withLiterals literals).DrawnAsTree) ∧
    ∀ (limit : ℕ) (clauses : List SuperClause) (literals : List Literal) (s : SuperSentence),
      ofClauses limit clauses = .ok s → (s.withLiterals literals).DrawnAsTree :=
  ⟨fun _ _ _ _ h => drawnAsTree (ofClauses_eq_ok_iff.1 h).1,
    fun _ _ _ _ h => drawnAsTree (ofClauses_eq_ok_iff.1 h).1⟩

end Sentence

/-- A node with a branch below it, and one behind it without. -/
def Sample.branching : List (Clause Word) :=
  let both : Word := ⟨⟨[noun "a." 0, noun "b." 1]⟩, none, []⟩
  [clause (noun "b." 1) (noun "s." 2) [.ofText "here"], clause (noun "s." 2) (noun "b." 1) [],
    ⟨word (noun "b." 1) [], both, word (noun "s." 2) []⟩]

/-- Branches on two stages, one of them between others and one below another. -/
theorem Sentence.drawn_as_tree_branching :
    ∃ s, ofClauses 4 Sample.branching = .ok s ∧
      s.branches.map (fun b => (b.indent, b.isLast)) = [("", false), ("│  ", true), ("", true)] ∧
      s.DrawnAsTree := by
  have h : ofClauses 4 Sample.branching = .ok _ := rfl
  exact ⟨_, h, rfl, drawn_as_tree.1 4 Sample.branching [] _ h⟩

end Metalanguage
