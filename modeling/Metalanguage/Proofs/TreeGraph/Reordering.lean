import Mathlib.Data.List.Perm.Basic
import Metalanguage.Proofs.TreeGraph.Checks

/-!
# Proofs/TreeGraph/Reordering — the answer does not depend on the order of the edges

Take two lists of edges of which one is a reordering of the other, up to level ends and payloads.
Then the nodes are alike and an entry has the same number on both sides (`place_eq`), so both sides
make the same graph on the numbers but for the order of the successors of a node (`hasArc_iff`), and
without a cycle every check finds the same there: the answers are the same but for which of several
level entries they name (`ofEdges_sameAnswer_of_not_cyclic`). Which cycle is met does hang on the
order of the successors, and edges that leave one node with level payloads are ordered as they are
listed. Where no two such edges part, the successors stand in one order (`nextOf_eq`), and a cycle is
the same as well (`ofEdges_sameAnswer`).
-/

namespace Metalanguage

open Std Ordered

/-! ## Reorderings -/

/-- Level ends and level payloads. -/
structure Edge.Level {N P : Type} [Ord N] [Ord P] (e d : Edge N P) : Prop where
  source : compare e.source d.source = .eq
  target : compare e.target d.target = .eq
  payload : compare e.payload d.payload = .eq

/-- The same arc but for a level payload. -/
structure Arc.Level {P : Type} [Ord P] (a b : Arc P) : Prop where
  tail : a.tail = b.tail
  head : a.head = b.head
  payload : compare a.payload b.payload = .eq

theorem Arc.mem_leaving {P : Type} [Ord P] {arcs : List (Arc P)} {a : Arc P} {v : ℕ} :
    a ∈ leaving arcs v ↔ a ∈ arcs ∧ a.tail = v := by
  rw [leaving, mem_sort, List.mem_filter, beq_iff_eq]

namespace TreeGraph

variable {N P : Type} [Ord N] [Ord P]

/-- **One list of edges is a reordering of the other**, up to level entries. -/
def SameEdges (edges edges' : List (Edge N P)) : Prop :=
  ∃ m, List.Forall₂ Edge.Level edges m ∧ m.Perm edges'

/-- Level payloads have level ends. -/
def PayloadDecides (edges : List (Edge N P)) : Prop :=
  ∀ e ∈ edges, ∀ d ∈ edges, compare e.payload d.payload = .eq →
    compare e.source d.source = .eq ∧ compare e.target d.target = .eq

/-- No two edges out of `a` tie: level payloads lead to level targets. -/
def UntiedAt (edges : List (Edge N P)) (a : N) : Prop :=
  ∀ e ∈ edges, ∀ d ∈ edges, compare e.source a = .eq → compare d.source a = .eq →
    compare e.payload d.payload = .eq → compare e.target d.target = .eq

theorem PayloadDecides.untiedAt {edges : List (Edge N P)} (h : PayloadDecides edges) (a : N) :
    UntiedAt edges a :=
  fun e he d hd _ _ hed => (h e he d hd hed).2

/-- Answers that differ only in which of several level entries they name. -/
inductive SameAnswer :
    Except (TreeRefusal N) (TreeGraph N P) → Except (TreeRefusal N) (TreeGraph N P) → Prop
  | cycle {p q : List N} (h : Alike compare p q) :
    SameAnswer (.error (.defect (.cycle p))) (.error (.defect (.cycle q)))
  | noRoot : SameAnswer (.error (.defect .noRoot)) (.error (.defect .noRoot))
  | multipleRoots {p q : List N} (h : Alike compare p q) :
    SameAnswer (.error (.defect (.multipleRoots p))) (.error (.defect (.multipleRoots q)))
  | multipleParents {a b : N} {p q : List N} (hab : compare a b = .eq) (h : Alike compare p q) :
    SameAnswer (.error (.defect (.multipleParents a p))) (.error (.defect (.multipleParents b q)))
  | tooManyNodes (limit actual : ℕ) :
    SameAnswer (.error (.tooManyNodes limit actual)) (.error (.tooManyNodes limit actual))
  | tree {g h : TreeGraph N P} (nodes : Alike compare g.nodes h.nodes)
    (root : compare g.root h.root = .eq) (stages : g.stages = h.stages)
    (payloads : Alike compare g.payloads h.payloads) : SameAnswer (.ok g) (.ok h)

variable {edges edges' : List (Edge N P)}

omit [Ord P] in
/-- Alike lists have level entries at one position, or none. -/
theorem getElem?_alike {nodes nodes' : List N} (h : Alike compare nodes nodes') (i : ℕ) :
    Option.Rel (compare · · = .eq) nodes[i]? nodes'[i]? := by
  have hlen := h.length_eq
  by_cases hi : i < nodes.length
  · rw [List.getElem?_eq_getElem hi, List.getElem?_eq_getElem (hlen ▸ hi)]
    exact .some (List.forall₂_iff_get.1 h |>.2 i hi (hlen ▸ hi))
  · rw [List.getElem?_eq_none (Nat.not_lt.1 hi),
      List.getElem?_eq_none (hlen ▸ Nat.not_lt.1 hi)]
    exact .none

theorem pick_alike [TransOrd N] {nodes nodes' : List N} (h : Alike compare nodes nodes')
    (positions : List ℕ) : Alike compare (pick nodes positions) (pick nodes' positions) :=
  List.rel_filterMap (R := Eq) (fun i _ hi => hi ▸ getElem?_alike h i) (List.forall₂_refl positions)

omit [Ord P] in
/-- Stages by number name alike nodes. -/
theorem stageNodes_alike [TransOrd N] {g g' : TreeGraph N P} (hnodes : Alike compare g.nodes g'.nodes)
    (hstages : g.stages = g'.stages) :
    List.Forall₂ (Alike compare) g.stageNodes g'.stageNodes := by
  rw [stageNodes, stageNodes, hstages, List.forall₂_map_left_iff, List.forall₂_map_right_iff]
  exact List.forall₂_same.2 fun stage _ => pick_alike hnodes stage

/-! ## Arcs -/

/-- One list of arcs is a reordering of the other, up to level payloads. -/
def SameArcs (arcs arcs' : List (Arc P)) : Prop :=
  ∃ m, List.Forall₂ Arc.Level arcs m ∧ m.Perm arcs'

namespace SameArcs

variable [TransOrd P] {arcs arcs' : List (Arc P)}

omit [TransOrd P] in
/-- The arcs out of a node are a reordering of each other. -/
theorem leaving (h : SameArcs arcs arcs') (v : ℕ) :
    SameArcs (Arc.leaving arcs v) (Arc.leaving arcs' v) := by
  obtain ⟨m, hm, hperm⟩ := h
  have hfilter : List.Forall₂ Arc.Level (arcs.filter (·.tail == v)) (m.filter (·.tail == v)) :=
    List.rel_filter (fun a b hab => by simp only [hab.tail]) hm
  obtain ⟨k, hk, hkperm⟩ := List.perm_comp_forall₂ (sort_perm _ _) hfilter
  exact ⟨k, hk, hkperm.trans ((hperm.filter _).trans (sort_perm _ _).symm)⟩

/-- The arcs out of a node stand in the same order. -/
theorem leaving_alike (h : SameArcs arcs arcs') (v : ℕ) :
    Alike (compareOn (·.payload)) (Arc.leaving arcs v) (Arc.leaving arcs' v) := by
  obtain ⟨m, hm, hperm⟩ := h
  have hfilter : List.Forall₂ Arc.Level (arcs.filter (·.tail == v)) (m.filter (·.tail == v)) :=
    List.rel_filter (fun a b hab => by simp only [hab.tail]) hm
  exact sort_alike (hfilter.imp fun a b hab => hab.payload) (hperm.filter _)

/-- Where level payloads out of a node have one head, it has the same successors in the same order. -/
theorem successors_eq (h : SameArcs arcs arcs') {v : ℕ}
    (hd : ∀ a ∈ arcs, ∀ b ∈ arcs', a.tail = v → b.tail = v →
      compare a.payload b.payload = .eq → a.head = b.head) :
    Arc.successors arcs v = Arc.successors arcs' v :=
  (h.leaving_alike v).map_eq fun a ha b hb =>
    have ha := Arc.mem_leaving.1 ha
    have hb := Arc.mem_leaving.1 hb
    hd a ha.1 b hb.1 ha.2 hb.2

/-- The payloads out of a stage stand in the same order. -/
theorem payloadsFrom_alike (h : SameArcs arcs arcs') (stage : List ℕ) :
    Alike compare (Arc.payloadsFrom arcs stage) (Arc.payloadsFrom arcs' stage) := by
  have hstage : Alike (compareOn (·.payload)) (stage.flatMap (Arc.leaving arcs))
      (stage.flatMap (Arc.leaving arcs')) :=
    List.rel_flatMap (R := Eq) (List.forall₂_refl stage) fun _ v hv => hv ▸ h.leaving_alike v
  exact List.rel_map (fun a b hab => show compare a.payload b.payload = .eq from hab)
    (sort_alike hstage (.refl _))

end SameArcs

/-! ## The same graph -/

namespace SameEdges

variable [TransOrd N]

theorem nodes_alike (h : SameEdges edges edges') :
    Alike compare (nodesOf edges) (nodesOf edges') := by
  obtain ⟨m, hm, hperm⟩ := h
  have ends : ∀ {l k : List (Edge N P)}, (∀ e ∈ l, ∃ d ∈ k, compare e.source d.source = .eq ∧
      compare e.target d.target = .eq) → ∀ a ∈ l.flatMap fun e => [e.source, e.target],
      ∃ b ∈ k.flatMap fun e => [e.source, e.target], compare a b = .eq := by
    intro l k hlk a ha
    obtain ⟨e, he, hae⟩ := List.mem_flatMap.1 ha
    obtain ⟨d, hd, hsource, htarget⟩ := hlk e he
    rcases List.mem_pair.1 hae with rfl | rfl
    · exact ⟨d.source, List.mem_flatMap.2 ⟨d, hd, by simp⟩, hsource⟩
    · exact ⟨d.target, List.mem_flatMap.2 ⟨d, hd, by simp⟩, htarget⟩
  refine keepLast_alike (ends fun e he => ?_) (ends fun d hd => ?_)
  · obtain ⟨d, hd, hed⟩ := exists_mem_of_forall₂ hm he
    exact ⟨d, hperm.mem_iff.1 hd, hed.source, hed.target⟩
  · obtain ⟨e, he, hed⟩ := exists_mem_of_forall₂ hm.flip (hperm.mem_iff.2 hd)
    exact ⟨e, he, OrientedCmp.eq_symm hed.source, OrientedCmp.eq_symm hed.target⟩

/-- **An entry has the same number on both sides.** -/
theorem place_eq (h : SameEdges edges edges') : place edges = place edges' :=
  funext fun a => by rw [place, place, position?_alike h.nodes_alike a]

theorem sameArcs (h : SameEdges edges edges') :
    SameArcs (arcsOf (nodesOf edges) edges) (arcsOf (nodesOf edges') edges') := by
  obtain ⟨m, hm, hperm⟩ := id h
  have harc : arcOf edges = arcOf edges' := funext fun e => by rw [arcOf, arcOf, h.place_eq]
  refine ⟨m.map (arcOf edges), ?_, ?_⟩
  · rw [arcsOf_eq]
    refine List.rel_map (fun e d hed => ?_) hm
    exact ⟨place_congr hed.source, place_congr hed.target, hed.payload⟩
  · rw [arcsOf_eq, harc]
    exact hperm.map _

/-- **Both sides make the same graph on the numbers**, but for the order of the successors. -/
theorem hasArc_iff (h : SameEdges edges edges') {i j : ℕ} :
    Digraph.HasArc (nextOf edges) i j ↔ Digraph.HasArc (nextOf edges') i j := by
  obtain ⟨m, hm, hperm⟩ := id h
  rw [TreeGraph.hasArc_iff, TreeGraph.hasArc_iff, ← h.place_eq]
  constructor
  · rintro ⟨e, he, rfl, rfl⟩
    obtain ⟨d, hd, hed⟩ := exists_mem_of_forall₂ hm he
    exact ⟨d, hperm.mem_iff.1 hd, (place_congr hed.source).symm, (place_congr hed.target).symm⟩
  · rintro ⟨d, hd, rfl, rfl⟩
    obtain ⟨e, he, hed⟩ := exists_mem_of_forall₂ hm.flip (hperm.mem_iff.2 hd)
    exact ⟨e, he, place_congr hed.source, place_congr hed.target⟩

theorem cyclic_iff (h : SameEdges edges edges') : Cyclic edges ↔ Cyclic edges' := by
  have harcs : Digraph.HasArc (nextOf edges) = Digraph.HasArc (nextOf edges') := by
    funext i j
    exact propext h.hasArc_iff
  rw [← not_iff_not, not_cyclic_iff, not_cyclic_iff, Digraph.Acyclic, Digraph.Acyclic, harcs]

variable [TransOrd P]

theorem of_perm (h : edges.Perm edges') : SameEdges edges edges' :=
  ⟨edges, List.forall₂_same.2 fun _ _ =>
    ⟨level_self compare _, level_self compare _, level_self compare _⟩, h⟩

/-- Where no two edges out of a node tie, its arcs lead to the same numbers in the same order. -/
theorem head_eq_of_untiedAt (h : SameEdges edges edges') {a : N} (ha : Occurs edges a)
    (hu : UntiedAt edges a) {x y : Arc P} (hx : x ∈ arcsOf (nodesOf edges) edges)
    (hy : y ∈ arcsOf (nodesOf edges') edges') (hxa : x.tail = place edges a)
    (hya : y.tail = place edges a) (hxy : compare x.payload y.payload = .eq) :
    x.head = y.head := by
  rw [arcsOf_eq] at hx hy
  obtain ⟨e, he, rfl⟩ := List.mem_map.1 hx
  obtain ⟨d, hd, rfl⟩ := List.mem_map.1 hy
  obtain ⟨m, hm, hperm⟩ := id h
  obtain ⟨c, hc, hcd⟩ := exists_mem_of_forall₂ hm.flip (hperm.mem_iff.2 hd)
  have hea : compare e.source a = .eq := ((occurs_source he).place_eq_iff ha).1 hxa
  have hca : compare c.source a = .eq := by
    refine ((occurs_source hc).place_eq_iff ha).1 ?_
    rw [place_congr hcd.source, h.place_eq]
    exact hya.trans (congrFun h.place_eq a)
  have hec := hu e he c hc hea hca (TransCmp.eq_trans hxy (OrientedCmp.eq_symm hcd.payload))
  change place edges e.target = place edges' d.target
  rw [← h.place_eq, place_congr (TransCmp.eq_trans hec hcd.target)]

/-- **Without ties both sides make one graph on the numbers**, successors in the same order. -/
theorem nextOf_eq (h : SameEdges edges edges') (hu : ∀ a, UntiedAt edges a) :
    nextOf edges = nextOf edges' := by
  funext v
  refine h.sameArcs.successors_eq fun x hx y hy hxv hyv hxy => ?_
  have hx' := hx
  rw [arcsOf_eq] at hx'
  obtain ⟨e, he, rfl⟩ := List.mem_map.1 hx'
  exact h.head_eq_of_untiedAt (occurs_source he) (hu _) hx hy rfl (hyv.trans hxv.symm) hxy

/-! ## The same checks -/

omit [TransOrd P] in
/-- Level nodes have equally many incoming edges. -/
theorem incoming_length_eq (h : SameEdges edges edges') {a b : N} (hab : compare a b = .eq) :
    (incoming edges a).length = (incoming edges' b).length := by
  obtain ⟨m, hm, hperm⟩ := h
  have hfilter : List.Forall₂ Edge.Level (incoming edges a) (incoming m b) :=
    List.rel_filter (fun e d hed => by
      simp only [TransCmp.congr_left hed.target, TransCmp.congr_right hab]) hm
  exact hfilter.length_eq.trans (hperm.filter _).length_eq

omit [TransOrd P] in
theorem unparented_alike (h : SameEdges edges edges') :
    Alike compare (unparented edges) (unparented edges') :=
  List.rel_filter (fun a b hab => by
    simp only [List.isEmpty_iff_length_eq_zero, h.incoming_length_eq hab]) h.nodes_alike

omit [TransOrd P] in
theorem crowded_alike (h : SameEdges edges edges') :
    Alike compare (crowded edges) (crowded edges') :=
  List.rel_filter (fun a b hab => by simp only [h.incoming_length_eq hab]) h.nodes_alike

omit [TransOrd P] in
/-- Level nodes have the same parents, in order. -/
theorem parentsOf_alike (h : SameEdges edges edges') {a b : N} (hab : compare a b = .eq) :
    Alike compare (parentsOf edges a) (parentsOf edges' b) := by
  obtain ⟨m, hm, hperm⟩ := id h
  have hfilter : List.Forall₂ Edge.Level (incoming edges a) (incoming m b) :=
    List.rel_filter (fun e d hed => by
      simp only [TransCmp.congr_left hed.target, TransCmp.congr_right hab]) hm
  have hplaces : ((incoming edges a).map (·.source)).map (place edges) =
      ((incoming m b).map (·.source)).map (place edges') := by
    rw [List.map_map, List.map_map, ← List.forall₂_eq_eq_eq]
    exact List.rel_map (fun e d hed => by
      rw [← h.place_eq]; exact place_congr hed.source) hfilter
  have hsort : sort compare (((incoming edges a).map (·.source)).map (place edges)) =
      sort compare (((incoming edges' b).map (·.source)).map (place edges')) := by
    rw [hplaces]
    exact sort_eq_of_perm (((hperm.filter _).map _).map _) fun i _ j _ => Nat.compare_eq_eq.1
  rw [parentsOf, hsort]
  exact pick_alike h.nodes_alike _

/-- **Without a cycle the answers are the same** but for which of several level entries they name. -/
theorem ofEdges_sameAnswer_of_not_cyclic (h : SameEdges edges edges') (hcyclic : ¬ Cyclic edges)
    (limit : ℕ) : SameAnswer (ofEdges limit edges) (ofEdges limit edges') := by
  have hlength := h.nodes_alike.length_eq
  rw [ofEdges_eq limit hcyclic, ofEdges_eq limit (h.cyclic_iff.not.1 hcyclic), ← hlength]
  have hroots := h.unparented_alike
  generalize unparented edges = roots at hroots
  generalize unparented edges' = roots' at hroots
  rcases hroots with _ | @⟨root, root', _, _, hroot, _ | ⟨hsecond, hrest⟩⟩
  · exact .noRoot
  · have hcrowded := h.crowded_alike
    generalize crowded edges = nodes at hcrowded
    generalize crowded edges' = nodes' at hcrowded
    rcases hcrowded with _ | ⟨hnode, hrest⟩
    · simp only [List.head?_nil]
      split
      · exact .tooManyNodes _ _
      · have hstages : (treeOf edges root).stages = (treeOf edges' root').stages := by
          rw [treeOf, treeOf, Digraph.levels_congr fun _ _ => h.hasArc_iff, hlength, h.place_eq,
            place_congr hroot]
        have hsame : List.Forall₂ Eq (treeOf edges root).stages (treeOf edges' root').stages := by
          rw [hstages]; exact List.forall₂_refl _
        refine .tree h.nodes_alike hroot hstages (List.rel_flatMap hsame ?_)
        rintro stage _ rfl
        exact h.sameArcs.payloadsFrom_alike stage
    · exact .multipleParents hnode (h.parentsOf_alike hnode)
  · exact .multipleRoots (.cons hroot (.cons hsecond hrest))

/-- Without ties the same cycle is met. -/
theorem ofEdges_sameAnswer_of_untied (h : SameEdges edges edges') (hu : ∀ a, UntiedAt edges a)
    (limit : ℕ) : SameAnswer (ofEdges limit edges) (ofEdges limit edges') := by
  by_cases hcyclic : Cyclic edges
  · obtain ⟨walk, hwalk⟩ := cycle?_of_cyclic hcyclic
    have hsearch := hwalk
    rw [h.nextOf_eq hu, h.nodes_alike.length_eq] at hsearch
    rw [ofEdges_of_cycle? limit hwalk, ofEdges_of_cycle? limit hsearch]
    exact .cycle (pick_alike h.nodes_alike walk)
  · exact h.ofEdges_sameAnswer_of_not_cyclic hcyclic limit

/-- **The answers are the same** but for which of several level entries they name. -/
theorem ofEdges_sameAnswer (h : SameEdges edges edges') (hd : PayloadDecides edges) (limit : ℕ) :
    SameAnswer (ofEdges limit edges) (ofEdges limit edges') :=
  h.ofEdges_sameAnswer_of_untied hd.untiedAt limit

end SameEdges

end TreeGraph

end Metalanguage
