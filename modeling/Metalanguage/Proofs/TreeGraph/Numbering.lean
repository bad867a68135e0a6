import Metalanguage.Proofs.Digraph.Distance
import Metalanguage.TreeGraph.Views

/-!
# Proofs/TreeGraph/Numbering — edges and their arcs

The distinct ends of some edges are numbered in increasing order (`place`), and the arcs are the
edges between these numbers (`arcsOf_eq`). So what is true of the arcs can be said of the edges: a
walk along arcs is a way along edges (`exists_leads_iff`), and the parents of a number are the
sources of the edges into its node (`parents_arcsOf`).
-/

namespace Metalanguage

open Std Ordered

namespace TreeGraph

variable {N P : Type} [Ord N]

/-! ## What edges make -/

/-- A way leads from `a` to `b` along the edges at the positions it lists. -/
def Leads (edges : List (Edge N P)) : N → List ℕ → N → Prop
  | a, [], b => compare a b = .eq
  | a, i :: way, b =>
    ∃ e, edges[i]? = some e ∧ compare a e.source = .eq ∧ Leads edges e.target way b

/-- Some way leads along edges from a node back to it. -/
def Cyclic (edges : List (Edge N P)) : Prop := ∃ a way, way ≠ [] ∧ Leads edges a way a

/-- The edges into a node, each as often as it is listed. -/
def incoming (edges : List (Edge N P)) (node : N) : List (Edge N P) :=
  edges.filter fun e => compare e.target node == .eq

/-- The nodes without incoming edge, in order. -/
def unparented (edges : List (Edge N P)) : List N :=
  (nodesOf edges).filter fun node => (incoming edges node).isEmpty

/-- The nodes with several incoming edges, in order. -/
def crowded (edges : List (Edge N P)) : List N :=
  (nodesOf edges).filter fun node => 2 ≤ (incoming edges node).length

/-- **One tree below `root`**: exactly one way leads from it to each node. -/
def IsTree (edges : List (Edge N P)) (root : N) : Prop :=
  root ∈ nodesOf edges ∧ ∀ node ∈ nodesOf edges, ∃! way, Leads edges root way node

variable {edges : List (Edge N P)}

/-- An edge comes into a node if its target is level with it. -/
theorem mem_incoming {e : Edge N P} {node : N} :
    e ∈ incoming edges node ↔ e ∈ edges ∧ compare e.target node = .eq := by
  rw [incoming, List.mem_filter, beq_iff_eq]

/-- A node without a parent has no edge into it. -/
theorem mem_unparented {node : N} :
    node ∈ unparented edges ↔ node ∈ nodesOf edges ∧ incoming edges node = [] := by
  rw [unparented, List.mem_filter, List.isEmpty_iff]

/-- A single node without incoming edge is one of the nodes. -/
theorem exists_getElem_root {root : N} (h : unparented edges = [root]) :
    incoming edges root = [] ∧ ∃ i : ℕ, (nodesOf edges)[i]? = some root := by
  have hmem : root ∈ unparented edges := by simp [h]
  obtain ⟨hnode, hempty⟩ := mem_unparented.1 hmem
  exact ⟨hempty, List.mem_iff_getElem?.1 hnode⟩

/-! ## Numbers of nodes -/

/-- Whether `a` is level with one of the ends. -/
def Occurs (edges : List (Edge N P)) (a : N) : Prop := ∃ b ∈ nodesOf edges, compare a b = .eq

/-- The number of `a` among the ends. -/
def place (edges : List (Edge N P)) (a : N) : ℕ := (position? compare a (nodesOf edges)).getD 0

/-- The arc of an edge. -/
def arcOf (edges : List (Edge N P)) (e : Edge N P) : Arc P :=
  ⟨place edges e.source, place edges e.target, e.payload⟩

/-- What has a number is level with the node at that number. -/
theorem Occurs.exists_getElem {a : N} (ha : Occurs edges a) :
    position? compare a (nodesOf edges) = some (place edges a) ∧
      ∃ b, (nodesOf edges)[place edges a]? = some b ∧ compare a b = .eq := by
  obtain ⟨i, hi⟩ := position?_isSome ha
  have hplace : place edges a = i := by rw [place, hi, Option.getD_some]
  exact ⟨by rw [hplace, hi], by rw [hplace]; exact exists_of_position? hi⟩

/-- What occurs has a number. -/
theorem Occurs.place_lt {a : N} (ha : Occurs edges a) :
    place edges a < (nodesOf edges).length := by
  obtain ⟨-, b, hb, -⟩ := ha.exists_getElem
  exact (List.getElem?_eq_some_iff.1 hb).1

section Places

variable [TransOrd N]

/-- Nodes are numbered in increasing order, so no two numbers are of level nodes. -/
theorem increasing_nodesOf (edges : List (Edge N P)) : Increasing compare (nodesOf edges) :=
  increasing_keepLast _

/-- The nodes are the ends of the edges. -/
theorem occurs_iff {a : N} : Occurs edges a ↔
    ∃ e ∈ edges, compare a e.source = .eq ∨ compare a e.target = .eq := by
  constructor
  · rintro ⟨b, hb, hab⟩
    obtain ⟨e, he, hbe⟩ := List.mem_flatMap.1 (mem_of_mem_keepLast hb)
    refine ⟨e, he, ?_⟩
    rcases List.mem_pair.1 hbe with rfl | rfl
    · exact .inl hab
    · exact .inr hab
  · rintro ⟨e, he, hae⟩
    obtain ⟨c, hc, hac⟩ : ∃ c ∈ edges.flatMap fun e => [e.source, e.target], compare a c = .eq := by
      rcases hae with hae | hae
      · exact ⟨e.source, List.mem_flatMap.2 ⟨e, he, by simp⟩, hae⟩
      · exact ⟨e.target, List.mem_flatMap.2 ⟨e, he, by simp⟩, hae⟩
    obtain ⟨b, hb, hcb⟩ := exists_mem_keepLast compare hc
    exact ⟨b, hb, TransCmp.eq_trans hac hcb⟩

/-- Both ends of an edge occur. -/
theorem occurs_source {e : Edge N P} (he : e ∈ edges) : Occurs edges e.source :=
  occurs_iff.2 ⟨e, he, .inl (level_self compare _)⟩

theorem occurs_target {e : Edge N P} (he : e ∈ edges) : Occurs edges e.target :=
  occurs_iff.2 ⟨e, he, .inr (level_self compare _)⟩

theorem occurs_of_mem {a : N} (ha : a ∈ nodesOf edges) : Occurs edges a :=
  ⟨a, ha, level_self compare a⟩

theorem place_getElem {a : N} {i : ℕ} (ha : (nodesOf edges)[i]? = some a) : place edges a = i := by
  rw [place, position?_getElem (increasing_nodesOf edges) ha, Option.getD_some]

/-- Level names have one number. -/
theorem place_congr {a b : N} (h : compare a b = .eq) : place edges a = place edges b := by
  rw [place, place, position?_congr h]

/-- **Exactly level nodes share a number.** -/
theorem Occurs.place_eq_iff {a b : N} (ha : Occurs edges a) (hb : Occurs edges b) :
    place edges a = place edges b ↔ compare a b = .eq := by
  refine ⟨fun h => ?_, place_congr⟩
  obtain ⟨-, c, hc, hac⟩ := ha.exists_getElem
  obtain ⟨-, d, hd, hbd⟩ := hb.exists_getElem
  rw [h, hd] at hc
  obtain rfl : d = c := by simpa using hc
  exact TransCmp.eq_trans hac (OrientedCmp.eq_symm hbd)

/-- A number is that of a node if the node under it is level with that. -/
theorem Occurs.place_eq_iff_getElem {a b : N} {i : ℕ} (ha : Occurs edges a)
    (hb : (nodesOf edges)[i]? = some b) : place edges a = i ↔ compare a b = .eq := by
  rw [← place_getElem hb, ha.place_eq_iff (occurs_of_mem (List.mem_of_getElem? hb))]

/-! ## Arcs -/

/-- **The arcs are the edges between the numbers of their ends.** -/
theorem arcsOf_eq (edges : List (Edge N P)) :
    arcsOf (nodesOf edges) edges = edges.map (arcOf edges) := by
  rw [arcsOf, ← List.filterMap_eq_map, List.filterMap_congr]
  intro e he
  rw [(occurs_source he).exists_getElem.1, (occurs_target he).exists_getElem.1]
  rfl

/-- The numbered graph that the edges make. -/
abbrev nextOf [Ord P] (edges : List (Edge N P)) : ℕ → List ℕ :=
  Arc.successors (arcsOf (nodesOf edges) edges)

/-- An arc joins two numbers if an edge joins their nodes. -/
theorem hasArc_iff [Ord P] {i j : ℕ} : Digraph.HasArc (nextOf edges) i j ↔
    ∃ e ∈ edges, place edges e.source = i ∧ place edges e.target = j := by
  simp only [Digraph.HasArc, Arc.successors, Arc.leaving, arcsOf_eq, List.mem_map, mem_sort,
    List.mem_filter]
  constructor
  · rintro ⟨a, ⟨⟨e, he, rfl⟩, hi⟩, hj⟩
    exact ⟨e, he, by simpa [arcOf] using hi, hj⟩
  · rintro ⟨e, he, hi, hj⟩
    exact ⟨arcOf edges e, ⟨⟨e, he, rfl⟩, by simpa [arcOf] using hi⟩, hj⟩

/-- Arcs lead to numbers that there are. -/
theorem within_nextOf [Ord P] : Digraph.Within (nextOf edges) (nodesOf edges).length := by
  intro i j h
  obtain ⟨e, he, rfl, rfl⟩ := hasArc_iff.1 h
  exact ⟨(occurs_source he).place_lt, (occurs_target he).place_lt⟩

section Node

variable {i : ℕ} {node : N} (h : (nodesOf edges)[i]? = some node)

include h

/-- The edges into a node are those into its number. -/
theorem incoming_eq_filter :
    incoming edges node = edges.filter fun e => place edges e.target == i := by
  refine List.filter_congr fun e he => ?_
  rw [Bool.eq_iff_iff, beq_iff_eq, beq_iff_eq, (occurs_target he).place_eq_iff_getElem h]

/-- **The parents of a number are the sources of the edges into its node.** -/
theorem parents_arcsOf : Arc.parents (arcsOf (nodesOf edges) edges) i =
    (incoming edges node).map fun e => place edges e.source := by
  rw [Arc.parents, arcsOf_eq, List.filter_map, List.map_map, incoming_eq_filter h]
  rfl

/-- A node has no incoming edge exactly when no arc enters its number. -/
theorem incoming_eq_nil_iff [Ord P] :
    incoming edges node = [] ↔ ∀ u, ¬ Digraph.HasArc (nextOf edges) u i := by
  simp only [incoming_eq_filter h, List.filter_eq_nil_iff, hasArc_iff, beq_iff_eq]
  constructor
  · rintro hnone u ⟨e, he, -, hei⟩
    exact hnone e he hei
  · intro hnone e he hei
    exact hnone _ ⟨e, he, rfl, hei⟩

end Node

/-! ## Ways -/

/-- **Walks along arcs are ways along edges.** -/
theorem exists_leads_iff [Ord P] {b : N} (hb : Occurs edges b) : ∀ {k : ℕ} {a : N},
    Occurs edges a → ((∃ way, way.length = k ∧ Leads edges a way b) ↔
      Digraph.Walks (nextOf edges) k (place edges a) (place edges b))
  | 0, a, ha => by simp [Digraph.Walks, Leads, List.length_eq_zero_iff, ha.place_eq_iff hb]
  | k + 1, a, ha => by
    rw [Digraph.Walks]
    constructor
    · rintro ⟨way, hlen, hway⟩
      obtain ⟨i, way, rfl⟩ := List.exists_cons_of_length_eq_add_one hlen
      obtain ⟨e, he, hae, hrest⟩ := hway
      have he := List.mem_of_getElem? he
      refine ⟨place edges e.target, hasArc_iff.2 ⟨e, he, ?_, rfl⟩, ?_⟩
      · exact ((ha.place_eq_iff (occurs_source he)).2 hae).symm
      · exact (exists_leads_iff hb (occurs_target he)).1 ⟨way, by simpa using hlen, hrest⟩
    · rintro ⟨c, hac, hcb⟩
      obtain ⟨e, he, hsource, rfl⟩ := hasArc_iff.1 hac
      obtain ⟨way, hlen, hway⟩ := (exists_leads_iff hb (occurs_target he)).2 hcb
      obtain ⟨i, hi⟩ := List.mem_iff_getElem?.1 he
      refine ⟨i :: way, by simp [hlen], e, hi, ?_, hway⟩
      exact (ha.place_eq_iff (occurs_source he)).1 hsource.symm

/-- **The edges lead in a circle exactly when the arcs do.** -/
theorem not_cyclic_iff [Ord P] : ¬ Cyclic edges ↔ Digraph.Acyclic (nextOf edges) := by
  rw [← not_iff_not, not_not]
  constructor
  · rintro ⟨a, _ | ⟨i, way⟩, hne, hway⟩
    · exact absurd rfl hne
    · obtain ⟨e, he, hae, hrest⟩ := id hway
      have ha : Occurs edges a := occurs_iff.2 ⟨e, List.mem_of_getElem? he, .inl hae⟩
      have hwalk := (exists_leads_iff ha ha).1 ⟨i :: way, rfl, hway⟩
      exact fun hac => hac _ hwalk.transGen
  · intro hac
    obtain ⟨v, hv⟩ : ∃ v, Relation.TransGen (Digraph.HasArc (nextOf edges)) v v := by
      simpa using hac
    obtain ⟨k, hk⟩ := Digraph.transGen_iff_walks.1 hv
    obtain ⟨w, hvw, -⟩ := id hk
    have hlt := (within_nextOf v w hvw).1
    have hnode := List.getElem?_eq_getElem hlt
    have hocc := occurs_of_mem (List.mem_of_getElem? hnode)
    rw [← place_getElem hnode] at hk
    obtain ⟨way, hlen, hway⟩ := (exists_leads_iff hocc hocc).2 hk
    exact ⟨_, way, by rintro rfl; simp at hlen, hway⟩

end Places

end TreeGraph

end Metalanguage
