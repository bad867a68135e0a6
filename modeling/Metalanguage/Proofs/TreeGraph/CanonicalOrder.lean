import Metalanguage.Proofs.TreeGraph.Reordering

/-!
# Proofs/TreeGraph/CanonicalOrder — the payloads of an accepted tree

The stages of a tree hold every node once, and each edge leaves one node, so the canonical order lists
every arc once (`arcsInOrder_perm`), and the payloads of a tree are those of the edges
(`payloads_perm`). Where level payloads have level ends, no two of them are
level, since two such edges would enter one node (`payloads_distinct`). So the canonical order
leaves no choice: every order of the edges gives the same payloads (`payloads_eq_of_perm`), and
payloads that are listed like them already stay as they are (`payloads_eq_of_alike`).
-/

namespace Metalanguage

open Std Ordered
open scoped List

namespace TreeGraph

variable {N P : Type} [Ord N] [Ord P] [TransOrd N] {edges edges' : List (Edge N P)}

/-- **Which edges are accepted**, and the tree that they make. -/
theorem ofEdges_eq_ok_iff {limit : ℕ} {g : TreeGraph N P} : ofEdges limit edges = .ok g ↔
    ¬ Cyclic edges ∧ crowded edges = [] ∧ (nodesOf edges).length ≤ limit ∧
      ∃ root, unparented edges = [root] ∧ g = treeOf edges root := by
  by_cases hcyclic : Cyclic edges
  · obtain ⟨walk, hwalk⟩ := cycle?_of_cyclic hcyclic
    simp [ofEdges_of_cycle? limit hwalk, hcyclic]
  rw [ofEdges_eq limit hcyclic]
  rcases unparented edges with _ | ⟨root, _ | ⟨second, rest⟩⟩
  · simp
  · rcases crowded edges with _ | ⟨node, nodes⟩
    · simp only [List.head?_nil]
      split
      case isTrue hlimit => simp [Nat.not_le.2 hlimit]
      case isFalse hlimit => simp [hcyclic, Nat.not_lt.1 hlimit, eq_comm]
    · simp
  · simp

/-- What the checks say of edges in which they find one root. -/
structure Passed (edges : List (Edge N P)) (root : N) : Prop where
  crowded : crowded edges = []
  incoming_root : incoming edges root = []
  root_getElem? : (nodesOf edges)[place edges root]? = some root
  rooted : Digraph.Rooted (nextOf edges) (nodesOf edges).length (place edges root)

/-- Edges without a circle, with one root and no crowded node, pass the checks. -/
theorem Passed.of_unparented (hcyclic : ¬ Cyclic edges) {root : N}
    (hroot : unparented edges = [root]) (hcrowded : TreeGraph.crowded edges = []) :
    Passed edges root := by
  obtain ⟨hempty, i, hi⟩ := exists_getElem_root hroot
  have hrooted := rooted_nextOf (not_cyclic_iff.1 hcyclic) hroot hi hcrowded
  obtain rfl := place_getElem hi
  exact ⟨hcrowded, hempty, hi, hrooted⟩

/-- **Accepted edges pass the checks**, and make the tree below the root. -/
theorem exists_passed {limit : ℕ} {g : TreeGraph N P} (h : ofEdges limit edges = .ok g) :
    ∃ root, Passed edges root ∧ g = treeOf edges root := by
  obtain ⟨hcyclic, hcrowded, -, root, hroot, rfl⟩ := ofEdges_eq_ok_iff.1 h
  exact ⟨root, .of_unparented hcyclic hroot hcrowded, rfl⟩

/-- A limit that the tree keeps to accepts it as well. -/
theorem ofEdges_of_size_le {limit limit' : ℕ} {g : TreeGraph N P} (h : ofEdges limit edges = .ok g)
    (hsize : g.size ≤ limit') : ofEdges limit' edges = .ok g := by
  obtain ⟨hcyclic, hcrowded, -, root, hroot, rfl⟩ := ofEdges_eq_ok_iff.1 h
  exact ofEdges_eq_ok_iff.2 ⟨hcyclic, hcrowded, hsize, root, hroot, rfl⟩

/-! ## All payloads -/

omit [Ord P] in
/-- Listed by tail, arcs are listed once. -/
theorem flatMap_filter_perm {arcs : List (Arc P)} : ∀ {tails : List ℕ}, tails.Nodup →
    (tails.flatMap fun v => arcs.filter (·.tail == v)).Perm
      (arcs.filter fun a => tails.contains a.tail)
  | [], _ => by simp
  | v :: tails, h => by
    obtain ⟨hv, htails⟩ := List.nodup_cons.1 h
    have hsplit := List.filter_append_perm (·.tail == v)
      (arcs.filter fun a => (v :: tails).contains a.tail)
    rw [List.filter_filter, List.filter_filter] at hsplit
    refine List.Perm.trans ?_ hsplit
    rw [List.flatMap_cons]
    refine .append (.of_eq (List.filter_congr fun a _ => ?_))
      ((flatMap_filter_perm htails).trans (.of_eq (List.filter_congr fun a _ => ?_)))
    · cases ha : a.tail == v <;> simp_all
    · by_cases ha : a.tail = v
      · simp [ha, hv]
      · simp [ha]

/-- The arcs in canonical order: stage by stage, and those that leave a stage by payload. -/
def arcsInOrder (arcs : List (Arc P)) (stages : List (List ℕ)) : List (Arc P) :=
  stages.flatMap fun stage => sort (compareOn (·.payload)) (stage.flatMap (Arc.leaving arcs))

theorem flatMap_payloadsFrom (arcs : List (Arc P)) (stages : List (List ℕ)) :
    stages.flatMap (Arc.payloadsFrom arcs) = (arcsInOrder arcs stages).map (·.payload) := by
  rw [arcsInOrder, List.map_flatMap]
  rfl

/-- **The canonical order lists every arc once**, if the stages list every number once. -/
theorem arcsInOrder_perm {stages : List (List ℕ)}
    (h : stages.flatten.Perm (List.range (nodesOf edges).length)) :
    (arcsInOrder (arcsOf (nodesOf edges) edges) stages).Perm (arcsOf (nodesOf edges) edges) := by
  let arcs := arcsOf (nodesOf edges) edges
  let leaving := fun v => arcs.filter (·.tail == v)
  have hstage : ∀ stage : List ℕ, (sort (compareOn (·.payload))
      (stage.flatMap (Arc.leaving arcs))).Perm (stage.flatMap leaving) := fun stage =>
    (sort_perm _ _).trans (List.Perm.flatMap_left stage fun v _ => sort_perm _ _)
  have hall : arcs.filter (fun a => (List.range (nodesOf edges).length).contains a.tail) = arcs :=
    List.filter_eq_self.2 fun a ha => by
      rw [show arcs = edges.map (arcOf edges) from arcsOf_eq edges] at ha
      obtain ⟨e, he, rfl⟩ := List.mem_map.1 ha
      simpa [arcOf] using (occurs_source he).place_lt
  calc arcsInOrder arcs stages
      _ ~ stages.flatMap fun stage => stage.flatMap leaving :=
        List.Perm.flatMap_left stages fun stage _ => hstage stage
      _ = stages.flatten.flatMap leaving := by
        rw [List.flatten_eq_flatMap, List.flatMap_assoc]
        simp only [id]
      _ ~ (List.range (nodesOf edges).length).flatMap leaving := h.flatMap_right leaving
      _ ~ arcs := (flatMap_filter_perm List.nodup_range).trans (.of_eq hall)

/-- **A tree holds the payloads of its edges**, each as often as it is listed. -/
theorem payloads_perm {limit : ℕ} {g : TreeGraph N P} (h : ofEdges limit edges = .ok g) :
    g.payloads.Perm (edges.map (·.payload)) := by
  obtain ⟨root, hpassed, rfl⟩ := exists_passed h
  have hperm := (arcsInOrder_perm hpassed.rooted.levels_perm).map (·.payload)
  have hpayloads : (arcsOf (nodesOf edges) edges).map (·.payload) = edges.map (·.payload) := by
    rw [arcsOf_eq, List.map_map]
    rfl
  rw [treeOf, flatMap_payloadsFrom]
  exact hperm.trans (.of_eq hpayloads)

/-! ## No two of them level -/

/-- Where no node is crowded level payloads are the same payload, since two edges with them would
enter one node. -/
theorem payload_eq_of_level (hcrowded : crowded edges = []) (hd : PayloadDecides edges) {p q : P}
    (hp : p ∈ edges.map (·.payload)) (hq : q ∈ edges.map (·.payload)) (hpq : compare p q = .eq) :
    p = q := by
  obtain ⟨e, he, rfl⟩ := List.mem_map.1 hp
  obtain ⟨d, hd', rfl⟩ := List.mem_map.1 hq
  have hed : e ∈ incoming edges d.target := mem_incoming.2 ⟨he, (hd e he d hd' hpq).2⟩
  rw [eq_of_mem_incoming hcrowded hed (mem_incoming.2 ⟨hd', level_self compare _⟩)]

/-- **In an accepted tree level payloads are the same payload.** -/
theorem payloads_distinct {limit : ℕ} {g : TreeGraph N P} (h : ofEdges limit edges = .ok g)
    (hd : PayloadDecides edges) {p q : P} (hp : p ∈ edges.map (·.payload))
    (hq : q ∈ edges.map (·.payload)) (hpq : compare p q = .eq) : p = q :=
  payload_eq_of_level (ofEdges_eq_ok_iff.1 h).2.1 hd hp hq hpq

/-- **Payloads that are listed like those of the tree are in canonical order.** -/
theorem payloads_eq_of_alike {limit : ℕ} {g : TreeGraph N P} (h : ofEdges limit edges = .ok g)
    (hd : PayloadDecides edges) {ps : List P} (hps : Alike compare g.payloads ps)
    (hsub : ps ⊆ edges.map (·.payload)) : g.payloads = ps := by
  have hsame := hps.map_eq (f := id) fun p hp q hq hpq =>
    payloads_distinct h hd ((payloads_perm h).mem_iff.1 hp) (hsub hq) hpq
  simpa using hsame

/-- **Every order of the edges gives the same payloads.** -/
theorem payloads_eq_of_perm [TransOrd P] {limit : ℕ} {g g' : TreeGraph N P}
    (h : ofEdges limit edges = .ok g) (h' : ofEdges limit edges' = .ok g')
    (hd : PayloadDecides edges) (hp : edges.Perm edges') : g.payloads = g'.payloads := by
  have hanswer := (SameEdges.of_perm hp).ofEdges_sameAnswer hd limit
  rw [h, h'] at hanswer
  cases hanswer with
  | tree _ _ _ hpayloads =>
    refine payloads_eq_of_alike h hd hpayloads fun p hmem => ?_
    exact (hp.map _).mem_iff.2 ((payloads_perm h').mem_iff.1 hmem)

end TreeGraph

end Metalanguage
