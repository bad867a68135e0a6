import Mathlib.Data.List.Induction
import Metalanguage.Expression.Sentence
import Metalanguage.Proofs.TreeGraph.Checks

/-!
# Proofs/TreeGraph/Verdict — `ofEdges` accepts exactly the trees

Where at most one edge enters each node and none enters the root, two ways from the root to one node
are the same, edge by edge from their far end (`leads_unique`). With the rooted tree on the numbers
this makes the edges one tree (`isTree_of_unparented`). `Diagnosis` states the verdict in full, with
the precedence of its refusals, and `ofEdges_diagnosis` proves it of every list of edges.
-/

namespace Metalanguage

open Std Ordered

namespace TreeGraph

variable {N P : Type} [Ord N] {edges : List (Edge N P)}

/-! ## Ways from a root -/

/-- A way can be taken apart at its far end too. -/
theorem leads_concat_iff {i : ℕ} {b : N} : ∀ {way : List ℕ} {a : N},
    Leads edges a (way ++ [i]) b ↔
      ∃ e, Leads edges a way e.source ∧ edges[i]? = some e ∧ compare e.target b = .eq
  | [], a => by
    simp only [List.nil_append, Leads]
    exact exists_congr fun _ => and_left_comm
  | j :: way, a => by
    simp only [List.cons_append, Leads]
    constructor
    · rintro ⟨d, hd, had, hrest⟩
      obtain ⟨e, hway, he, heb⟩ := leads_concat_iff.1 hrest
      exact ⟨e, ⟨d, hd, had, hway⟩, he, heb⟩
    · rintro ⟨e, ⟨d, hd, had, hway⟩, he, heb⟩
      exact ⟨d, hd, had, leads_concat_iff.2 ⟨e, hway, he, heb⟩⟩

/-- Entries that pass a test that at most one entry passes stand in one place. -/
theorem position_unique {α : Type} {p : α → Bool} : ∀ {l : List α} {i j : ℕ} {x y : α},
    (l.filter p).length ≤ 1 → l[i]? = some x → p x → l[j]? = some y → p y → i = j
  | z :: l, 0, 0, _, _, _, _, _, _, _ => rfl
  | z :: l, 0, j + 1, x, y, hle, hx, hpx, hy, hpy => by
    obtain rfl : z = x := by simpa using hx
    have hmem : y ∈ l.filter p := List.mem_filter.2 ⟨List.mem_of_getElem? hy, hpy⟩
    have := List.length_pos_of_mem hmem
    rw [List.filter_cons_of_pos hpx, List.length_cons] at hle
    omega
  | z :: l, i + 1, 0, x, y, hle, hx, hpx, hy, hpy => by
    obtain rfl : z = y := by simpa using hy
    have hmem : x ∈ l.filter p := List.mem_filter.2 ⟨List.mem_of_getElem? hx, hpx⟩
    have := List.length_pos_of_mem hmem
    rw [List.filter_cons_of_pos hpy, List.length_cons] at hle
    omega
  | z :: l, i + 1, j + 1, x, y, hle, hx, hpx, hy, hpy => by
    have hlen : (l.filter p).length ≤ 1 :=
      ((List.sublist_cons_self z l).filter p).length_le.trans hle
    exact congrArg (· + 1)
      (position_unique hlen (by simpa using hx) hpx (by simpa using hy) hpy)

variable [TransOrd N]

/-- **Two ways from a root to one node are the same.** -/
theorem leads_unique {root : N} (hroot : incoming edges root = []) (hcrowded : crowded edges = []) :
    ∀ {way way' : List ℕ} {b : N}, Leads edges root way b → Leads edges root way' b →
      way = way' := by
  have hstart : ∀ {way i b}, Leads edges root (way ++ [i]) b → compare root b ≠ .eq := by
    intro way i b hway hb
    obtain ⟨e, -, he, heb⟩ := leads_concat_iff.1 hway
    have hmem : e ∈ incoming edges root := mem_incoming.2
      ⟨List.mem_of_getElem? he, TransCmp.eq_trans heb (OrientedCmp.eq_symm hb)⟩
    rw [hroot] at hmem
    simp at hmem
  intro way
  induction way using List.reverseRecOn with
  | nil =>
    intro way' b hb hway'
    rcases List.eq_nil_or_concat way' with rfl | ⟨way', i, rfl⟩
    · rfl
    · exact absurd hb (hstart (by simpa using hway'))
  | append_singleton way i ih =>
    intro way' b hway hway'
    rcases List.eq_nil_or_concat way' with rfl | ⟨way', j, rfl⟩
    · exact absurd hway' (hstart hway)
    · rw [List.concat_eq_append] at hway' ⊢
      obtain ⟨d, hd, hid, hdb⟩ := leads_concat_iff.1 hway
      obtain ⟨e, he, hje, heb⟩ := leads_concat_iff.1 hway'
      have hle : (edges.filter fun e => compare e.target b == .eq).length ≤ 1 :=
        incoming_length_le hcrowded b
      obtain rfl : i = j :=
        position_unique hle hid (by simpa using hdb) hje (by simpa using heb)
      rw [hid, Option.some.injEq] at hje
      subst hje
      rw [ih hd he]

/-- **Edges without a circle, with one root and no crowded node, are one tree.** -/
theorem isTree_of_unparented [Ord P] (h : ¬ Cyclic edges) {root : N}
    (hroot : unparented edges = [root]) (hcrowded : crowded edges = []) : IsTree edges root := by
  obtain ⟨hempty, i, hi⟩ := exists_getElem_root hroot
  have hnode := List.mem_of_getElem? hi
  have hrooted := rooted_nextOf (not_cyclic_iff.1 h) hroot hi hcrowded
  refine ⟨hnode, fun node hmem => ?_⟩
  have hocc := occurs_of_mem hmem
  obtain ⟨k, hk⟩ := hrooted.exists_walks hocc.place_lt
  rw [← place_getElem hi] at hk
  obtain ⟨way, -, hway⟩ := (exists_leads_iff hocc (occurs_of_mem hnode)).2 hk
  exact ⟨way, hway, fun way' hway' => leads_unique hempty hcrowded hway' hway⟩

/-! ## The verdict -/

/-- **What the answer says about the edges**, each refusal under the condition that none of those
before it applies. -/
structure Diagnosis [Ord P] (limit : ℕ) (edges : List (Edge N P))
    (answer : Except (TreeRefusal N) (TreeGraph N P)) : Prop where
  /-- The nodes are the distinct ends, in increasing order. -/
  nodes : Increasing compare (nodesOf edges) ∧ ∀ a, Occurs edges a ↔
    ∃ e ∈ edges, compare a e.source = .eq ∨ compare a e.target = .eq
  cycle : (∃ path, answer = .error (.defect (.cycle path))) ↔ Cyclic edges
  noRoot : answer = .error (.defect .noRoot) ↔ ¬ Cyclic edges ∧ edges = []
  multipleRoots : ∀ roots, answer = .error (.defect (.multipleRoots roots)) ↔
    ¬ Cyclic edges ∧ 2 ≤ (unparented edges).length ∧ unparented edges = roots
  multipleParents : ∀ node parents, answer = .error (.defect (.multipleParents node parents)) ↔
    ¬ Cyclic edges ∧ edges ≠ [] ∧ (unparented edges).length < 2 ∧
      (crowded edges).head? = some node ∧ parents ⊆ nodesOf edges ∧
      Alike compare parents (sort compare ((incoming edges node).map (·.source)))
  tooManyNodes : ∀ bound actual, answer = .error (.tooManyNodes bound actual) ↔
    ¬ Cyclic edges ∧ edges ≠ [] ∧ (unparented edges).length < 2 ∧ crowded edges = [] ∧
      limit < (nodesOf edges).length ∧ limit = bound ∧ (nodesOf edges).length = actual
  accepted : (∃ graph, answer = .ok graph) ↔
    ¬ Cyclic edges ∧ edges ≠ [] ∧ (unparented edges).length < 2 ∧ crowded edges = [] ∧
      (nodesOf edges).length ≤ limit
  tree : ∀ graph, answer = .ok graph → graph.nodes = nodesOf edges ∧ IsTree edges graph.root
  connected : ∀ nodes, answer ≠ .error (.defect (.disconnected nodes))

/-- The parents that a refusal names are fixed by what `Diagnosis` says of them. -/
theorem parentsOf_eq_iff {node : N} {parents : List N} : parentsOf edges node = parents ↔
    parents ⊆ nodesOf edges ∧
      Alike compare parents (sort compare ((incoming edges node).map (·.source))) := by
  have halike : Alike compare (parentsOf edges node)
      (sort compare ((incoming edges node).map (·.source))) := by
    refine pick_parents fun a ha => ?_
    obtain ⟨e, he, rfl⟩ := List.mem_map.1 ha
    exact occurs_source (mem_incoming.1 he).1
  constructor
  · rintro rfl
    exact ⟨pick_subset, halike⟩
  · rintro ⟨hsub, hparents⟩
    have hsame := (halike.trans hparents.symm).map_eq (f := id) fun a ha b hb =>
      (increasing_nodesOf edges).eq_of_level (pick_subset ha) (hsub hb)
    simpa using hsame

omit [TransOrd N] in
/-- An accepted tree is within the limit. -/
theorem size_le_of_ofEdges [Ord P] {limit : ℕ} {graph : TreeGraph N P}
    (h : ofEdges limit edges = .ok graph) : graph.size ≤ limit := by
  simp only [ofEdges] at h
  repeat' split at h
  all_goals try cases h
  exact Nat.not_lt.1 ‹_›

/-- The answer says of the edges what it should. -/
theorem ofEdges_diagnosis [Ord P] (limit : ℕ) (edges : List (Edge N P)) :
    Diagnosis limit edges (ofEdges limit edges) := by
  have hnodes : Increasing compare (nodesOf edges) ∧ ∀ a, Occurs edges a ↔
      ∃ e ∈ edges, compare a e.source = .eq ∨ compare a e.target = .eq :=
    ⟨increasing_nodesOf edges, fun a => occurs_iff⟩
  by_cases hcyclic : Cyclic edges
  · obtain ⟨walk, hwalk⟩ := cycle?_of_cyclic hcyclic
    rw [ofEdges_of_cycle? limit hwalk]
    constructor <;> simp [hcyclic, hnodes]
  have hempty := unparented_eq_nil_iff (not_cyclic_iff.1 hcyclic)
  rw [ofEdges_eq limit hcyclic]
  rcases hroots : unparented edges with _ | ⟨root, _ | ⟨second, rest⟩⟩
  · obtain rfl := hempty.1 hroots
    constructor <;> simp [hcyclic, hnodes, hroots]
  · have hne : edges ≠ [] := fun h => by simp [hempty.2 h] at hroots
    rcases hcrowded : crowded edges with _ | ⟨node, nodes⟩
    · by_cases hlimit : limit < (nodesOf edges).length
      · simp only [List.head?_nil, hlimit, if_true]
        constructor <;> simp [hcyclic, hnodes, hne, hroots, hcrowded, hlimit]
      · have htree := isTree_of_unparented hcyclic hroots hcrowded
        have hle : (nodesOf edges).length ≤ limit := Nat.not_lt.1 hlimit
        simp only [List.head?_nil, hlimit, if_false]
        constructor <;> simp [hcyclic, hnodes, hne, hroots, hcrowded, hle, treeOf, htree]
    · simp only [List.head?_cons]
      constructor <;>
        simp +contextual [hcyclic, hnodes, hne, hroots, hcrowded, ← parentsOf_eq_iff]
  · have hne : edges ≠ [] := fun h => by simp [hempty.2 h] at hroots
    constructor <;> simp [hcyclic, hnodes, hne, hroots]

end TreeGraph

/-- A sentence is refused exactly when its tree is: counting the nodes again refuses nothing. -/
theorem Sentence.ofClauses_eq {M : Type} [ClauseNode M] (limit : ℕ) (clauses : List (Clause M)) :
    ofClauses limit clauses =
      match TreeGraph.ofEdges limit (clauses.map edgeOf) with
      | .ok graph => .ok ⟨graph, []⟩
      | .error e => .error (refusal e) := by
  rw [ofClauses]
  cases h : TreeGraph.ofEdges limit (clauses.map edgeOf) with
  | error e => rfl
  | ok graph => exact if_neg (Nat.not_lt.2 (TreeGraph.size_le_of_ofEdges h))

namespace TreeGraph

/-- **The verdict on edges is exact, and a sentence of clauses is refused for it alone.** -/
theorem verdict_exact {N P : Type} [Ord N] [TransOrd N] [Ord P] (limit : ℕ)
    (edges : List (Edge N P)) :
    Diagnosis limit edges (ofEdges limit edges) ∧
      ∀ {M : Type} [ClauseNode M] (clauses : List (Clause M)) (graph : TreeGraph M (Clause M)),
        ofEdges limit (clauses.map Sentence.edgeOf) = .ok graph →
          ¬ limit < graph.size ∧ Sentence.ofClauses limit clauses = .ok ⟨graph, []⟩ :=
  ⟨ofEdges_diagnosis limit edges, fun clauses graph h =>
    ⟨Nat.not_lt.2 (size_le_of_ofEdges h), by rw [Sentence.ofClauses_eq, h]⟩⟩

/-- Two edges out of one node are one node too many where two are allowed. -/
theorem verdict_exact_fork :
    Diagnosis 2 [⟨1, 2, 5⟩, ⟨1, 3, 4⟩] (ofEdges 2 [(⟨1, 2, 5⟩ : Edge ℕ ℕ), ⟨1, 3, 4⟩]) ∧
      ofEdges 2 [(⟨1, 2, 5⟩ : Edge ℕ ℕ), ⟨1, 3, 4⟩] = .error (.tooManyNodes 2 3) :=
  ⟨(verdict_exact 2 _).1, rfl⟩

end TreeGraph

end Metalanguage
