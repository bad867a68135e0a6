import Metalanguage.Proofs.Digraph.Search
import Metalanguage.Proofs.Ordered.Mapping
import Metalanguage.Proofs.TreeGraph.Numbering
import Metalanguage.TreeGraph.Tables

/-!
# Proofs/TreeGraph/Tabulated — the tables hold the arcs of the edges

Where the ends of the arcs are numbers of nodes, the tables are made (`exists_tabulated`). They fit
together, and hold at each number the arcs that leave it, by payload, and the far ends of those that
enter it (`Tabulated`); so the graph in them is the graph of the arcs (`Tabulated.next_eq`).
-/

namespace Metalanguage.TreeGraph

open Metalanguage.Digraph (Tables)
open Ordered

variable {N P : Type} [Ord N]

/-! ## Numbers of arcs -/

/-- The numbers of some arcs, one by one. -/
abbrev Numbers (arcs : List (Arc P)) (numbers : List ℕ) (as : List (Arc P)) : Prop :=
  List.Forall₂ (fun i a => arcs[i]? = some a) numbers as

/-- **Numbers that are sorted by the payloads of their arcs** are those of the sorted arcs. -/
theorem exists_byPayload [Ord P] {arcs as : List (Arc P)} {numbers : List ℕ}
    (h : Numbers arcs numbers as) : ∃ sorted, byPayload arcs numbers = .ok sorted ∧
      sorted.Perm numbers ∧ Numbers arcs sorted (sort (compareOn (·.payload)) as) := by
  obtain ⟨hlength, hzip⟩ := List.forall₂_iff_zip.1 h
  have hfst : (numbers.zip as).map (·.1) = numbers := List.map_fst_zip hlength.le
  have hsnd : (numbers.zip as).map (·.2) = as := List.map_snd_zip hlength.ge
  -- the keys are the payloads of the arcs
  have hkeyed : (numbers.mapM fun i => do
      return (i, (← Table.entry arcs i).payload)) =
        Except.ok ((numbers.zip as).map fun z => (z.1, z.2.payload)) := by
    conv_lhs => rw [← hfst]
    refine mapM_eq_ok_iff.2 (List.forall₂_map_left_iff.2 (List.forall₂_map_right_iff.2 ?_))
    refine List.forall₂_same.2 fun z hz => ?_
    rw [Table.entry_eq (hzip hz)]
    rfl
  have hsort : sort (compareOn (·.2)) ((numbers.zip as).map fun z => (z.1, z.2.payload)) =
      (sort (compareOn fun z => z.2.payload) (numbers.zip as)).map fun z => (z.1, z.2.payload) :=
    sort_map (fun _ _ => rfl) _
  have hsorted : sort (compareOn (·.payload)) as =
      (sort (compareOn fun z => z.2.payload) (numbers.zip as)).map (·.2) := by
    conv_lhs => rw [← hsnd]
    exact sort_map (fun _ _ => rfl) _
  refine ⟨(sort (compareOn fun z => z.2.payload) (numbers.zip as)).map (·.1), ?_, ?_, ?_⟩
  · rw [byPayload, hkeyed, ok_bind, hsort, List.map_map]
    rfl
  · exact ((sort_perm _ _).map _).trans (.of_eq hfst)
  · rw [hsorted]
    refine List.forall₂_map_left_iff.2 (List.forall₂_map_right_iff.2 ?_)
    exact List.forall₂_same.2 fun z hz => hzip (mem_sort.1 hz)

/-- The numbers of the arcs out of `v`, in the order of the arcs. -/
abbrev numbersFrom (arcs : List (Arc P)) (v : ℕ) : List ℕ :=
  (arcs.zipIdx.filter fun z => z.1.tail == v).map (·.2)

theorem nodup_numbersFrom (arcs : List (Arc P)) (v : ℕ) : (numbersFrom arcs v).Nodup := by
  refine List.Nodup.sublist (List.filter_sublist.map _) ?_
  rw [List.zipIdx_map_snd]
  exact List.nodup_range'

theorem numbers_numbersFrom (arcs : List (Arc P)) (v : ℕ) :
    Numbers arcs (numbersFrom arcs v) (arcs.filter (·.tail == v)) := by
  have hfilter : arcs.filter (·.tail == v) =
      (arcs.zipIdx.filter fun z => z.1.tail == v).map (·.1) := by
    conv_lhs => rw [← List.zipIdx_map_fst 0 arcs, List.filter_map]
    rfl
  rw [hfilter]
  refine List.forall₂_map_left_iff.2 (List.forall₂_map_right_iff.2 ?_)
  exact List.forall₂_same.2 fun z hz => List.mem_zipIdx_iff_getElem?.1 (List.mem_filter.1 hz).1

/-! ## The tables -/

/-- **The tables hold these arcs** on `n` nodes. -/
structure Tabulated [Ord P] (n : ℕ) (arcs : List (Arc P)) (g : Tables)
    (incoming : List (List ℕ)) : Prop where
  length_eq : g.leaving.length = n
  heads_eq : g.heads = arcs.map (·.head)
  head_lt : ∀ a ∈ arcs, a.head < n
  leaving : ∀ v < n, ∃ numbers, g.leaving[v]? = some numbers ∧ numbers.Nodup ∧
    Numbers arcs numbers (Arc.leaving arcs v)
  incoming : ∀ v < n, incoming[v]? = some (Arc.parents arcs v)

/-- Grouped by their tails, the numbers of the arcs are those out of each number. -/
theorem group_tails {n : ℕ} {arcs : List (Arc P)} (h : ∀ a ∈ arcs, a.tail < n) :
    Table.group n (arcs.zipIdx.map fun z => (z.1.tail, z.2)) =
      .ok ((List.range n).map (numbersFrom arcs)) := by
  rw [Table.group_eq fun p hp => ?_]
  · simp only [List.filter_map, List.map_map]
    rfl
  · obtain ⟨z, hz, rfl⟩ := List.mem_map.1 hp
    exact h z.1 (List.mem_of_getElem? (List.mem_zipIdx_iff_getElem?.1 hz))

/-- Grouped by their heads, the tails of the arcs are the parents of each number. -/
theorem group_heads {n : ℕ} {arcs : List (Arc P)} (h : ∀ a ∈ arcs, a.head < n) :
    Table.group n (arcs.map fun arc => (arc.head, arc.tail)) =
      .ok ((List.range n).map (Arc.parents arcs)) := by
  rw [Table.group_eq fun p hp => ?_]
  · simp only [List.filter_map, List.map_map]
    rfl
  · obtain ⟨a, ha, rfl⟩ := List.mem_map.1 hp
    exact h a ha

/-- **The tables can be made** where the arcs are between the nodes. -/
theorem exists_tabulated [Ord P] {n : ℕ} {arcs : List (Arc P)}
    (harcs : ∀ a ∈ arcs, a.tail < n ∧ a.head < n) :
    ∃ g incoming, tabulate n arcs = .ok (g, incoming) ∧ Tabulated n arcs g incoming := by
  -- each number keeps the numbers of its arcs, and they are sorted
  have hnumbers : List.Forall₂ (fun numbers v => numbersFrom arcs v = numbers)
      ((List.range n).map (numbersFrom arcs)) (List.range n) :=
    List.forall₂_map_left_iff.2 (List.forall₂_same.2 fun _ _ => rfl)
  obtain ⟨leaving, hleaving, hall⟩ := exists_mapM (f := byPayload arcs)
    (Q := fun v sorted => sorted.Nodup ∧ Numbers arcs sorted (Arc.leaving arcs v)) hnumbers
    fun {_ v} _ h => by
      obtain ⟨sorted, hok, hperm, hsorted⟩ := exists_byPayload (numbers_numbersFrom arcs v)
      exact ⟨sorted, h ▸ hok, hperm.nodup_iff.2 (nodup_numbersFrom arcs v), hsorted⟩
  refine ⟨⟨leaving, arcs.map (·.head)⟩, (List.range n).map (Arc.parents arcs), ?_, ?_⟩
  · rw [tabulate, group_tails fun a ha => (harcs a ha).1, ok_bind,
      group_heads fun a ha => (harcs a ha).2, ok_bind, hleaving, ok_bind]
    rfl
  · have hlength : leaving.length = n := by simpa using hall.length_eq.symm
    refine ⟨hlength, rfl, fun a ha => (harcs a ha).2, fun v hv => ?_, fun v hv => ?_⟩
    · have hget := List.Forall₂.get hall (by simpa using hv) (hlength.symm ▸ hv)
      simp only [List.get_eq_getElem, List.getElem_range] at hget
      exact ⟨_, List.getElem?_eq_getElem (hlength.symm ▸ hv), hget⟩
    · rw [List.getElem?_map, List.getElem?_range hv]
      rfl

namespace Tabulated

variable [Ord P] {n : ℕ} {arcs : List (Arc P)} {g : Tables} {incoming : List (List ℕ)}
  (h : Tabulated n arcs g incoming)

include h

/-- What is listed at a number leaves it. -/
theorem tail_eq {v i : ℕ} {numbers : List ℕ} (hv : g.leaving[v]? = some numbers)
    (hi : i ∈ numbers) : ∃ a, arcs[i]? = some a ∧ a.tail = v := by
  have hlt : v < n := h.length_eq ▸ (List.getElem?_eq_some_iff.1 hv).1
  obtain ⟨numbers', hget, -, hleaving⟩ := h.leaving v hlt
  obtain rfl := Option.some.inj (hget.symm.trans hv)
  obtain ⟨a, ha, hia⟩ := exists_mem_of_forall₂ hleaving hi
  exact ⟨a, hia, by simpa using (List.mem_filter.1 (mem_sort.1 ha)).2⟩

/-- **The tables fit together.** -/
theorem fit : g.Fit where
  arc_lt numbers hnumbers i hi := by
    obtain ⟨v, hv⟩ := List.mem_iff_getElem?.1 hnumbers
    obtain ⟨a, ha, -⟩ := h.tail_eq hv hi
    simpa [h.heads_eq] using (List.getElem?_eq_some_iff.1 ha).1
  head_lt w hw := by
    rw [h.heads_eq] at hw
    obtain ⟨a, ha, rfl⟩ := List.mem_map.1 hw
    exact h.length_eq ▸ h.head_lt a ha
  nodup := by
    refine List.nodup_flatten.2 ⟨fun numbers hnumbers => ?_,
      List.pairwise_iff_getElem.2 fun u v hu hv huv i hiu hiv => ?_⟩
    · obtain ⟨v, hv⟩ := List.mem_iff_getElem?.1 hnumbers
      obtain ⟨numbers', hget, hnodup, -⟩ :=
        h.leaving v (h.length_eq ▸ (List.getElem?_eq_some_iff.1 hv).1)
      obtain rfl := Option.some.inj (hget.symm.trans hv)
      exact hnodup
    · obtain ⟨a, ha, hau⟩ := h.tail_eq (List.getElem?_eq_getElem hu) hiu
      obtain ⟨b, hb, hbv⟩ := h.tail_eq (List.getElem?_eq_getElem hv) hiv
      obtain rfl := Option.some.inj (ha.symm.trans hb)
      omega

/-- **The graph in the tables is the graph of the arcs.** -/
theorem next_eq (htail : ∀ a ∈ arcs, a.tail < n) : g.next = Arc.successors arcs := by
  funext v
  by_cases hv : v < n
  · obtain ⟨numbers, hnumbers, -, hleaving⟩ := h.leaving v hv
    have hnext := h.fit.forall₂_next hnumbers
    have hheads : List.Forall₂ (fun i w => g.heads[i]? = some w) numbers
        (Arc.successors arcs v) := by
      refine List.forall₂_map_right_iff.2 (hleaving.imp fun i a hia => ?_)
      rw [h.heads_eq, List.getElem?_map, hia]
      rfl
    exact List.right_unique_forall₂' (fun _ _ _ hu hw => Option.some.inj (hu.symm.trans hw)) hnext
      hheads
  · have hnone : arcs.filter (·.tail == v) = [] :=
      List.filter_eq_nil_iff.2 fun a ha => by
        have := htail a ha
        simp only [beq_iff_eq]
        omega
    rw [Arc.successors, Arc.leaving, hnone, Tables.next, List.getD_eq_getElem?_getD,
      List.getElem?_eq_none (by rw [h.length_eq]; omega)]
    rfl

end Tabulated

end Metalanguage.TreeGraph
