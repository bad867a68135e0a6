import Metalanguage.Proofs.Digraph.Distance
import Metalanguage.Proofs.Digraph.Search

/-!
# Proofs/Digraph/LevelsLoop — the loop of the levels ends where no cycle can be reached

The loop looks at no marks, so nothing in it keeps it from going round a cycle for ever. It is the
length of the walks from the root that bounds it: after so many rounds the last level holds the ends
of the walks of so many arcs (`loop_levelsRound`), and there are no long ones exactly if no vertex
that the root reaches reaches itself (`acyclicFrom_iff`). Then it ends within as many rounds as there are
vertices (`loop_levelsRound_of_acyclicFrom`), and has made no more levels than that
(`length_levels_le`); otherwise it never does (`loop_levelsRound_of_not_acyclicFrom`).
-/

namespace Metalanguage.Digraph

open Ordered

variable {next : ℕ → List ℕ} {n root : ℕ}

/-! ## A level -/

theorem mem_dropRepeats {a : ℕ} : ∀ {l : List ℕ}, a ∈ dropRepeats l ↔ a ∈ l
  | [] => Iff.rfl
  | [_] => Iff.rfl
  | b :: c :: l => by
    rw [dropRepeats]
    split
    case isTrue hbc =>
      obtain rfl : b = c := by simpa using hbc
      rw [mem_dropRepeats, List.mem_cons (a := a) (b := b) (l := b :: l)]
      exact ⟨.inr, fun h => h.elim (· ▸ List.mem_cons_self) id⟩
    case isFalse hbc => rw [List.mem_cons, mem_dropRepeats, ← List.mem_cons]

/-- Sorted entries without neighbours that are equal increase. -/
theorem increasing_dropRepeats : ∀ {l : List ℕ}, Sorted compare l →
    Increasing compare (dropRepeats l)
  | [], _ => .nil
  | [_], _ => List.pairwise_singleton _ _
  | b :: c :: l, h => by
    obtain ⟨hb, hl⟩ := List.pairwise_cons.1 h
    have hrest := increasing_dropRepeats hl
    rw [dropRepeats]
    split
    case isTrue _ => exact hrest
    case isFalse hbc =>
      refine List.pairwise_cons.2 ⟨fun x hx => Nat.compare_eq_lt.2 ?_, hrest⟩
      have hne : b ≠ c := by simpa using hbc
      have hle := Nat.isLE_compare.1 (hb c List.mem_cons_self)
      have hcx : c ≤ x := by
        rcases List.mem_cons.1 (mem_dropRepeats.1 hx) with rfl | hx
        · exact le_rfl
        · exact Nat.isLE_compare.1 ((List.pairwise_cons.1 hl).1 x hx)
      omega

/-- **Sorting and dropping repeats** leaves the distinct entries in order. -/
theorem dropRepeats_sort (l : List ℕ) : dropRepeats (sort compare l) = keepLast compare l := by
  have hmem : ∀ {a : ℕ}, a ∈ dropRepeats (sort compare l) ↔ a ∈ l := by
    intro a
    rw [mem_dropRepeats, mem_sort]
  have halike : Alike compare (dropRepeats (sort compare l)) (keepLast compare l) :=
    alike_of_increasing (increasing_dropRepeats (sorted_sort l)) (increasing_keepLast l)
      (fun a ha => exists_mem_keepLast compare (hmem.1 ha))
      fun b hb => ⟨b, hmem.2 (mem_of_mem_keepLast hb), level_self compare b⟩
  simpa using halike.map_eq (f := id) fun a _ b _ => Nat.compare_eq_eq.1

theorem nextLevel_eq_nil_iff {level : List ℕ} :
    nextLevel next level = [] ↔ level.flatMap next = [] := by
  constructor
  · refine fun h => List.eq_nil_iff_forall_not_mem.2 fun v hv => ?_
    obtain ⟨w, hw, -⟩ := exists_mem_keepLast compare hv
    rw [← nextLevel, h] at hw
    cases hw
  · intro h
    rw [nextLevel, h]
    rfl

theorem lt_of_mem_nextLevel (hin : Within next n) {level : List ℕ} {v : ℕ}
    (hv : v ∈ nextLevel next level) : v < n := by
  obtain ⟨u, -, huv⟩ := List.mem_flatMap.1 (mem_of_mem_keepLast hv)
  exact (hin u v huv).2

/-! ## A round -/

variable {g : Tables} {level : List ℕ} {pre : List (List ℕ)}

/-- **A round puts the next level behind the levels**, or ends because there is none. Every place
that it asks for is there. -/
theorem levelsRound_eq (hg : g.Fit) (hlevel : ∀ v ∈ level, v < g.leaving.length) :
    levelsRound g (pre ++ [level]) = .ok (match nextLevel g.next level with
      | [] => .stop (pre ++ [level]) ()
      | below => .again (pre ++ [level] ++ [below])) := by
  have hlast : Table.entry (pre ++ [level]) ((pre ++ [level]).length - 1) = .ok level :=
    Table.entry_eq (by simp)
  have hheads : (level.mapM fun v => do
      (← Table.entry g.leaving v).mapM (Table.entry g.heads)) = .ok (level.map g.next) :=
    Table.mapM_eq_map fun v hv => by
      have harcs := List.getElem?_eq_getElem (hlevel v hv)
      rw [Table.entry_eq harcs, ok_bind]
      exact Table.mapM_entry (hg.forall₂_next harcs)
  rw [levelsRound, hlast, ok_bind, hheads, ok_bind, ← List.flatMap_def, dropRepeats_sort]
  change (if (level.flatMap g.next).isEmpty then _ else _) = _
  by_cases hnext : nextLevel g.next level = []
  · rw [hnext, nextLevel_eq_nil_iff.1 hnext]
    rfl
  · rw [if_neg (by rwa [List.isEmpty_iff, ← nextLevel_eq_nil_iff])]
    change Except.ok (Turn.again (pre ++ [level] ++ [nextLevel g.next level])) = _
    cases h : nextLevel g.next level with
    | nil => exact absurd h hnext
    | cons v below => rfl

/-! ## All rounds -/

/-- No level is below an empty one. -/
theorem iterate_nextLevel_nil (k : ℕ) : (nextLevel next)^[k] [] = [] :=
  Function.iterate_fixed rfl k

/-- **After so many rounds the loop has ended** if the level after so many steps is empty, and goes on
otherwise. -/
theorem loop_levelsRound (hg : g.Fit) : ∀ (rounds : ℕ) {pre : List (List ℕ)} {level : List ℕ},
    level ≠ [] → (∀ v ∈ level, v < g.leaving.length) →
      loop (levelsRound g) rounds (pre ++ [level]) =
        if (nextLevel g.next)^[rounds] level = [] then .ok (pre ++ levels g.next rounds level, ())
        else .error .unfinished
  | 0, pre, level, hne, _ => by rw [if_neg (by simpa using hne)]; rfl
  | rounds + 1, pre, level, hne, hlevel => by
    have hround : levelsRound g (pre ++ [level]) = _ := levelsRound_eq hg hlevel
    rw [Function.iterate_succ_apply, levels]
    cases hbelow : nextLevel g.next level with
    | nil =>
      rw [hbelow] at hround
      rw [loop_stop hround, if_pos (iterate_nextLevel_nil rounds)]
    | cons v below =>
      rw [hbelow] at hround
      rw [loop_again hround, loop_levelsRound hg rounds (by simp) fun u hu =>
        lt_of_mem_nextLevel hg.within (hbelow ▸ hu)]
      simp only [List.append_assoc, List.singleton_append]

/-- The levels from a vertex have come to an end when no walk from it is that long. -/
theorem iterate_nextLevel_eq_nil_iff {k : ℕ} :
    (nextLevel next)^[k] [root] = [] ↔ ∀ v, ¬ Walks next k root v := by
  simp [List.eq_nil_iff_forall_not_mem, mem_iterate_nextLevel]

/-- From where the walks are bounded none goes on for ever. -/
theorem grounded_of_walks : ∀ {k a : ℕ}, (∀ v, ¬ Walks next k a v) → Grounded next a
  | 0, _, h => absurd rfl (h _)
  | _ + 1, _, h => .intro _ fun b hab => grounded_of_walks fun v hv => h v ⟨b, hab, hv⟩

/-- What can be reached from a grounded vertex is grounded. -/
theorem Grounded.of_reflTransGen {a v : ℕ} (ha : Grounded next a)
    (hav : Relation.ReflTransGen (HasArc next) a v) : Grounded next v := by
  induction hav with
  | refl => exact ha
  | tail _ hbc ih => exact ih.inv hbc

/-- **No cycle can be reached exactly if the walks are bounded.** -/
theorem acyclicFrom_iff (hin : Within next n) (hroot : root < n) :
    AcyclicFrom next root ↔ ∃ k, ∀ v, ¬ Walks next k root v := by
  refine ⟨fun hac => ⟨n, fun v hv => lt_irrefl n (hv.lt_of_acyclicFrom hin hac hroot)⟩, ?_⟩
  rintro ⟨k, hk⟩ v hreached
  exact ((grounded_of_walks hk).of_reflTransGen hreached).not_transGen

/-- **Where no cycle can be reached the loop ends** within as many rounds as there are vertices. -/
theorem loop_levelsRound_of_acyclicFrom (hg : g.Fit) (hroot : root < g.leaving.length)
    (hac : AcyclicFrom g.next root) {rounds : ℕ} (hrounds : g.leaving.length ≤ rounds) :
    loop (levelsRound g) rounds [[root]] =
      .ok (levels g.next g.leaving.length [root], ()) := by
  refine loop_mono hrounds ?_
  have hend : (nextLevel g.next)^[g.leaving.length] [root] = [] :=
    iterate_nextLevel_eq_nil_iff.2 fun v hv =>
      lt_irrefl _ (hv.lt_of_acyclicFrom hg.within hac hroot)
  have hloop : loop (levelsRound g) g.leaving.length ([] ++ [[root]]) = _ :=
    loop_levelsRound hg _ (by simp) (by simpa using hroot)
  rwa [if_pos hend] at hloop

/-- **Where a cycle can be reached the loop goes on for ever.** -/
theorem loop_levelsRound_of_not_acyclicFrom (hg : g.Fit) (hroot : root < g.leaving.length)
    (hcyclic : ¬ AcyclicFrom g.next root) (rounds : ℕ) :
    loop (levelsRound g) rounds [[root]] = .error .unfinished := by
  have hgoes : (nextLevel g.next)^[rounds] [root] ≠ [] := fun h =>
    hcyclic ((acyclicFrom_iff hg.within hroot).2 ⟨rounds, iterate_nextLevel_eq_nil_iff.1 h⟩)
  have hloop : loop (levelsRound g) rounds ([] ++ [[root]]) = _ :=
    loop_levelsRound hg rounds (by simp) (by simpa using hroot)
  rwa [if_neg hgoes] at hloop

theorem length_levels_le : ∀ (fuel : ℕ) (level : List ℕ), (levels next fuel level).length ≤ fuel
  | 0, _ => le_rfl
  | fuel + 1, level => by
    rw [levels]
    split
    · simp
    · exact Nat.succ_le_succ (length_levels_le fuel _)

end Metalanguage.Digraph
