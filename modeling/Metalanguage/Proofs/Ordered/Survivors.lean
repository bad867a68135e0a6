import Metalanguage.Proofs.Ordered.Laws

/-!
# Proofs/Ordered/Survivors — which of several level entries a set keeps

A set holds at most one entry of each class of level entries, so what a search for each class finds
fixes the set (`Increasing.ext_find?`). The two collections of a list differ in that entry alone:
one keeps the first that the list holds (`find?_keepFirst`), the other the last (`find?_keepLast`),
so a function that tells level entries apart sees the same two sets exactly if it sees the same
first and last entries (`map_keepFirst_eq_iff`). A set that is collected again in the middle of a
list therefore changes nothing (`keepFirst_append_keepFirst_append`).
-/

namespace Metalanguage.Ordered

open Std

variable {α : Type*} {cmp : α → α → Ordering} [TransCmp cmp]

/-! ## Searching a set -/

/-- **A search in a set finds the one entry level with `x`.** -/
theorem Increasing.find?_eq_some_iff {l : List α} (h : Increasing cmp l) {x a : α} :
    l.find? (cmp x · == .eq) = some a ↔ a ∈ l ∧ cmp x a = .eq := by
  constructor
  · intro hfind
    exact ⟨List.mem_of_find?_eq_some hfind, by simpa using List.find?_some hfind⟩
  · rintro ⟨ha, hxa⟩
    obtain ⟨b, hb⟩ := Option.isSome_iff_exists.1
      (List.find?_isSome.2 ⟨a, ha, by simpa using hxa⟩ : (l.find? (cmp x · == .eq)).isSome)
    have hxb : cmp x b = .eq := by simpa using List.find?_some hb
    rw [hb, h.eq_of_level ha (List.mem_of_find?_eq_some hb)
      (TransCmp.eq_trans (OrientedCmp.eq_symm hxa) hxb)]

/-- **Sets in which every search finds the same are the same.** -/
theorem Increasing.ext_find? {l m : List α} (hl : Increasing cmp l) (hm : Increasing cmp m)
    (h : ∀ x, l.find? (cmp x · == .eq) = m.find? (cmp x · == .eq)) : l = m := by
  have hmem : ∀ a, a ∈ l ↔ a ∈ m := fun a => by
    have hself : cmp a a = .eq := level_self cmp a
    simpa [hl.find?_eq_some_iff, hm.find?_eq_some_iff, hself] using
      congrArg (· = some a) (h a)
  have halike : Alike cmp l m := alike_of_increasing hl hm
    (fun a ha => ⟨a, (hmem a).1 ha, level_self cmp a⟩)
    fun b hb => ⟨b, (hmem b).2 hb, level_self cmp b⟩
  simpa using halike.map_eq (f := id) fun a ha b hb => hm.eq_of_level ((hmem a).1 ha) hb

/-! ## What is kept -/

/-- An entry that joins a set is found behind those that are there. -/
theorem find?_insertNew (x a : α) : ∀ {l : List α}, Increasing cmp l →
    (insertNew cmp x l).find? (cmp a · == .eq) = (l ++ [x]).find? (cmp a · == .eq)
  | [], _ => rfl
  | y :: l, h => by
    obtain ⟨hy, hl⟩ := List.pairwise_cons.1 h
    cases hxy : cmp x y with
    | eq =>
      rw [insertNew, hxy, List.find?_append]
      cases hax : cmp a x == .eq with
      | true =>
        have hay : (cmp a y == .eq) = true := by
          simpa using TransCmp.eq_trans (by simpa using hax) hxy
        simp [hay]
      | false => simp [hax]
    | lt =>
      rw [insertNew, hxy, List.find?_append, List.find?_cons]
      cases hax : cmp a x == .eq with
      | true =>
        -- what is level with `x` stands before all of the set
        have hnone : (y :: l).find? (cmp a · == .eq) = none := by
          refine List.find?_eq_none.2 fun b hb => ?_
          have hxb : cmp x b = .lt := by
            rcases List.mem_cons.1 hb with rfl | hb
            · exact hxy
            · exact TransCmp.lt_trans hxy (hy b hb)
          rw [TransCmp.congr_left (by simpa using hax : cmp a x = .eq), hxb]
          simp
        simp [hnone, hax]
      | false => simp [hax]
    | gt =>
      rw [insertNew, hxy, List.cons_append, List.find?_cons, List.find?_cons,
        find?_insertNew x a hl]

/-- **Of level entries the last one stays.** -/
theorem find?_keepLast (a : α) : ∀ l : List α,
    (keepLast cmp l).find? (cmp a · == .eq) = l.reverse.find? (cmp a · == .eq)
  | [] => rfl
  | x :: l => by
    rw [keepLast_cons, find?_insertNew x a (increasing_keepLast l), List.find?_append,
      find?_keepLast a l, List.reverse_cons, List.find?_append]

/-- **Of level entries the first one stays.** -/
theorem find?_keepFirst (a : α) (l : List α) :
    (keepFirst cmp l).find? (cmp a · == .eq) = l.find? (cmp a · == .eq) := by
  rw [keepFirst_eq_keepLast_reverse, find?_keepLast, List.reverse_reverse]

/-- Lists in which every search finds the same are collected into one set. -/
theorem keepFirst_congr {l m : List α}
    (h : ∀ x, l.find? (cmp x · == .eq) = m.find? (cmp x · == .eq)) :
    keepFirst cmp l = keepFirst cmp m :=
  (increasing_keepFirst l).ext_find? (increasing_keepFirst m) fun x => by
    rw [find?_keepFirst, find?_keepFirst, h]

/-- **Collecting a part of a list first changes nothing.** -/
theorem keepFirst_append_keepFirst_append (l m k : List α) :
    keepFirst cmp (l ++ keepFirst cmp m ++ k) = keepFirst cmp (l ++ m ++ k) :=
  keepFirst_congr fun x => by simp only [List.find?_append, find?_keepFirst]

/-! ## The first against the last -/

variable (cmp) in
/-- The two collections of a list are alike. -/
theorem keepFirst_alike_keepLast (l : List α) : Alike cmp (keepFirst cmp l) (keepLast cmp l) := by
  rw [keepFirst_eq_keepLast_reverse]
  exact keepLast_alike (fun a ha => ⟨a, List.mem_reverse.1 ha, level_self cmp a⟩)
    fun a ha => ⟨a, List.mem_reverse.2 ha, level_self cmp a⟩

/-- **The two collections of a list look the same** exactly if the first and the last of each class
of level entries do. -/
theorem map_keepFirst_eq_iff {β : Type*} {f : α → β} {l : List α} :
    (keepFirst cmp l).map f = (keepLast cmp l).map f ↔
      ∀ a ∈ l, (l.find? (cmp a · == .eq)).map f = (l.reverse.find? (cmp a · == .eq)).map f := by
  have halike : Alike cmp (keepFirst cmp l) (keepLast cmp l) := keepFirst_alike_keepLast cmp l
  have hfirst : ∀ {a b}, b ∈ keepFirst cmp l → cmp a b = .eq →
      l.find? (cmp a · == .eq) = some b := fun hb hab => by
    rw [← find?_keepFirst, (increasing_keepFirst l).find?_eq_some_iff]; exact ⟨hb, hab⟩
  have hlast : ∀ {a b}, b ∈ keepLast cmp l → cmp a b = .eq →
      l.reverse.find? (cmp a · == .eq) = some b := fun hb hab => by
    rw [← find?_keepLast, (increasing_keepLast l).find?_eq_some_iff]; exact ⟨hb, hab⟩
  constructor
  · intro hmap a ha
    -- entries in the same place are level and look the same
    have hboth : List.Forall₂ (fun b c => cmp b c = .eq ∧ f b = f c) (keepFirst cmp l)
        (keepLast cmp l) := by
      rw [← List.forall₂_eq_eq_eq, List.forall₂_map_left_iff, List.forall₂_map_right_iff] at hmap
      exact List.Forall₂.mp (fun _ _ => And.intro) halike hmap
    obtain ⟨b, hb, hab⟩ := exists_mem_keepFirst cmp ha
    obtain ⟨c, hc, hbc, hf⟩ := exists_mem_of_forall₂ hboth hb
    rw [hfirst hb hab, hlast hc (TransCmp.eq_trans hab hbc), Option.map_some, Option.map_some, hf]
  · intro h
    refine halike.map_eq fun b hb c hc hbc => ?_
    have hlook := h b (mem_of_mem_keepFirst hb)
    rw [hfirst hb (level_self cmp b), hlast hc hbc] at hlook
    exact Option.some.inj hlook

end Metalanguage.Ordered
