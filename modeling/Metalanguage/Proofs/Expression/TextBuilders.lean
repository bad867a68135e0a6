import Metalanguage.Proofs.Expression.Gathering
import Metalanguage.Proofs.Reader.Resolved

/-!
# Proofs/Expression/TextBuilders — two ways to build a text of propositions

Propositions make a text as expressions, one after the other, or at once. Both ways make the same
set, so the texts are equal and list equal members in the same order (`Text.builders_agree`). But of
equal propositions the first way keeps the first and the second way the last (`Text.Twins`), and
where their literals tell these apart the texts are written differently
(`Text.builders_keep_other_literals`).
-/

namespace Metalanguage

open List (Forall₂)
open Std Ordered

/-- Among propositions that are written like each of their equals, all that is found is. -/
theorem Proposition.map_display_find? {propositions : List Proposition} {p : Proposition}
    (hp : p ∈ propositions)
    (h : ∀ q ∈ propositions, (p == q) = true → p.display = q.display) :
    (propositions.find? (p == ·)).map (·.display) = some p.display := by
  have hself : (p == p) = true := Proposition.compare_eq_iff_beq.1 (level_self compare p)
  obtain ⟨q, hq⟩ := Option.isSome_iff_exists.1 (List.find?_isSome.2 ⟨p, hp, hself⟩)
  rw [hq, Option.map_some, h q (List.mem_of_find?_eq_some hq) (List.find?_some hq)]

namespace Text

/-- **Two texts of the same propositions** that agree but for the representatives of equal ones: the
first text has the first of them, the second text the last. -/
structure Twins (propositions : List Proposition) (t u : Text) : Prop where
  equal : (t == u) = true
  canonical : t.canonical = u.canonical
  members : Forall₂ (fun m n => (m == n) = true) t.members u.members
  first : ∀ m ∈ t.members, propositions.find? (m == ·) = some m
  last : ∀ m ∈ u.members, propositions.reverse.find? (m == ·) = some m
  /-- The members are written alike exactly if the first and the last of equals are. -/
  shown_iff : t.members.map (·.display) = u.members.map (·.display) ↔ ∀ p ∈ propositions,
    (propositions.find? (p == ·)).map (·.display) =
      (propositions.reverse.find? (p == ·)).map (·.display)

theorem twins_of_members {propositions : List Proposition} {t u : Text}
    (ht : t.members = keepFirst compare propositions)
    (hu : u.members = keepLast compare propositions) : Twins propositions t u := by
  have halike : Alike compare t.members u.members := by
    rw [ht, hu]
    exact keepFirst_alike_keepLast compare propositions
  have hcanonical : t.canonical = u.canonical := Text.canonical_congr (Text.compare_eq_iff.2 halike)
  refine ⟨?_, hcanonical, halike.imp fun _ _ => Proposition.compare_eq_iff_beq.1,
    fun m hm => ?_, fun m hm => ?_, ?_⟩
  · change (t.canonical == u.canonical) = true
    rw [hcanonical, beq_self_eq_true]
  all_goals simp only [Proposition.beq_eq_level]
  · rw [← find?_keepFirst, (increasing_keepFirst propositions).find?_eq_some_iff, ← ht]
    exact ⟨hm, level_self compare m⟩
  · rw [← find?_keepLast, (increasing_keepLast propositions).find?_eq_some_iff, ← hu]
    exact ⟨hm, level_self compare m⟩
  · rw [ht, hu]
    exact map_keepFirst_eq_iff

/-- **Both ways build a text of any propositions**, the same set, with equal members in the same
order. They are written alike where equal propositions are. -/
theorem builders_agree {propositions : List Proposition} (hne : propositions ≠ []) :
    ∃ t u, ofExpressions (propositions.map fun p => .part p.toPart) = .ok t ∧
      ofPropositions propositions = .ok u ∧ Twins propositions t u ∧
        ((∀ p ∈ propositions, ∀ q ∈ propositions, (p == q) = true → p.display = q.display) →
          t.display = u.display) := by
  obtain ⟨p, hp⟩ := List.exists_mem_of_ne_nil _ hne
  obtain ⟨first, hfirst, -⟩ := exists_mem_keepFirst compare hp
  obtain ⟨last, hlast, -⟩ := exists_mem_keepLast compare hp
  have htwins : Twins propositions ⟨keepFirst compare propositions⟩
    ⟨keepLast compare propositions⟩ := twins_of_members rfl rfl
  refine ⟨_, _, ?_, ofSet_eq_ok_iff.2 ⟨List.ne_nil_of_mem hlast, rfl⟩, htwins, fun h => ?_⟩
  · rw [ofExpressions_toPart]
    exact ofSet_eq_ok_iff.2 ⟨List.ne_nil_of_mem hfirst, rfl⟩
  · have hshown := htwins.shown_iff.2 fun p hp => by
      rw [Proposition.map_display_find? hp (h p hp), Proposition.map_display_find?
        (List.mem_reverse.2 hp) fun q hq => h p hp q (List.mem_reverse.1 hq)]
    exact congrArg enclose hshown

end Text

/-! ## One word with two literals -/

namespace Sample

/-- A word with a literal, and the same word with another one. -/
def echoes : List Proposition :=
  [.word (word (noun "a." 0) [.ofText "x"]), .word (word (noun "a." 0) [.ofText "y"])]

end Sample

namespace Text

theorem builders_agree_echoes : Sample.echoes ≠ [] ∧
    ∃ t u, ofExpressions (Sample.echoes.map fun p => .part p.toPart) = .ok t ∧
      ofPropositions Sample.echoes = .ok u ∧ Twins Sample.echoes t u := by
  obtain ⟨t, u, ht, hu, htwins, -⟩ :=
    @builders_agree Sample.echoes (List.cons_ne_nil _ _)
  exact ⟨List.cons_ne_nil _ _, t, u, ht, hu, htwins⟩

/-- The first literal stays in one text, the second in the other. -/
theorem builders_keep_other_literals : ∃ t u,
    ofExpressions (Sample.echoes.map fun p => .part p.toPart) = .ok t ∧
      ofPropositions Sample.echoes = .ok u ∧ t.display = "{/[([a.])]<x>/}" ∧
        u.display = "{/[([a.])]<y>/}" ∧ t.display ≠ u.display :=
  ⟨_, _, rfl, rfl, by decide, by decide, by decide⟩

end Text

end Metalanguage
