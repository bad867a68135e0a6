import Metalanguage.Proofs.Expression.Containment
import Metalanguage.Proofs.Ordered.Survivors

/-!
# Proofs/Expression/Gathering — a text is the set of what is put into it

Expressions list propositions: each word, sentence or super-sentence itself, each text its members
(`Text.listed`). The text of expressions is the set of what they list, the first of equal propositions
kept, and it is there exactly when they are of those kinds and list something
(`ofExpressions_eq_ok_iff`). A set forgets order and repetition, and collecting a part of a list first
changes nothing: a text may stand for the expressions that it was made of (`ofExpressions_nested`).
-/

namespace Metalanguage

open Std Ordered

/-! ## Which expressions make a text -/

/-- Propositions are equal when they are level. -/
theorem Proposition.beq_eq_level (p q : Proposition) : (p == q) = (compare p q == .eq) := by
  rw [Bool.eq_iff_iff, ← compare_eq_iff_beq, beq_iff_eq]

namespace Text

/-- Expressions that are built and may be put into a text list something. -/
theorem listed_ne_nil {k : Stock} {children : List Expression} (hbuilt : ∀ x ∈ children, x.Built k)
    (hne : children ≠ []) (hkinds : ∀ x ∈ children, x.kind ∈ constituents) :
    listed children ≠ [] := by
  obtain ⟨x, hx⟩ := List.exists_mem_of_ne_nil _ hne
  have hlisted : x.listed ≠ [] := by
    have hkind := hkinds x hx
    cases hbuilt x hx with
    | @part p _ =>
      cases p <;> simp_all [Expression.listed, Expression.kind, Part.kind, Proposition.ofPart?,
        constituents]
    | text h => exact h.facts.ne_nil
    | hypertext _ => simp [Expression.kind, constituents] at hkind
  obtain ⟨p, hp⟩ := List.exists_mem_of_ne_nil _ hlisted
  exact List.ne_nil_of_mem (List.mem_flatMap.2 ⟨x, hx, hp⟩)

/-- **Which expressions make a text.** -/
theorem exists_ofExpressions_iff {k : Stock} {children : List Expression}
    (hbuilt : ∀ x ∈ children, x.Built k) : (∃ t, ofExpressions children = .ok t) ↔
      children ≠ [] ∧ ∀ x ∈ children, x.kind ∈ constituents := by
  constructor
  · rintro ⟨t, ht⟩
    obtain ⟨hkinds, hne, -⟩ := ofExpressions_eq_ok_iff.1 ht
    refine ⟨?_, hkinds⟩
    rintro rfl
    exact hne rfl
  · rintro ⟨hne, hkinds⟩
    obtain ⟨p, hp⟩ := List.exists_mem_of_ne_nil _ (listed_ne_nil hbuilt hne hkinds)
    obtain ⟨q, hq, -⟩ := exists_mem_keepFirst compare hp
    exact ⟨⟨keepFirst compare (listed children)⟩, ofExpressions_eq_ok_iff.2
      ⟨hkinds, List.ne_nil_of_mem hq, rfl⟩⟩

/-! ## Members -/

/-- A proposition is a member when a member equals it. -/
theorem hasMember_iff {t : Text} {p : Proposition} :
    t.hasMember p.toPart = true ↔ ∃ m ∈ t.members, compare m p = .eq := by
  rw [hasMember, List.any_eq_true]
  exact exists_congr fun m => and_congr_right fun _ => Proposition.compare_eq_iff_beq.symm

/-- An expression lists a proposition when it equals the proposition, or holds it as a text. -/
theorem exists_listed_iff {x : Expression} {p : Proposition} :
    (∃ q ∈ x.listed, compare q p = .eq) ↔
      (x == .part p.toPart) = true ∨ ∃ u, x = .text u ∧ u.hasMember p.toPart = true := by
  rcases x with q | t | h
  · have hpart : (∃ q' ∈ (Proposition.ofPart? q).toList, compare q' p = .eq) ↔
        (Expression.part q == .part p.toPart) = true := by
      constructor
      · rintro ⟨q', hq', hlevel⟩
        obtain rfl := Proposition.toPart_of_ofPart? (Option.mem_toList.1 hq')
        exact Proposition.compare_eq_iff_beq.1 hlevel
      · intro heq
        obtain ⟨q', rfl⟩ := Proposition.exists_toPart_eq (m := p) (Expression.beq_iff.1 heq).1
        exact ⟨q', by simp, Proposition.compare_eq_iff_beq.2 heq⟩
    simpa [Expression.listed] using hpart
  · have hkind : ¬(Expression.text t == .part p.toPart) = true := fun heq =>
      Expression.part_kind_ne_text p.toPart (Expression.beq_iff.1 heq).1.symm
    simp [Expression.listed, hasMember_iff, hkind]
  · have hkind : ¬(Expression.hypertext h == .part p.toPart) = true := fun heq => by
      have := (Expression.beq_iff.1 heq).1
      cases p <;> cases this
    simp [Expression.listed, hkind]

/-- **A text as the set of what expressions list**: its members increase, they are exactly the
propositions that an expression is or holds as a text, and each of them is the first of its equals.
-/
structure IsSetOf (children : List Expression) (t : Text) : Prop where
  increasing : Increasing compare t.members
  hasMember_iff : ∀ p : Proposition, t.hasMember p.toPart = true ↔
    ∃ x ∈ children, (x == .part p.toPart) = true ∨
      ∃ u, x = .text u ∧ u.hasMember p.toPart = true
  first : ∀ m ∈ t.members, (listed children).find? (m == ·) = some m

theorem isSetOf_of_ofExpressions {children : List Expression} {t : Text}
    (h : ofExpressions children = .ok t) : t.IsSetOf children := by
  obtain ⟨-, -, hmembers⟩ := ofExpressions_eq_ok_iff.1 h
  have hincreasing : Increasing compare t.members := hmembers ▸ increasing_keepFirst _
  refine ⟨hincreasing, fun p => ?_, fun m hm => ?_⟩
  · have hlisted : (∃ m ∈ keepFirst compare (listed children), compare m p = .eq) ↔
        ∃ q ∈ listed children, compare q p = .eq := by
      constructor
      · rintro ⟨m, hm, hmp⟩
        exact ⟨m, mem_of_mem_keepFirst hm, hmp⟩
      · rintro ⟨q, hq, hqp⟩
        obtain ⟨m, hm, hqm⟩ := exists_mem_keepFirst compare hq
        exact ⟨m, hm, TransCmp.eq_trans (OrientedCmp.eq_symm hqm) hqp⟩
    rw [hasMember_iff, hmembers, hlisted]
    simp only [← exists_listed_iff, listed, List.mem_flatMap]
    tauto
  · simp only [Proposition.beq_eq_level]
    rw [← find?_keepFirst, ← hmembers, hincreasing.find?_eq_some_iff]
    exact ⟨hm, level_self _ m⟩

/-! ## Order, repetition and nesting -/

theorem listed_subset {children children' : List Expression} (h : children ⊆ children') :
    listed children ⊆ listed children' := fun p hp => by
  obtain ⟨x, hx, hpx⟩ := List.mem_flatMap.1 hp
  exact List.mem_flatMap.2 ⟨x, h hx, hpx⟩

/-- **Expressions in another order, or repeated, make an equal text.** -/
theorem ofExpressions_of_mem_iff {children children' : List Expression} {t : Text}
    (h : ofExpressions children = .ok t) (hmem : ∀ x, x ∈ children' ↔ x ∈ children) :
    ∃ u, ofExpressions children' = .ok u ∧ (t == u) = true := by
  obtain ⟨hkinds, hne, hmembers⟩ := ofExpressions_eq_ok_iff.1 h
  have halike : Alike compare (keepFirst compare (listed children))
      (keepFirst compare (listed children')) :=
    keepFirst_alike_of_mem
      (fun p hp => ⟨p, listed_subset (fun x hx => (hmem x).2 hx) hp, level_self _ p⟩)
      fun p hp => ⟨p, listed_subset (fun x hx => (hmem x).1 hx) hp, level_self _ p⟩
  refine ⟨⟨keepFirst compare (listed children')⟩, ofExpressions_eq_ok_iff.2
    ⟨fun x hx => hkinds x ((hmem x).1 hx), fun hnil => hne ?_, rfl⟩, ?_⟩
  · rwa [hnil, Alike, List.forall₂_nil_right_iff] at halike
  · have hlevel : compare t ⟨keepFirst compare (listed children')⟩ = .eq :=
      Text.compare_eq_iff.2 (hmembers ▸ halike)
    change (t.canonical == _) = true
    rw [Text.canonical_congr hlevel, beq_self_eq_true]

/-- **A text stands for the expressions that it was made of.** -/
theorem ofExpressions_nested {ys : List Expression} {u : Text} (h : ofExpressions ys = .ok u)
    (xs zs : List Expression) :
    ofExpressions (xs ++ .text u :: zs) = ofExpressions (xs ++ ys ++ zs) := by
  obtain ⟨hkinds, -, hmembers⟩ := ofExpressions_eq_ok_iff.1 h
  have hys : ys.mapM propositionsOf = .ok (ys.map (·.listed)) :=
    mapM_propositionsOf_eq_ok_iff.2 ⟨hkinds, rfl⟩
  have hu : propositionsOf (.text u) = .ok u.members := rfl
  rw [ofExpressions, ofExpressions, List.append_assoc]
  simp only [List.mapM_append, List.mapM_cons, hys, hu]
  -- what stands before and behind is refused on both sides, or lists the same
  cases xs.mapM propositionsOf with
  | error e => rfl
  | ok before =>
    cases zs.mapM propositionsOf with
    | error e => rfl
    | ok behind =>
      change ofSet (keepFirst compare (before ++ u.members :: behind).flatten) =
        ofSet (keepFirst compare (before ++ (ys.map (·.listed) ++ behind)).flatten)
      have hcollect : keepFirst compare (before.flatten ++ keepFirst compare (listed ys) ++
          behind.flatten) = keepFirst compare (before.flatten ++ listed ys ++ behind.flatten) :=
        keepFirst_append_keepFirst_append _ _ _
      rw [← hmembers, listed, List.flatMap_def] at hcollect
      simpa using congrArg ofSet hcollect

/-- **A text is the set of its propositions**, however nested. It is there exactly for one or more
expressions of the right kinds; it is the set of what they list; another order or repetition makes an
equal text; and among other expressions it stands for those that it was made of. -/
theorem set_of_propositions {k : Stock} {children : List Expression}
    (hbuilt : ∀ x ∈ children, x.Built k) :
    ((∃ t, ofExpressions children = .ok t) ↔
      children ≠ [] ∧ ∀ x ∈ children, x.kind ∈ constituents) ∧
    ∀ t, ofExpressions children = .ok t →
      t.IsSetOf children ∧
      (∀ children', (∀ x, x ∈ children' ↔ x ∈ children) →
        ∃ u, ofExpressions children' = .ok u ∧ (t == u) = true) ∧
      ∀ xs zs, ofExpressions (xs ++ .text t :: zs) = ofExpressions (xs ++ children ++ zs) :=
  ⟨exists_ofExpressions_iff hbuilt, fun _ ht => ⟨isSetOf_of_ofExpressions ht,
    fun _ hmem => ofExpressions_of_mem_iff ht hmem, ofExpressions_nested ht⟩⟩

end Text

namespace Sample

/-- A word with a literal and another word. -/
def remark : Text :=
  ⟨[.word (word (noun "a." 0) [.ofText "here"]), .word (word (noun "b." 1) [])]⟩

/-- The first word without its literal, behind a text that holds it with one. -/
def repeated : List Expression := [.text remark, .part (.word (word (noun "a." 0) []))]

theorem remark_built {k : Stock} (hterms : ∀ t ∈ dictionary.terms, k.term t)
    (hl : k.literal (.ofText "here")) : remark.Built k := by
  simp only [dictionary, List.forall_mem_cons] at hterms
  obtain ⟨ha, hb, -⟩ := hterms
  have hparts : ∀ p ∈ remark.members, p.toPart.Built k := by
    simp only [remark, List.forall_mem_cons]
    exact ⟨word_built ha (by simpa using hl), word_built hb (by simp), by simp⟩
  exact .ofPropositions hparts rfl

end Sample

theorem Text.set_of_propositions_repeated :
    (∀ x ∈ Sample.repeated, x.Built Sample.dictionary.stock) ∧
      Sample.remark.IsSetOf Sample.repeated ∧
      ofExpressions (Sample.repeated ++ [.text Sample.remark]) =
        ofExpressions (Sample.repeated ++ Sample.repeated) := by
  have hbuilt : ∀ x ∈ Sample.repeated, x.Built Sample.dictionary.stock := by
    simp only [Sample.repeated, List.forall_mem_cons]
    exact ⟨.text (Sample.remark_built (fun _ h => h) trivial),
      .part (Sample.word_built List.mem_cons_self nofun), nofun⟩
  obtain ⟨hset, -, hnested⟩ := (set_of_propositions hbuilt).2 Sample.remark rfl
  exact ⟨hbuilt, hset, by simpa using hnested Sample.repeated []⟩

end Metalanguage
