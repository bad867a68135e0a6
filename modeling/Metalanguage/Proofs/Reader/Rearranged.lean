import Metalanguage.Proofs.Expression.Indistinct
import Metalanguage.Proofs.Grammar.Unambiguous
import Metalanguage.Proofs.Reader.HypertextLiterals
import Metalanguage.Proofs.Reader.Level

/-!
# Proofs/Reader/Rearranged — expressions are canonical on every level

A text may be rearranged wherever it lists what has no order: the terms of a morpheme and the clauses
of a sentence come in any order, and the members of a text, the source texts of a hypertext, their
members and the links of these come in any order and as often as they may, on all levels at once.
Where the text is read, so is the rearranged one, as an equal expression with the same canonical form
(`Reader.parse_rearranged`).
-/

namespace Metalanguage

open List (Forall₂)

/-! ## Source texts in any order -/

namespace Productions

/-- Members in any order are those of a source text, as long as one of them has a link. -/
theorem exists_blockMembers_eq {members : List member.Derivation}
    (h : ∃ anchored, withLinks anchored ∈ members) : ∃ t, blockMembers t = members := by
  suffices hlisted : ∃ plain anchored more, listed plain anchored more = members by
    obtain ⟨plain, anchored, more, rfl⟩ := hlisted
    exact ⟨((), (plain, anchored, more), ()), rfl⟩
  obtain ⟨anchored, hmem⟩ := h
  induction members with
  | nil => cases hmem
  | cons m members ih =>
    cases m with
    | inl first => exact ⟨[], first, members, rfl⟩
    | inr first =>
      obtain hfirst | hmem := List.mem_cons.1 hmem
      · cases hfirst
      · obtain ⟨plain, anchored, more, rfl⟩ := ih hmem
        exact ⟨first :: plain, anchored, more, rfl⟩

/-- **The members of a source text may be put in any order.** -/
theorem exists_rel_of_perm (t : hypertextBlock.Derivation) (members : List member.Derivation)
    (h : (blockMembers t).Perm members) :
    ∃ u, blockMembers u = members ∧ (hypertextBlockChange (v := .order)).rel t u := by
  have hanchored : withLinks t.2.1.2.1 ∈ blockMembers t :=
    List.mem_append_right _ List.mem_cons_self
  obtain ⟨u, hu⟩ := exists_blockMembers_eq ⟨_, h.mem_iff.1 hanchored⟩
  have hself : ∀ m, (memberChange (v := .order)).rel m m := fun _ => Change.of_bare _ rfl
  refine ⟨u, hu, fun m hm => ⟨m, hu ▸ h.mem_iff.1 hm, hself m⟩, fun m hm => ⟨m, ?_, hself m⟩⟩
  exact h.mem_iff.2 (hu ▸ hm)

end Productions

namespace Reader

/-- **Expressions are canonical on every level.** A text that is read has a derivation. Whatever is
generated by a rearranged one is read too, if it is not too long, as an equal expression. No order
of the members of a source text is left out, although the grammar reads those before the first link
apart. -/
theorem parse_rearranged {r : Reader} {source input : String} {x : Expression}
    (hx : r.parse source input = .ok x) :
    (∃ t, Generates t input.toList) ∧
      (∀ (t : Productions.hypertextBlock.Derivation) (members : List Productions.member.Derivation),
        (Productions.blockMembers t).Perm members → ∃ u, Productions.blockMembers u = members ∧
          (Productions.hypertextBlockChange (v := .order)).rel t u) ∧
      ∀ (t u : Productions.expression.Derivation) (input' : String) (maxBytes : ℕ),
        Generates t input.toList → Related .order t u → Generates u input'.toList →
          input'.utf8ByteSize ≤ maxBytes →
            ∃ y, parse ⟨r.dictionary, ⟨r.limits.maxNodes, maxBytes⟩⟩ source input' = .ok y ∧
              (x == y) = true ∧ x.canonical = y.canonical := by
  obtain ⟨hbytes, hgenerated⟩ := exists_generates_of_parse hx
  refine ⟨hgenerated, Productions.exists_rel_of_perm, fun t u input' maxBytes ht htu hu hbytes' => ?_⟩
  let r' : Reader := ⟨r.dictionary, ⟨r.limits.maxNodes, maxBytes⟩⟩
  let k : Lockstep .order _ (r.context source input) (r'.context source input') :=
    .level .order rfl rfl rfl
  obtain ⟨y, hy, hlevel⟩ := (outcome_parse k ht hu htu hbytes hbytes').exists_ok hx
  exact ⟨y, hy, Expression.beq_of_compare hlevel, Expression.canonical_congr hlevel⟩

end Reader

/-! ## A sample -/

namespace Sample

open Productions

/-- A term of one letter. -/
def letter (c : Char) (h : Script.isScriptChar c = true) : term.Derivation :=
  ((), ⟨[c, '.'], List.cons_ne_nil _ _,
    List.forall_mem_cons.2 ⟨h, List.forall_mem_singleton.2 rfl⟩⟩, ())

/-- A member of a text: a word of some terms, without mode. -/
def wordMember (first : term.Derivation) (more : List term.Derivation) :
    (Grammar.between '/' '/' proposition).Derivation :=
  ((), .inr (.inr (((), (((), Change.joined '|' first more, ()), .inr ()), ()), [])), ())

/-- A text of such members. -/
def wordsText (first : (Grammar.between '/' '/' proposition).Derivation)
    (more : List (Grammar.between '/' '/' proposition).Derivation) : expression.Derivation :=
  ((), .inr (.inl ((), (first, more), ())), ())

/-- A text of two words. -/
def words : expression.Derivation :=
  wordsText (wordMember (letter 'a' rfl) [letter 'b' rfl]) [wordMember (letter 's' rfl) []]

/-- The same words the other way round, one of them twice, and the terms of the other one too. -/
def rearrangedWords : expression.Derivation :=
  wordsText (wordMember (letter 's' rfl) [])
    [wordMember (letter 'b' rfl) [letter 'a' rfl], wordMember (letter 's' rfl) []]

/-- Words of the same terms in any order are related. -/
theorem wordMember_rel {first first' : term.Derivation} {more more' : List term.Derivation}
    (h : (first :: more).Perm (first' :: more')) :
    (Change.between '/' '/' (propositionChange (v := .order))).rel (wordMember first more)
      (wordMember first' more') := by
  have hself : ∀ t, (termChange (v := .order)).rel t t := fun _ => Change.of_bare _ rfl
  refine .inr (.inr ⟨⟨⟨first :: more, ?_, ?_⟩, .inr trivial⟩, .inr rfl⟩)
  · exact Change.entries_joined '|' first more ▸ List.forall₂_same.2 fun t _ => hself t
  · exact h.trans (.of_eq (Change.entries_joined '|' first' more').symm)

theorem words_rearranged : Related .order words rearrangedWords := by
  have hwords := wordMember_rel (List.Perm.swap (letter 'b' rfl) (letter 'a' rfl) [])
  have hword := wordMember_rel (List.Perm.refl [letter 's' rfl])
  refine .inr (.inl ⟨List.forall_mem_cons.2 ⟨⟨_, ?second, hwords⟩, ?_⟩, ?_⟩)
  case second => exact List.mem_cons_of_mem _ List.mem_cons_self
  · exact List.forall_mem_singleton.2 ⟨_, List.mem_cons_self, hword⟩
  · have hback := List.mem_cons_of_mem (wordMember (letter 'a' rfl) [letter 'b' rfl])
      (List.mem_cons_self (a := wordMember (letter 's' rfl) []) (l := []))
    exact List.forall_mem_cons.2 ⟨⟨_, hback, hword⟩, List.forall_mem_cons.2
      ⟨⟨_, List.mem_cons_self, hwords⟩, List.forall_mem_singleton.2 ⟨_, hback, hword⟩⟩⟩

end Sample

namespace Reader

/-- The words of a text, and the terms of one of them, may come in another order. -/
theorem parse_rearranged_words : ∃ x y,
    Sample.reader.parse "sample" "{/[([a.]|[b.])]//[([s.])]/}" = .ok x ∧
      Sample.reader.parse "sample" "{/[([s.])]//[([b.]|[a.])]//[([s.])]/}" = .ok y ∧
        (x == y) = true ∧ x.canonical = y.canonical := by
  obtain ⟨x, hx⟩ : ∃ x, Sample.reader.parse "sample" "{/[([a.]|[b.])]//[([s.])]/}" = .ok x :=
    ⟨_, rfl⟩
  obtain ⟨y, hy⟩ := (parse_rearranged hx).2.2 Sample.words Sample.rearrangedWords
    "{/[([s.])]//[([b.]|[a.])]//[([s.])]/}" 200 (Spaced.flatten _) Sample.words_rearranged
    (Spaced.flatten _) (by decide)
  exact ⟨x, y, hx, hy⟩

end Reader

end Metalanguage
