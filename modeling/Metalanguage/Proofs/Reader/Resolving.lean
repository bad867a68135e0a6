import Metalanguage.Proofs.Expression.Identity
import Metalanguage.Reader.Resolve

/-!
# Proofs/Reader/Resolving — a form is resolved to what it stands for

A form that stands for an expression over the terms of a dictionary is resolved by that dictionary,
to an expression that is level with the first one, and whose written form is the text that the form
was read from (`Matches`): literals come back exactly where they show. No builder refuses
what it is given a second time: terms and members come in order, clauses make the same tree in the
same order, and each step of a way is still a child of the step before.
-/

namespace Metalanguage

open List (Forall₂)
open Std Ordered

/-- Level, and written as the text of the first. -/
structure Matches {X : Type} [Ord X] (text display : X → String) (x y : X) : Prop where
  level : compare x y = .eq
  written : text x = display y

theorem alike_of_matches {X : Type} [Ord X] {text display : X → String} {l m : List X}
    (h : Forall₂ (Matches text display) l m) : Alike compare l m := h.imp fun _ _ hxy => hxy.level

/-- What cannot be told from related entries makes one list of both. -/
theorem map_eq_of_forall₂ {X Y : Type} {R : X → X → Prop} {f g : X → Y}
    (hf : ∀ {x y}, R x y → f x = g y) {l m : List X} (h : Forall₂ R l m) : l.map f = m.map g := by
  induction h with
  | nil => rfl
  | cons hxy _ ih => rw [List.map_cons, List.map_cons, hf hxy, ih]

variable {c : Context} {k : Stock} {s : Style}

/-! ## Words -/

/-- Terms that are in order and distinct make the morpheme that they make already. -/
theorem Morpheme.Built.ofTerms_eq {m : Morpheme} (hm : m.Built k) : ofTerms m.terms = .ok m := by
  obtain ⟨hne, hincreasing, -⟩ := hm.facts
  obtain ⟨terms, -, h⟩ := hm
  have hterms : m.terms = sort compare terms := by
    rw [ofTerms] at h
    split at h
    · cases h
    · split at h
      · cases h
      · cases h; rfl
  rw [← h, ofTerms, ofTerms, sort_of_sorted hincreasing.sorted, hterms]

/-- What a dictionary must hold to resolve forms over a stock of terms. -/
structure Context.Holds (c : Context) (k : Stock) : Prop where
  accepted : c.dictionary.Accepted
  term : ∀ {t}, k.term t → t ∈ c.dictionary.terms

variable (hc : c.Holds k)

include hc

/-- A dictionary finds its own terms. -/
theorem TermForm.StandsFor.resolve_eq {f : TermForm} {t : Term} (h : f.StandsFor t)
    (ht : k.term t) : f.resolve c = .ok t := by
  rw [TermForm.resolve, show f.script = t.script from h, hc.accepted.term?_eq (hc.term ht)]

/-- Terms in order are sorted into the order that they are in. -/
theorem MorphemeForm.StandsFor.resolve_eq {f : MorphemeForm} {m : Morpheme} (h : f.StandsFor m)
    (hm : m.Built k) : f.resolve c = .ok m := by
  obtain ⟨-, -, hterms⟩ := hm.facts
  obtain ⟨terms, hmap, heq⟩ := exists_mapM (Q := Eq) h fun ht hf =>
    ⟨_, TermForm.StandsFor.resolve_eq hc hf (hterms _ ht), rfl⟩
  obtain rfl : m.terms = terms := List.forall₂_eq_eq_eq ▸ heq
  rw [MorphemeForm.resolve, hmap]
  exact hm.ofTerms_eq

/-- A word is resolved exactly, but for literals that do not show. -/
theorem WordForm.StandsFor.resolve_eq {f : WordForm} {w : Word} (h : f.StandsFor s w)
    (hw : w.Built k) : f.resolve c = .ok (w.withLiterals (s.literals w.literals)) := by
  obtain ⟨substance, mode, literals⟩ := f
  obtain ⟨substance', mode', literals'⟩ := w
  obtain ⟨hsubstance, hmode, rfl⟩ := h
  have hfirst := hsubstance.resolve_eq hc (hw.morphemes _ List.mem_cons_self)
  rw [WordForm.resolve, hfirst]
  cases hmode with
  | none => rfl
  | @some mode m hm =>
    have hsecond := hm.resolve_eq hc (hw.morphemes m (by simp [Word.morphemes]))
    change (do return Word.mk substance' (some (← mode.resolve c)) _) = _
    rw [hsecond]
    rfl

/-- A word comes back with those literals that were written. -/
theorem WordForm.StandsFor.exists_resolve {f : WordForm} {w : Word} (h : f.StandsFor s w)
    (hw : w.Built k) : ∃ v, f.resolve c = .ok v ∧ Matches s.node Word.display w v := by
  refine ⟨_, h.resolve_eq hc hw, level_self compare (α := Word) w, ?_⟩
  cases s with
  | canonical => exact String.append_empty.symm
  | written => rfl

omit hc

/-! ## Clauses and sentences -/

section Nodes

variable {F N : Type} [ClauseNode N] [LawfulNode N] {node : N → Prop} {R : F → N → Prop}
  {resolve : F → Except Error N}

/-- A clause is resolved when its nodes are: they differ as before. -/
theorem ClauseForm.StandsFor.exists_resolve {f : ClauseForm F} {d : Clause N}
    (h : f.StandsFor R d) (hd : d.Built node)
    (hnode : ∀ {f n}, n ∈ d.nodes → R f n → ∃ n', resolve f = .ok n' ∧
      Matches s.node ClauseNode.display n n') :
    ∃ d', f.resolve resolve = .ok d' ∧
      Matches (fun d => s.choose d.canonical d.display) Clause.display d d' := by
  obtain ⟨substance, hsubstance, hmatch⟩ := hnode (by simp [Clause.nodes]) h.substance
  obtain ⟨attr, hattr, hmatch'⟩ := hnode (by simp [Clause.nodes]) h.attr
  obtain ⟨mode, hmode, hmatch''⟩ := hnode (by simp [Clause.nodes]) h.mode
  have hlevel : compare d ⟨substance, attr, mode⟩ = .eq :=
    Clause.compare_eq_iff.2 ⟨hmatch.level, hmatch'.level, hmatch''.level⟩
  refine ⟨⟨substance, attr, mode⟩, ?_, hlevel, ?_⟩
  · have hof := hd.of_eq
    rw [Clause.of] at hof
    split at hof
    · cases hof
    · next hdiffer =>
      rw [LawfulNode.canonical_congr hmatch.level, LawfulNode.canonical_congr hmatch'.level]
        at hdiffer
      rw [ClauseForm.resolve, hsubstance, hattr, hmode]
      exact if_neg hdiffer
  · have hnodes : d.nodes.map s.node = [substance, attr, mode].map ClauseNode.display :=
      map_eq_of_forall₂ Matches.written (.cons hmatch (.cons hmatch' (.cons hmatch'' .nil)))
    have htext : s.choose d.canonical d.display =
        "(" ++ "*".intercalate (d.nodes.map s.node) ++ ")" := by cases s <;> rfl
    rw [htext, hnodes]
    rfl

/-- **Clauses that are level with those of a sentence, in the same order**, make a sentence again,
and it has them in this order. -/
theorem Sentence.Built.exists_ofClauses {t : Sentence N} (ht : t.Built k node) {limit : ℕ}
    (hlimit : t.nodes.length ≤ limit) {clauses : List (Clause N)}
    (h : Alike compare t.clauses clauses) :
    ∃ t', Sentence.ofClauses limit clauses = .ok t' ∧ t'.clauses = clauses := by
  obtain ⟨limit', clauses', -, htree⟩ := ht.exists_tree
  have hsame := sameEdges (clauses_perm htree).symm h (.refl clauses)
  have hanswer := hsame.ofEdges_sameAnswer (payloadDecides clauses') limit
  rw [TreeGraph.ofEdges_of_size_le htree hlimit] at hanswer
  generalize hnew : TreeGraph.ofEdges limit (clauses.map edgeOf) = answer at hanswer
  cases hanswer with
  | @tree _ graph _ _ _ hpayloads =>
    refine ⟨⟨graph, []⟩, by rw [ofClauses_eq, hnew], ?_⟩
    refine TreeGraph.payloads_eq_of_alike hnew (payloadDecides clauses) (hpayloads.symm.trans h) ?_
    rw [List.map_map, show (fun e => e.payload) ∘ edgeOf = @id (Clause N) from rfl, List.map_id]
    exact fun _ hd => hd

/-- **A sentence comes back**: clauses that match make a tree of the same nodes, within the same
limit. -/
theorem SentenceForm.StandsFor.exists_resolve {f : SentenceForm F} {t : Sentence N}
    (h : f.StandsFor s R t) (ht : t.Built k node) {limit : ℕ} (hlimit : t.nodes.length ≤ limit)
    (hnode : ∀ {f d n}, d ∈ t.clauses → n ∈ d.nodes → R f n →
      ∃ n', resolve f = .ok n' ∧ Matches s.node ClauseNode.display n n') :
    ∃ t', f.resolve limit resolve = .ok t' ∧
      Matches (fun t => s.choose t.canonical t.display) Sentence.display t t' := by
  obtain ⟨clauses, hclauses, hmatches⟩ := exists_mapM h.clauses fun hd hf =>
    ClauseForm.StandsFor.exists_resolve hf (ht.clause hd) (hnode hd)
  obtain ⟨t', ht', heq⟩ := ht.exists_ofClauses hlimit (alike_of_matches hmatches)
  have hlevel : compare t (t'.withLiterals f.literals) = .eq :=
    Sentence.compare_eq_iff.2 (heq ▸ alike_of_matches hmatches)
  refine ⟨t'.withLiterals f.literals, ?_, hlevel, ?_⟩
  · rw [SentenceForm.resolve, hclauses]
    change (do let sentence ← Sentence.ofClauses limit clauses; _) = _
    rw [ht']
    rfl
  · have hdisplay : t.clauses.map (fun d => s.choose d.canonical d.display) =
        t'.clauses.map Clause.display := heq ▸ map_eq_of_forall₂ Matches.written hmatches
    have htext : s.choose t.canonical t.display =
        "[" ++ "+".intercalate (t.clauses.map fun d => s.choose d.canonical d.display) ++ "]" ++
          Literal.displayAll (s.literals t.literals) := by
      cases s with
      | canonical => exact String.append_empty.symm
      | written => rfl
    rw [htext, hdisplay, ← h.literals]
    rfl

end Nodes

/-! ## Limits on the sentences of a part -/

namespace Part

/-- A sentence has at most so many nodes. -/
def NodesWithin (n : ℕ) : Part → Prop
  | sentence t => t.nodes.length ≤ n
  | superSentence t => t.nodes.length ≤ n
  | _ => True

instance (n : ℕ) : (p : Part) → Decidable (p.NodesWithin n)
  | sentence t => inferInstanceAs (Decidable (t.nodes.length ≤ n))
  | superSentence t => inferInstanceAs (Decidable (t.nodes.length ≤ n))
  | term _ | morpheme _ | word _ | clause _ | superClause _ => .isTrue trivial

/-- **All sentences that a part is or holds**, at any depth, have at most so many nodes. -/
def SentencesWithin (n : ℕ) (p : Part) : Prop := ∀ q ∈ p :: p.descendants, q.NodesWithin n

instance (n : ℕ) (p : Part) : Decidable (p.SentencesWithin n) :=
  inferInstanceAs (Decidable (∀ q ∈ p :: p.descendants, q.NodesWithin n))

variable {n : ℕ}

/-- A limit on a part is one on the sentences in it. -/
theorem SentencesWithin.of_superClause {d : SuperClause} (h : (superClause d).SentencesWithin n) :
    ∀ t ∈ d.nodes, t.nodes.length ≤ n := fun t ht =>
  h (.sentence t) (List.mem_cons_of_mem _ (List.mem_flatMap.2 ⟨t, ht, List.mem_cons_self⟩))

theorem SentencesWithin.of_superSentence {u : SuperSentence}
    (h : (superSentence u).SentencesWithin n) :
    ∀ d ∈ u.clauses, ∀ t ∈ d.nodes, t.nodes.length ≤ n := by
  intro d hd t ht
  refine h (.sentence t) (List.mem_cons_of_mem _ (List.mem_flatMap.2 ⟨d, hd, ?_⟩))
  exact List.mem_cons_of_mem _ (List.mem_flatMap.2 ⟨t, ht, List.mem_cons_self⟩)

end Part

/-! ## Propositions, parts and texts -/

section Parts

include hc

theorem SentenceForm.StandsFor.exists_resolve_words {f : SentenceForm WordForm} {t : Sentence Word}
    (h : SentenceForm.OverWords s f t) (ht : t.Built k (Word.Built k))
    (hlimit : t.nodes.length ≤ c.maxNodes) :
    ∃ t', c.sentence f = .ok t' ∧ Matches s.node Sentence.display t t' :=
  h.exists_resolve ht hlimit fun hd hn hf => hf.exists_resolve hc ((ht.clause hd).nodes _ hn)

theorem PropositionForm.StandsFor.exists_resolve {f : PropositionForm} {p : Proposition}
    (h : f.StandsFor s p) (hp : p.toPart.Built k) (hlimit : p.toPart.SentencesWithin c.maxNodes) :
    ∃ q, f.resolve c = .ok q ∧ Matches s.part Part.display p.toPart q.toPart := by
  cases h with
  | word h =>
    obtain ⟨v, hv, hmatch⟩ := h.exists_resolve hc hp
    exact ⟨.word v, by rw [resolve, hv]; rfl, hmatch.level, hmatch.written⟩
  | sentence h =>
    obtain ⟨t, ht, hmatch⟩ := h.exists_resolve_words hc hp (hlimit _ List.mem_cons_self)
    exact ⟨.sentence t, by rw [resolve, ht]; rfl, hmatch.level, hmatch.written⟩
  | superSentence h =>
    have hnodes := hlimit.of_superSentence
    obtain ⟨t, ht, hmatch⟩ := SentenceForm.StandsFor.exists_resolve h hp
      (hlimit _ List.mem_cons_self) fun hd hn hf =>
        SentenceForm.StandsFor.exists_resolve_words hc hf
          ((Sentence.Built.clause hp hd).nodes _ hn) (hnodes _ hd _ hn)
    exact ⟨.superSentence t, by rw [resolve, Context.superSentence, ht]; rfl, hmatch.level,
      hmatch.written⟩

theorem PartForm.StandsFor.exists_resolve {f : PartForm} {p : Part} (h : f.StandsFor s p)
    (hp : p.Built k) (hlimit : p.SentencesWithin c.maxNodes) :
    ∃ q, f.resolve c = .ok q ∧ Matches s.part Part.display p q := by
  cases h with
  | term h =>
    refine ⟨_, ?_, level_self compare _, by cases s <;> rfl⟩
    rw [resolve, h.resolve_eq hc hp]
    rfl
  | morpheme h =>
    refine ⟨_, ?_, level_self compare _, by cases s <;> rfl⟩
    rw [resolve, h.resolve_eq hc hp]
    rfl
  | clause h =>
    obtain ⟨d, hd, hmatch⟩ := h.exists_resolve hp fun hn hf =>
      hf.exists_resolve hc (Clause.Built.nodes hp _ hn)
    exact ⟨.clause d, by rw [resolve, Context.clause, hd]; rfl, hmatch.level, hmatch.written⟩
  | superClause h =>
    have hnodes := hlimit.of_superClause
    obtain ⟨d, hd, hmatch⟩ := h.exists_resolve hp fun hn hf =>
      SentenceForm.StandsFor.exists_resolve_words hc hf (Clause.Built.nodes hp _ hn) (hnodes _ hn)
    exact ⟨.superClause d, by rw [resolve, Context.superClause, hd]; rfl, hmatch.level,
      hmatch.written⟩
  | proposition h heq =>
    subst heq
    obtain ⟨q, hq, hmatch⟩ := h.exists_resolve hc hp hlimit
    exact ⟨q.toPart, by rw [resolve, hq]; rfl, hmatch⟩

omit hc in
/-- What is level with the members of a text, in their order, makes a text again. -/
theorem Text.Facts.gather_eq {t : Text} (ht : t.Facts k) {members : List Proposition}
    (h : Alike compare t.members members) : Text.gather members = .ok ⟨members⟩ := by
  refine Text.ofSet_eq_ok_iff.2 ⟨fun hnil => ht.ne_nil ?_, ?_⟩
  · rw [(ht.increasing.of_alike h).keepFirst_eq] at hnil
    rw [hnil] at h
    exact List.forall₂_nil_right_iff.1 h
  · exact (ht.increasing.of_alike h).keepFirst_eq.symm

/-- **A text comes back**: its members match, and so they are in order again. -/
theorem TextForm.StandsFor.exists_resolve {f : TextForm} {t : Text} (h : f.StandsFor s t)
    (ht : t.Facts k) (hlimit : ∀ p ∈ t.members, p.toPart.SentencesWithin c.maxNodes) :
    ∃ u, f.resolve c = .ok u ∧
      Matches (fun t => s.choose t.canonical t.display) Text.display t u := by
  obtain ⟨members, hmembers, hmatches⟩ := exists_mapM
    (Q := fun p q : Proposition => Matches s.part Part.display p.toPart q.toPart) h fun hp hf =>
      PropositionForm.StandsFor.exists_resolve hc hf (ht.built _ hp) (hlimit _ hp)
  have halike : Alike compare t.members members := hmatches.imp fun _ _ hpq =>
    Proposition.compare_eq_of_toPart hpq.level
  have hlevel : compare t ⟨members⟩ = .eq := Text.compare_eq_iff.2 halike
  refine ⟨⟨members⟩, ?_, hlevel, ?_⟩
  · rw [TextForm.resolve, hmembers]
    exact ht.gather_eq halike
  · have hdisplay : t.members.map (fun p => s.part p.toPart) = members.map Proposition.display :=
      map_eq_of_forall₂ (fun hpq => hpq.written) hmatches
    have htext : s.choose t.canonical t.display =
        Text.enclose (t.members.map fun p => s.part p.toPart) := by cases s <;> rfl
    rw [htext, hdisplay]
    rfl

end Parts

end Metalanguage
