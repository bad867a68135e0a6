import Metalanguage.Proofs.Expression.Exchange
import Metalanguage.Proofs.Expression.Linked

/-!
# Proofs/Expression/Exchanged — builders on exchanged terms

An exchange of terms commutes with every builder: for exchanged arguments it answers with the same
error, or builds the expression with its terms exchanged. So what is built of one stock is built of
another one when its terms are exchanged for terms of that (`Exchange.built`).
-/

namespace Metalanguage

open Std Ordered

/-! ## Nodes -/

section Nodes

variable {N : Type} [ClauseNode N] [LawfulNode N] {f : N → N} (hf : Faithful f)

include hf

/-- Nodes that are level have one canonical form, so an exchange leaves it alone. -/
theorem Faithful.canonical (n : N) : ClauseNode.canonical (f n) = ClauseNode.canonical n :=
  LawfulNode.canonical_congr (hf.level n)

/-- A clause is refused if its substance and attribute are alike in canonical form, which they stay.
-/
theorem Clause.of_map (substance attr mode : N) :
    Clause.of (f substance) (f attr) (f mode) = (Clause.of substance attr mode).map (map f) := by
  rw [of, of, hf.canonical, hf.canonical]
  split <;> rfl

/-- **A refusal does not show the exchange**: it names nodes by their canonical forms, which are
kept. -/
theorem Sentence.refusal_map (e : TreeRefusal N) : refusal (e.map f) = refusal e := by
  have hcanonical : ClauseNode.canonical ∘ f = ClauseNode.canonical := funext hf.canonical
  rcases e with (_ | _ | _ | _ | _) | _ <;>
    simp [refusal, TreeRefusal.map, TreeDefect.map, hcanonical, hf.canonical]

/-- **Sentences are built alike.** The tree is built on edges in which nodes and payloads are
exchanged, and that is the tree with both exchanged. -/
theorem Sentence.ofClauses_map (limit : ℕ) (clauses : List (Clause N)) :
    ofClauses limit (clauses.map (Clause.map f)) = (ofClauses limit clauses).map (map f) := by
  have hedges : (clauses.map (Clause.map f)).map edgeOf =
      (clauses.map edgeOf).map (Edge.map f (Clause.map f)) := by
    rw [List.map_map, List.map_map]
    rfl
  rw [ofClauses_eq, hedges, TreeGraph.ofEdges_map (compare_map_of_level hf.level)
    (compare_map_of_level (Clause.compare_map hf)), ofClauses_eq]
  cases TreeGraph.ofEdges limit (clauses.map edgeOf) with
  | error e => exact congrArg Except.error (refusal_map hf e)
  | ok graph => rfl

end Nodes

namespace Exchange

variable {φ : Term → Term} (hφ : Exchange φ)

include hφ

/-! ## Morphemes and texts -/

/-- Terms are sorted alike, and the same neighbours are equal; the term that comes twice is named by
its script. -/
theorem ofTerms (terms : List Term) :
    Morpheme.ofTerms (terms.map φ) = (Morpheme.ofTerms terms).map (·.mapTerms φ) := by
  have hbeq : ∀ t u : Term, (φ t == φ u) = (t == u) := fun t u => by
    rw [Bool.eq_iff_iff, Term.beq_iff, Term.beq_iff, compare_map_of_level hφ.term]
  rw [Morpheme.ofTerms, sort_map (compare_map_of_level hφ.term), Morpheme.ofTerms]
  cases sort compare terms with
  | nil => rfl
  | cons t sorted =>
    simp only [List.map_cons]
    rw [← List.map_cons, neighbours?_map]
    simp only [hbeq]
    cases neighbours? (· == ·) (t :: sorted) with
    | none => rfl
    | some pair =>
      simp only [Option.map_some, Term.canonical_congr (hφ.term pair.1)]
      rfl

omit hφ in
theorem ofSet (φ : Term → Term) (members : List Proposition) :
    Text.ofSet (members.map (·.mapTerms φ)) = (Text.ofSet members).map (·.mapTerms φ) := by
  cases members <;> rfl

/-- A text keeps the first of equal members. Which these are is settled by the order, which is kept
... -/
theorem gather (members : List Proposition) :
    Text.gather (members.map (·.mapTerms φ)) = (Text.gather members).map (·.mapTerms φ) := by
  rw [Text.gather, keepFirst_map (compare_map_of_level hφ.proposition), ofSet, Text.gather]

/-- ... and so are the last of equal members. -/
theorem ofPropositions (members : List Proposition) :
    Text.ofPropositions (members.map (·.mapTerms φ)) =
      (Text.ofPropositions members).map (·.mapTerms φ) := by
  rw [Text.ofPropositions, keepLast_map (compare_map_of_level hφ.proposition), ofSet,
    Text.ofPropositions]

omit hφ in
/-- Whether a part can be a member is a matter of its form. -/
theorem ofPart? (φ : Term → Term) (p : Part) :
    Proposition.ofPart? (p.mapTerms φ) = (Proposition.ofPart? p).map (·.mapTerms φ) := by
  cases p <;> rfl

omit hφ in
/-- What is not a proposition, and no text of them, is refused by its kind. -/
theorem propositionsOf (φ : Term → Term) (x : Expression) : Text.propositionsOf (x.mapTerms φ) =
    (List.map (·.mapTerms φ)) <$> Text.propositionsOf x := by
  cases x with
  | text t => rfl
  | hypertext h => rfl
  | part p =>
    simp only [Expression.mapTerms, Text.propositionsOf, ofPart?, Part.kind_mapTerms]
    cases Proposition.ofPart? p <;> rfl

/-- **Texts are built alike**, flattened texts among their members. -/
theorem ofExpressions (children : List Expression) :
    Text.ofExpressions (children.map (·.mapTerms φ)) =
      (Text.ofExpressions children).map (·.mapTerms φ) := by
  rw [Text.ofExpressions, mapM_map_of_comm (propositionsOf φ), Text.ofExpressions]
  cases children.mapM Text.propositionsOf with
  | error e => rfl
  | ok members =>
    change Text.gather (members.map (List.map _)).flatten = (Text.gather members.flatten).map _
    rw [← List.map_flatten, hφ.gather]

/-! ## Paths and links -/

/-- Whether one expression is a child of another is a matter of their order, so it is so before and
after. -/
theorem hasChild (x y : Expression) : (x.mapTerms φ).hasChild (y.mapTerms φ) = x.hasChild y :=
  Bool.eq_iff_iff.2 ⟨Expression.hasChild_congr (hφ.expression x) (hφ.expression y),
    Expression.hasChild_congr (OrientedCmp.eq_symm (hφ.expression x))
      (OrientedCmp.eq_symm (hφ.expression y))⟩

/-- **Paths are built alike**: the same step is the first one that is no child of the step before,
and it is named by its written form. -/
theorem ofSteps (steps : List Expression) :
    Path.ofSteps (steps.map (·.mapTerms φ)) = (Path.ofSteps steps).map (·.mapTerms φ) := by
  cases steps with
  | nil => rfl
  | cons first rest =>
    simp only [List.map_cons, Path.ofSteps]
    rw [← List.map_cons, neighbours?_map]
    simp only [hφ.hasChild]
    cases neighbours? (fun x y => !x.hasChild y) (first :: rest) with
    | none => rfl
    | some pair =>
      simp only [Option.map_some, hφ.expression_display]
      rfl

omit hφ in
/-- Whether a path starts on a proposition and goes on over parts is a matter of form, and so is the
place that it leads to. -/
theorem anchor? (φ : Term → Term) (path : Path) :
    (path.mapTerms φ).anchor? = path.anchor?.map (·.mapTerms φ) := by
  obtain ⟨first, rest⟩ := path
  cases first with
  | text t => rfl
  | hypertext h => rfl
  | part p =>
    simp only [Path.anchor?, Path.mapTerms, Expression.mapTerms, ofPart?]
    cases Proposition.ofPart? p with
    | none => rfl
    | some member =>
      simp only [Option.map_some, Option.bind_eq_bind, Option.bind_some]
      have hplace (descent : Option (List Part)) :
          ((List.map (Part.mapTerms φ) <$> descent).bind fun steps =>
              some (Anchor.mk (member.mapTerms φ) steps)) =
            (descent.bind fun steps => some (Anchor.mk member steps)).map (·.mapTerms φ) := by
        cases descent <;> rfl
      refine .trans (congrArg (Option.bind · _) ?_) (hplace _)
      exact mapM_map_of_comm (fun x => by cases x <;> rfl) rest

/-- **Links are built alike**: a path starts in the source or does not, before and after. -/
theorem along (source target : Text) (path : Path) :
    Hyperlink.along (source.mapTerms φ) (target.mapTerms φ) (path.mapTerms φ) =
      (Hyperlink.along source target path).map (·.mapTerms φ) := by
  have hreach : (path.mapTerms φ).isReachableIn (source.mapTerms φ) = path.isReachableIn source :=
    hφ.hasChild (.text source) path.first
  rw [Hyperlink.along, hreach, anchor?, Path.canonical_congr (hφ.path path), hφ.text_display,
    Hyperlink.along]
  cases path.isReachableIn source <;> cases path.anchor? <;> rfl

theorem ofLinks (links : List Hyperlink) :
    Hypertext.ofLinks (links.map (·.mapTerms φ)) = (Hypertext.ofLinks links).map (·.mapTerms φ) := by
  rw [Hypertext.ofLinks, keepLast_map (compare_map_of_level hφ.hyperlink), Hypertext.ofLinks]
  cases keepLast compare links <;> rfl

/-- An added link goes to the same place among the links, or an equal one that is there keeps it
out. -/
theorem addLink (h : Hypertext) (l : Hyperlink) :
    (h.mapTerms φ).addLink (l.mapTerms φ) = (h.addLink l).mapTerms φ :=
  congrArg Hypertext.mk (insertNew_map (compare_map_of_level hφ.hyperlink) l h.links)

end Exchange

/-! ## What is built of exchanged terms -/

/-- Each term of one stock is exchanged for a term of another one, which has the literals too. -/
structure Stock.Into (φ : Term → Term) (k k' : Stock) : Prop where
  term : ∀ {t}, k.term t → k'.term (φ t)
  literal : ∀ {l}, k.literal l → k'.literal l

section Built

variable {φ : Term → Term} {k k' : Stock} (hφ : Exchange φ) (hk : k.Into φ k')

include hφ hk

theorem Morpheme.Built.mapTerms {m : Morpheme} (h : m.Built k) : (m.mapTerms φ).Built k' := by
  obtain ⟨terms, hterms, hm⟩ := h
  refine ⟨terms.map φ, List.forall_mem_map.2 fun t ht => hk.term (hterms t ht), ?_⟩
  rw [hφ.ofTerms, hm]
  rfl

/-- Each morpheme of a word is built of the other stock, and its literals are in that. -/
theorem Word.Built.mapTerms {w : Word} (h : w.Built k) : (w.mapTerms φ).Built k' where
  morphemes := by
    have hmorphemes : (w.mapTerms φ).morphemes = w.morphemes.map (·.mapTerms φ) := by
      obtain ⟨substance, mode, literals⟩ := w
      cases mode <;> rfl
    rw [hmorphemes]
    exact List.forall_mem_map.2 fun m hm => (h.morphemes m hm).mapTerms hφ hk
  literals l hl := hk.literal (h.literals l hl)

section Nodes

omit hφ

variable {N : Type} [ClauseNode N] [LawfulNode N] {f : N → N} {node node' : N → Prop}
  (hf : Faithful f) (hnode : ∀ {n}, node n → node' (f n))

include hf hnode

omit hk in
/-- A clause over nodes that are built of the other stock is built of it. -/
theorem Clause.Built.map {c : Clause N} (h : c.Built node) : (c.map f).Built node' where
  nodes := List.forall_mem_map.2 fun n hn => hnode (h.nodes n hn)
  of_eq := by
    change Clause.of (f c.substance) (f c.attr) (f c.mode) = _
    rw [Clause.of_map hf, h.of_eq]
    rfl

/-- **A sentence is built again** of its exchanged clauses under the limit it was built under, and
the tree comes out exchanged. -/
theorem Sentence.Built.map {s : Sentence N} (h : s.Built k node) :
    (s.map f).Built k' node' where
  exists_clauses := by
    obtain ⟨limit, clauses, hclauses, hs⟩ := h.exists_clauses
    refine ⟨limit, clauses.map (Clause.map f),
      List.forall_mem_map.2 fun c hc => (hclauses c hc).map hf hnode, ?_⟩
    rw [ofClauses_map hf]
    cases ht : ofClauses limit clauses with
    | error e => rw [ht] at hs; cases hs
    | ok t =>
      rw [ht] at hs
      exact congrArg (Except.map (Sentence.map f)) hs
  literals l hl := hk.literal (h.literals l hl)

end Nodes

theorem Sentence.Built.mapTerms {s : Sentence Word} (h : s.Built k (Word.Built k)) :
    (s.map (Word.mapTerms φ)).Built k' (Word.Built k') :=
  h.map hk hφ.word fun hw => hw.mapTerms hφ hk

/-- A part of any kind is built of the other stock: one case for each level. -/
theorem Part.Built.mapTerms {p : Part} (h : p.Built k) : (p.mapTerms φ).Built k' := by
  cases p with
  | term t => exact hk.term h
  | morpheme m => exact Morpheme.Built.mapTerms hφ hk h
  | word w => exact Word.Built.mapTerms hφ hk h
  | clause c => exact Clause.Built.map hφ.word (fun hw => hw.mapTerms hφ hk) h
  | sentence s => exact Sentence.Built.mapTerms hφ hk h
  | superClause c => exact Clause.Built.map hφ.sentence (fun hs => hs.mapTerms hφ hk) h
  | superSentence s => exact Sentence.Built.map hk hφ.sentence (fun hs => hs.mapTerms hφ hk) h

/-- A text is built again by the builder that it was built by; the texts it was flattened from come
first. -/
theorem Text.Built.mapTerms {t : Text} (h : t.Built k) : (t.mapTerms φ).Built k' := by
  induction h with
  | ofExpressions parts _ h ih =>
    refine .ofExpressions ?_ ?_ ((hφ.ofExpressions _).trans (congrArg (Except.map _) h))
    · intro p hp
      obtain ⟨x, hx, heq⟩ := List.mem_map.1 hp
      cases x <;> cases heq
      exact (parts _ hx).mapTerms hφ hk
    · intro u hu
      obtain ⟨x, hx, heq⟩ := List.mem_map.1 hu
      cases x <;> cases heq
      exact ih _ hx
  | ofPropositions parts h =>
    refine .ofPropositions ?_ ((hφ.ofPropositions _).trans (congrArg (Except.map _) h))
    refine List.forall_mem_map.2 fun p hp => ?_
    rw [p.toPart_mapTerms]
    exact (parts p hp).mapTerms hφ hk

end Built

section Links

variable {φ : Term → Term} {k k' : Stock}

mutual

/-- A path is built again of its steps, each of which is any expression ... -/
theorem Path.Built.mapTerms (hφ : Exchange φ) (hk : k.Into φ k') :
    ∀ {p : Path}, p.Built k → (p.mapTerms φ).Built k'
  | _, .ofSteps built h =>
    .ofSteps (List.forall_mem_map.2 fun x hx => (built x hx).mapTerms hφ hk)
      ((hφ.ofSteps _).trans (congrArg (Except.map _) h))

/-- ... a link of its ends and its path ... -/
theorem Hyperlink.Built.mapTerms (hφ : Exchange φ) (hk : k.Into φ k') :
    ∀ {l : Hyperlink}, l.Built k → (l.mapTerms φ).Built k'
  | _, .along source target path h =>
    .along (source.mapTerms hφ hk) (target.mapTerms hφ hk) (path.mapTerms hφ hk)
      ((hφ.along _ _ _).trans (congrArg (Except.map _) h))

/-- ... and a hypertext of its links, or of the hypertext that one link was added to. -/
theorem Hypertext.Built.mapTerms (hφ : Exchange φ) (hk : k.Into φ k') :
    ∀ {h : Hypertext}, h.Built k → (h.mapTerms φ).Built k'
  | _, .ofLinks built h =>
    .ofLinks (List.forall_mem_map.2 fun l hl => (built l hl).mapTerms hφ hk)
      ((hφ.ofLinks _).trans (congrArg (Except.map _) h))
  | _, .addLink hypertext link => by
    rw [← hφ.addLink]
    exact .addLink (hypertext.mapTerms hφ hk) (link.mapTerms hφ hk)

/-- **What is built of one stock is built of another** when its terms are exchanged for terms of
that. -/
theorem Expression.Built.mapTerms (hφ : Exchange φ) (hk : k.Into φ k') :
    ∀ {x : Expression}, x.Built k → (x.mapTerms φ).Built k'
  | _, .part h => .part (h.mapTerms hφ hk)
  | _, .text h => .text (h.mapTerms hφ hk)
  | _, .hypertext h => .hypertext (h.mapTerms hφ hk)

end

end Links

end Metalanguage
