import Metalanguage.Expression.Path
import Metalanguage.Proofs.Dictionary.Accepted
import Metalanguage.Proofs.TreeGraph.CanonicalOrder
import Metalanguage.Proofs.TreeGraph.Verdict

/-!
# Proofs/Expression/Built — what the builders build

`Built` says at each level that an expression comes out of the builders, from a stock of terms and
literals. What the builders promise below texts is read off once: the terms of a morpheme are at
least one and strictly increasing (`Morpheme.Built.facts`), the clauses of a sentence are those that
it was built from and make its tree (`Sentence.Built.exists_tree`, `Sentence.clauses_perm`).
-/

namespace Metalanguage

open Std Ordered

/-- What expressions are built from. -/
structure Stock where
  term : Term → Prop
  literal : Literal → Prop

/-- The terms of a dictionary, with any literals. -/
def Dictionary.stock (d : Dictionary) : Stock := ⟨(· ∈ d.terms), fun _ => True⟩

/-! ## Levels below texts -/

/-- A morpheme of some terms of the stock. -/
def Morpheme.Built (k : Stock) (m : Morpheme) : Prop :=
  ∃ terms, (∀ t ∈ terms, k.term t) ∧ ofTerms terms = .ok m

/-- A word of such morphemes, with literals of the stock. -/
structure Word.Built (k : Stock) (w : Word) : Prop where
  morphemes : ∀ m ∈ w.morphemes, m.Built k
  literals : ∀ l ∈ w.literals, k.literal l

section Nodes

variable {N : Type} [ClauseNode N]

/-- A clause of three nodes that are built. -/
structure Clause.Built (node : N → Prop) (c : Clause N) : Prop where
  nodes : ∀ n ∈ c.nodes, node n
  of_eq : Clause.of c.substance c.attr c.mode = .ok c

theorem Clause.eq_of_of {substance attr mode : N} {c : Clause N}
    (h : of substance attr mode = .ok c) : c = ⟨substance, attr, mode⟩ := by
  rw [of] at h
  split at h
  · cases h
  · cases h; rfl

/-- What the builder of clauses makes of three nodes that are built is a clause that is built. -/
theorem Clause.built_of_of {node : N → Prop} {substance attr mode : N} {c : Clause N}
    (hnodes : ∀ n ∈ [substance, attr, mode], node n) (h : of substance attr mode = .ok c) :
    c.Built node := by
  obtain rfl := eq_of_of h
  exact ⟨hnodes, h⟩

/-- A sentence of clauses that are built, under any limit, with literals of the stock. -/
structure Sentence.Built (k : Stock) (node : N → Prop) (s : Sentence N) : Prop where
  exists_clauses : ∃ limit clauses, (∀ c ∈ clauses, Clause.Built node c) ∧
    (ofClauses limit clauses).map (·.withLiterals s.literals) = .ok s
  literals : ∀ l ∈ s.literals, k.literal l

end Nodes

/-- A part of any level. -/
def Part.Built (k : Stock) : Part → Prop
  | term t => k.term t
  | morpheme m => m.Built k
  | word w => w.Built k
  | clause c => c.Built (Word.Built k)
  | sentence s => s.Built k (Word.Built k)
  | superClause c => c.Built (Sentence.Built k (Word.Built k))
  | superSentence s => s.Built k (Sentence.Built k (Word.Built k))

/-! ## Texts and links -/

/-- A text out of one of the two builders. -/
inductive Text.Built (k : Stock) : Text → Prop
  | ofExpressions {children : List Expression} {t : Text}
    (parts : ∀ p, .part p ∈ children → p.Built k) (texts : ∀ u, .text u ∈ children → u.Built k)
    (h : Text.ofExpressions children = .ok t) : Text.Built k t
  | ofPropositions {members : List Proposition} {t : Text}
    (parts : ∀ p ∈ members, p.toPart.Built k) (h : Text.ofPropositions members = .ok t) :
    Text.Built k t

mutual

/-- A path of steps that are built. -/
inductive Path.Built (k : Stock) : Path → Prop
  | ofSteps {steps : List Expression} {p : Path} (built : ∀ x ∈ steps, Expression.Built k x)
    (h : Path.ofSteps steps = .ok p) : Path.Built k p

/-- A link along such a path. -/
inductive Hyperlink.Built (k : Stock) : Hyperlink → Prop
  | along {source target : Text} {path : Path} {l : Hyperlink} (source_built : source.Built k)
    (target_built : target.Built k) (path_built : Path.Built k path)
    (h : Hyperlink.along source target path = .ok l) : Hyperlink.Built k l

/-- A hypertext of such links, to which links may be added. -/
inductive Hypertext.Built (k : Stock) : Hypertext → Prop
  | ofLinks {links : List Hyperlink} {h : Hypertext} (built : ∀ l ∈ links, Hyperlink.Built k l)
    (eq : Hypertext.ofLinks links = .ok h) : Hypertext.Built k h
  | addLink {h : Hypertext} {l : Hyperlink} (hypertext : Hypertext.Built k h)
    (link : Hyperlink.Built k l) : Hypertext.Built k (h.addLink l)

/-- **An expression of any kind that the builders build.** -/
inductive Expression.Built (k : Stock) : Expression → Prop
  | part {p : Part} (h : p.Built k) : Expression.Built k (.part p)
  | text {t : Text} (h : t.Built k) : Expression.Built k (.text t)
  | hypertext {h : Hypertext} (built : Hypertext.Built k h) : Expression.Built k (.hypertext h)

end

/-! ## What the builders promise -/

variable {k : Stock}

/-- **The terms of a morpheme**: at least one, in increasing order, all of the stock. -/
theorem Morpheme.Built.facts {m : Morpheme} (h : m.Built k) :
    m.terms ≠ [] ∧ Increasing compare m.terms ∧ ∀ t ∈ m.terms, k.term t := by
  obtain ⟨terms, hterms, hm⟩ := h
  have hmem : ∀ t ∈ sort compare terms, k.term t := fun t ht => hterms t (mem_sort.1 ht)
  have hsorted : Sorted compare (sort compare terms) := sorted_sort terms
  rw [ofTerms] at hm
  split at hm
  · cases hm
  · next hne =>
    split at hm
    · cases hm
    · next hchain =>
      cases hm
      refine ⟨hne, increasing_of_sorted hsorted ?_, hmem⟩
      exact (neighbours?_eq_none_iff.1 hchain).imp fun t u htu heq => by
        rw [Term.beq_iff.2 heq] at htu
        cases htu

/-- Sorting the terms of a morpheme loses none. -/
theorem Morpheme.terms_perm_of_ofTerms {terms : List Term} {m : Morpheme}
    (h : ofTerms terms = .ok m) : m.terms.Perm terms := by
  rw [ofTerms] at h
  split at h
  · cases h
  · split at h
    · cases h
    · cases h
      exact sort_perm compare terms

/-- Exactly terms that are the same are level. -/
def Stock.Unique (k : Stock) : Prop :=
  ∀ {t u : Term}, k.term t → k.term u → compare t u = .eq → t = u

theorem Dictionary.Accepted.unique {d : Dictionary} (h : d.Accepted) : d.stock.Unique :=
  h.eq_of_level

/-- Level morphemes are the same where level terms are. -/
theorem Morpheme.Built.eq_of_level (hk : k.Unique) {m n : Morpheme} (hm : m.Built k)
    (hn : n.Built k) (h : compare m n = .eq) : m = n := by
  obtain ⟨-, -, hm⟩ := hm.facts
  obtain ⟨-, -, hn⟩ := hn.facts
  have hterms := (Morpheme.alike_of_compare h).map_eq (f := id) fun t ht u hu =>
    hk (hm t ht) (hn u hu)
  cases m
  cases n
  simpa using hterms

/-- Level words are the same but for their literals. -/
theorem Word.Built.morphemes_eq (hk : k.Unique) {w v : Word} (hw : w.Built k) (hv : v.Built k)
    (h : compare w v = .eq) : w.morphemes = v.morphemes := by
  have hmap := (Word.morphemes_alike h).map_eq (f := id) fun m hm n hn =>
    (hw.morphemes m hm).eq_of_level hk (hv.morphemes n hn)
  simpa using hmap

/-! ## Sentences -/

section Nodes

variable {N : Type} [ClauseNode N] {node : N → Prop} {s t : Sentence N}

/-- **The builder makes a sentence of the tree of the clauses**, without literals. -/
theorem Sentence.ofClauses_eq_ok_iff {limit : ℕ} {clauses : List (Clause N)} :
    ofClauses limit clauses = .ok s ↔
      TreeGraph.ofEdges limit (clauses.map edgeOf) = .ok s.graph ∧ s.literals = [] := by
  obtain ⟨graph, literals⟩ := s
  rw [ofClauses_eq]
  cases TreeGraph.ofEdges limit (clauses.map edgeOf) with
  | error e => simp
  | ok g => simp [eq_comm]

/-- **What the builder makes of clauses is a sentence that is built**, and so it is with literals. -/
theorem Sentence.built_withLiterals {limit : ℕ} {clauses : List (Clause N)} {literals : List Literal}
    (hclauses : ∀ c ∈ clauses, c.Built node) (h : ofClauses limit clauses = .ok s)
    (hliterals : ∀ l ∈ literals, k.literal l) : (s.withLiterals literals).Built k node :=
  ⟨⟨limit, clauses, hclauses, by rw [h]; rfl⟩, hliterals⟩

theorem Sentence.built_of_ofClauses {limit : ℕ} {clauses : List (Clause N)}
    (hclauses : ∀ c ∈ clauses, c.Built node) (h : ofClauses limit clauses = .ok s) :
    s.Built k node := by
  have hbuilt : (s.withLiterals []).Built k node := built_withLiterals hclauses h nofun
  rwa [← (ofClauses_eq_ok_iff.1 h).2] at hbuilt

/-- The tree of a sentence is that of clauses that are built. -/
theorem Sentence.Built.exists_tree (h : s.Built k node) :
    ∃ (limit : ℕ) (clauses : List (Clause N)), (∀ c ∈ clauses, c.Built node) ∧
      TreeGraph.ofEdges limit (clauses.map edgeOf) = .ok s.graph := by
  obtain ⟨limit, clauses, hclauses, hs⟩ := h.exists_clauses
  refine ⟨limit, clauses, hclauses, ?_⟩
  cases hu : ofClauses limit clauses with
  | error e => rw [hu] at hs; cases hs
  | ok u =>
    rw [hu] at hs
    have hgraph : u.graph = s.graph := congrArg (·.graph) (Except.ok.inj hs)
    exact hgraph ▸ (ofClauses_eq_ok_iff.1 hu).1

namespace Sentence

variable [LawfulNode N]

omit [LawfulNode N] in
/-- Level clauses have level substances and attributes. -/
theorem payloadDecides (clauses : List (Clause N)) :
    TreeGraph.PayloadDecides (clauses.map edgeOf) := by
  intro e he d hd h
  obtain ⟨c, -, rfl⟩ := List.mem_map.1 he
  obtain ⟨c', -, rfl⟩ := List.mem_map.1 hd
  obtain ⟨hsubstance, hattr, -⟩ := Clause.compare_eq_iff.1 h
  exact ⟨hsubstance, hattr⟩

omit [LawfulNode N] in
/-- Clauses that are alike, each list in some order, have the same edges. -/
theorem sameEdges {clauses listed listed' clauses' : List (Clause N)} (h : clauses.Perm listed)
    (halike : Alike compare listed listed') (h' : listed'.Perm clauses') :
    TreeGraph.SameEdges (clauses.map edgeOf) (clauses'.map edgeOf) := by
  obtain ⟨m, hm, hperm⟩ := List.perm_comp_forall₂ h halike
  refine ⟨m.map edgeOf, List.rel_map (fun c d hcd => ?_) hm, (hperm.trans h').map _⟩
  obtain ⟨hsubstance, hattr, -⟩ := Clause.compare_eq_iff.1 hcd
  exact ⟨hsubstance, hattr, hcd⟩

/-- **A sentence has the clauses that make its tree**, in some order. -/
theorem clauses_perm {limit : ℕ} {clauses : List (Clause N)}
    (h : TreeGraph.ofEdges limit (clauses.map edgeOf) = .ok s.graph) :
    s.clauses.Perm clauses := by
  have hperm := TreeGraph.payloads_perm h
  rw [List.map_map] at hperm
  rwa [show (fun e => e.payload) ∘ edgeOf = @id (Clause N) from rfl, List.map_id] at hperm

theorem Built.clause (h : s.Built k node) {c : Clause N} (hc : c ∈ s.clauses) :
    c.Built node := by
  obtain ⟨limit, clauses, hclauses, htree⟩ := h.exists_tree
  exact hclauses c ((clauses_perm htree).mem_iff.1 hc)

/-- The nodes of a sentence are nodes of its clauses. -/
theorem exists_clause_of_mem_nodes {limit : ℕ} {clauses : List (Clause N)}
    (h : TreeGraph.ofEdges limit (clauses.map edgeOf) = .ok s.graph) {n : N} (hn : n ∈ s.nodes) :
    ∃ c ∈ clauses, n ∈ c.nodes := by
  obtain ⟨-, -, -, root, -, hgraph⟩ := TreeGraph.ofEdges_eq_ok_iff.1 h
  rw [nodes, hgraph] at hn
  obtain ⟨e, he, hne⟩ := List.mem_flatMap.1 (mem_of_mem_keepLast hn)
  obtain ⟨c, hc, rfl⟩ := List.mem_map.1 he
  refine ⟨c, hc, ?_⟩
  rcases List.mem_pair.1 hne with rfl | rfl <;> simp [edgeOf, Clause.nodes]

theorem root_mem_nodes {limit : ℕ} {clauses : List (Clause N)}
    (h : TreeGraph.ofEdges limit (clauses.map edgeOf) = .ok s.graph) : s.root ∈ s.nodes := by
  obtain ⟨-, -, -, root, hroot, hgraph⟩ := TreeGraph.ofEdges_eq_ok_iff.1 h
  have hmem : root ∈ TreeGraph.unparented (clauses.map edgeOf) := by simp [hroot]
  rw [Sentence.root, nodes, hgraph]
  exact (List.mem_filter.1 hmem).1

theorem Built.clauses_ne_nil (h : s.Built k node) : s.clauses ≠ [] := by
  obtain ⟨limit, clauses, -, htree⟩ := h.exists_tree
  obtain ⟨c, hc, -⟩ := exists_clause_of_mem_nodes htree (root_mem_nodes htree)
  exact List.ne_nil_of_mem ((clauses_perm htree).mem_iff.2 hc)

theorem Built.of_mem_nodes (h : s.Built k node) {n : N} (hn : n ∈ s.nodes) : node n := by
  obtain ⟨limit, clauses, hclauses, htree⟩ := h.exists_tree
  obtain ⟨c, hc, hn⟩ := exists_clause_of_mem_nodes htree hn
  exact (hclauses c hc).nodes n hn

/-- Trees that share their shape, with level clauses and nodes in the same places. -/
structure SameTree (s t : Sentence N) : Prop where
  clauses : Alike compare s.clauses t.clauses
  nodes : Alike compare s.nodes t.nodes
  root : compare s.root t.root = .eq
  stages : s.graph.stages = t.graph.stages

/-- **Level sentences have the same tree.** -/
theorem Built.sameTree (hs : s.Built k node) (ht : t.Built k node) (h : compare s t = .eq) :
    SameTree s t := by
  have hclauses := Sentence.compare_eq_iff.1 h
  obtain ⟨limit, clauses, -, hs⟩ := hs.exists_tree
  obtain ⟨limit', clauses', -, ht⟩ := ht.exists_tree
  have hsame := sameEdges (clauses_perm hs).symm hclauses (clauses_perm ht)
  have hanswer := hsame.ofEdges_sameAnswer (payloadDecides clauses)
    (max s.graph.size t.graph.size)
  rw [TreeGraph.ofEdges_of_size_le hs (le_max_left _ _),
    TreeGraph.ofEdges_of_size_le ht (le_max_right _ _)] at hanswer
  cases hanswer with
  | tree hnodes hroot hstages _ => exact ⟨hclauses, hnodes, hroot, hstages⟩

end Sentence

end Nodes

/-! ## A small stock -/

namespace Sample

/-- A noun without relations. -/
def noun (script : String) (index : ℕ) : Term := ⟨script, index, .noun, ⟨[]⟩, 0⟩

/-- Three nouns. -/
def dictionary : Dictionary := ⟨none, 0, [noun "a." 0, noun "b." 1, noun "s." 2]⟩

theorem accepted : dictionary.Accepted :=
  ⟨0, none, [⟨"s.", .noun, []⟩, ⟨"a.", .noun, []⟩, ⟨"b.", .noun, []⟩], rfl⟩

/-- A word of one term. -/
def word (t : Term) (literals : List Literal) : Word := ⟨⟨[t]⟩, none, literals⟩

theorem word_built {k : Stock} {t : Term} {literals : List Literal} (ht : k.term t)
    (hl : ∀ l ∈ literals, k.literal l) : (word t literals).Built k := by
  refine ⟨fun m hm => ⟨[t], by simpa using ht, ?_⟩, hl⟩
  obtain rfl : m = ⟨[t]⟩ := by simpa [word, Word.morphemes] using hm
  rfl

/-- A clause from the first noun, with some literals, to another one. -/
def clause (attr mode : Term) (literals : List Literal) : Clause Word :=
  ⟨word (noun "a." 0) literals, word attr [], word mode []⟩

/-- Two clauses from one word, which carries a literal in the first only. -/
def fork : List (Clause Word) :=
  [clause (noun "b." 1) (noun "s." 2) [.ofText "here"], clause (noun "s." 2) (noun "b." 1) []]

theorem fork_built {k : Stock} (hterms : ∀ t ∈ dictionary.terms, k.term t)
    (hl : k.literal (.ofText "here")) : ∀ c ∈ fork, c.Built (Word.Built k) := by
  simp only [dictionary, List.forall_mem_cons] at hterms
  obtain ⟨ha, hb, hs, -⟩ := hterms
  simp only [fork, List.forall_mem_cons]
  refine ⟨⟨?_, rfl⟩, ⟨?_, rfl⟩, by simp⟩ <;>
    simp only [clause, Clause.nodes, List.forall_mem_cons]
  · exact ⟨word_built ha (by simpa using hl), word_built hb (by simp), word_built hs (by simp),
      by simp⟩
  · exact ⟨word_built ha (by simp), word_built hs (by simp), word_built hb (by simp), by simp⟩

end Sample

end Metalanguage
