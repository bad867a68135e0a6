import Metalanguage.Proofs.Expression.Containment
import Metalanguage.Proofs.Reader.RoundTrip
import Metalanguage.Proofs.TreeGraph.Ways

/-!
# Proofs/Expression/Sound — what is built is well formed throughout

Each level has its own rule of being well formed (`Part.Sound`, `Text.Sound`, `Hyperlink.Sound`). What
the builders build of the terms of a dictionary keeps the rule of its level, and so does whatever is
in it, at any depth, in modes, in source and target texts, and on ways: an expression is sound
throughout (`Expression.Built.soundThroughout`).
-/

namespace Metalanguage

open Std Ordered

/-! ## The rule of each level -/

/-- **A sentence is sound** if its clauses make one tree of at least two and at most `n` nodes, and
stand in canonical order: by the distance of the substance from the root, then by the clause. -/
structure Sentence.Sound {N : Type} [ClauseNode N] (n : ℕ) (s : Sentence N) : Prop where
  spans : s.graph.Spans (s.clauses.map edgeOf)
  two_le : 2 ≤ s.nodes.length
  length_le : s.nodes.length ≤ n
  clauses_increasing :
    Increasing (compareLex (compareOn fun c => s.graph.stageOf c.substance) compare) s.clauses

/-- **A part is sound**: a term is the one that the dictionary has under its script, a morpheme has
terms, which are strictly increasing, a clause joins two different nodes, and a sentence is sound. -/
def Part.Sound (d : Dictionary) (n : ℕ) : Part → Prop
  | term t => d.term? t.script = some t
  | morpheme m => m.terms ≠ [] ∧ Increasing compare m.terms
  | word _ => True
  | clause c => c.substance.canonical ≠ c.attr.canonical
  | sentence s => s.Sound n
  | superClause c => c.substance.canonical ≠ c.attr.canonical
  | superSentence s => s.Sound n

/-- **A text is sound** if it has members, which are strictly increasing. -/
structure Text.Sound (t : Text) : Prop where
  ne_nil : t.members ≠ []
  increasing : Increasing compare t.members

/-- **A link is sound** if its way starts on a member of the source and takes each step to a child. -/
structure Hyperlink.Sound (l : Hyperlink) : Prop where
  member : l.source.hasMember l.anchor.member.toPart = true
  descends : l.anchor.steps.IsChain fun p q => p.hasChild q = true

/-! ## What is in an expression -/

/-- The members of a text and the parts below them. -/
def Text.parts (t : Text) : List Part :=
  t.members.flatMap fun m => m.toPart :: m.toPart.descendants

/-- The parts of both texts, the steps of the way and the parts below these. -/
def Hyperlink.parts (l : Hyperlink) : List Part :=
  l.source.parts ++ l.target.parts ++ l.anchor.steps.flatMap fun p => p :: p.descendants

namespace Expression

/-- **All parts** that an expression is, or holds at any depth. -/
def parts : Expression → List Part
  | part p => p :: p.descendants
  | text t => t.parts
  | hypertext h => h.links.flatMap Hyperlink.parts

/-- All texts that an expression is or holds. -/
def textsWithin : Expression → List Text
  | part _ => []
  | text t => [t]
  | hypertext h => h.links.flatMap fun l => [l.source, l.target]

/-- All links that an expression holds. -/
def linksWithin : Expression → List Hyperlink
  | hypertext h => h.links
  | _ => []

/-- **An expression is sound throughout**: whatever is in it keeps the rule of its level. -/
structure SoundThroughout (d : Dictionary) (n : ℕ) (x : Expression) : Prop where
  parts : ∀ p ∈ x.parts, p.Sound d n
  texts : ∀ t ∈ x.textsWithin, t.Sound
  links : ∀ l ∈ x.linksWithin, l.Sound

end Expression

/-! ## Builders keep the rules -/

section Nodes

variable {N : Type} [ClauseNode N]

/-- The clauses of an accepted tree stand in canonical order, none of them twice. -/
theorem Sentence.increasing_clauses [LawfulNode N] {limit : ℕ} {clauses : List (Clause N)}
    {s : Sentence N} (h : TreeGraph.ofEdges limit (clauses.map edgeOf) = .ok s.graph) :
    Increasing (compareLex (compareOn fun c => s.graph.stageOf c.substance) compare) s.clauses := by
  obtain ⟨root, hpassed, hgraph⟩ := TreeGraph.exists_passed h
  obtain ⟨listed, hperm, hpayloads, hsorted⟩ := hpassed.exists_listing
  rw [← hgraph] at hpayloads hsorted
  have hedges : s.clauses.map edgeOf = listed := by
    have hedge : ∀ e ∈ listed, edgeOf e.payload = e := fun e he => by
      obtain ⟨c, -, rfl⟩ := List.mem_map.1 (hperm.mem_iff.1 he)
      rfl
    rw [Sentence.clauses, hpayloads, List.map_map]
    exact (List.map_congr_left hedge).trans (List.map_id listed)
  have hapart := TreeGraph.targets_apart
    (TreeGraph.crowded_eq_nil_of_perm hperm.symm hpassed.crowded)
  rw [← hedges] at hsorted hapart
  have hboth := (List.pairwise_map.1 hsorted).and (List.pairwise_map.1 hapart)
  refine hboth.imp fun {c d} ⟨hle, hne⟩ => ?_
  refine (Ordering.isLE_iff_eq_lt_or_eq_eq.1 hle).resolve_right fun heq => hne ?_
  exact (Clause.compare_eq_iff.1 (Ordering.then_eq_eq.1 heq).2).2.1

/-- A sentence that is built has its clauses in order, and has a tree. -/
theorem Sentence.Built.sound [LawfulNode N] {k : Stock} {node : N → Prop} {s : Sentence N} {n : ℕ}
    (h : s.Built k node) (hn : s.nodes.length ≤ n) : s.Sound n := by
  obtain ⟨limit, clauses, -, htree⟩ := h.exists_tree
  exact ⟨TreeGraph.spans_of_ofEdges htree ((clauses_perm htree).symm.map edgeOf),
    TreeGraph.two_le_size_of_ofEdges htree, hn, increasing_clauses htree⟩

/-- **Substance and attribute differ**: the builder asks, and nothing that is built avoids it. -/
theorem Clause.Built.canonical_ne {node : N → Prop} {c : Clause N} (h : c.Built node) :
    ClauseNode.canonical c.substance ≠ ClauseNode.canonical c.attr := fun heq => by
  have hof := h.of_eq
  rw [of, heq, if_pos (by simp)] at hof
  cases hof

end Nodes

variable {d : Dictionary} {n : ℕ}

/-- One rule for each kind of part. -/
theorem Part.Built.sound (hd : d.Accepted) {p : Part} (hp : p.Built d.stock)
    (hn : p.NodesWithin n) : p.Sound d n := by
  cases p with
  | term t => exact hd.term?_eq hp
  | morpheme m => exact ⟨(Morpheme.Built.facts hp).1, (Morpheme.Built.facts hp).2.1⟩
  | word w => trivial
  | clause c => exact Clause.Built.canonical_ne hp
  | sentence s => exact Sentence.Built.sound hp hn
  | superClause c => exact Clause.Built.canonical_ne hp
  | superSentence s => exact Sentence.Built.sound hp hn

/-- **What is in a part is built**, at any depth: children are, and descendants are children of
children. -/
theorem Part.Built.of_mem_descendants {k : Stock} {p q : Part} (hp : p.Built k)
    (hq : q ∈ p.descendants) : q.Built k := by
  induction p using Part.induction with
  | step p ih =>
    obtain ⟨c, hc, rfl | hq⟩ := Part.mem_descendants_iff.1 hq
    · exact hp.of_mem_children hc
    · exact ih c hc (hp.of_mem_children hc) hq

/-- A part and all that is below it is sound. -/
theorem Part.Built.sound_below (hd : d.Accepted) {p : Part} (hp : p.Built d.stock)
    (hn : p.SentencesWithin n) : ∀ q ∈ p :: p.descendants, q.Sound d n := by
  intro q hq
  refine Part.Built.sound hd ?_ (hn q hq)
  rcases List.mem_cons.1 hq with rfl | hq
  · exact hp
  · exact hp.of_mem_descendants hq

theorem Text.Facts.sound {k : Stock} {t : Text} (ht : t.Facts k) : t.Sound :=
  ⟨ht.ne_nil, ht.increasing⟩

theorem Text.Facts.sound_parts (hd : d.Accepted) {t : Text} (ht : t.Facts d.stock)
    (hn : t.SentencesWithin n) : ∀ q ∈ t.parts, q.Sound d n := by
  intro q hq
  obtain ⟨m, hm, hq⟩ := List.mem_flatMap.1 hq
  exact (ht.built m hm).sound_below hd (hn m hm) q hq

/-- A link starts at a member of its source and goes down from there. -/
theorem Hyperlink.Facts.sound {k : Stock} {l : Hyperlink} (hl : l.Facts k) : l.Sound := by
  obtain ⟨m, hm, hlevel⟩ := hl.member
  exact ⟨List.any_eq_true.2 ⟨m, hm, Proposition.compare_eq_iff_beq.1 hlevel⟩, hl.descends⟩

/-- The steps of a link are in its member, so they are in its source. -/
theorem Hyperlink.Facts.sound_parts (hd : d.Accepted) {l : Hyperlink} (hl : l.Facts d.stock)
    (hn : l.SentencesWithin n) : ∀ q ∈ l.parts, q.Sound d n := by
  intro q hq
  rcases List.mem_append.1 hq with hq | hq
  · rcases List.mem_append.1 hq with hq | hq
    · exact hl.source.sound_parts hd hn.source q hq
    · exact hl.target.sound_parts hd hn.target q hq
  · obtain ⟨p, hp, hq⟩ := List.mem_flatMap.1 hq
    exact (hl.steps p hp).sound_below hd (hn.steps p hp) q hq

/-- **What is built is sound throughout**, if its sentences are within the limit. -/
theorem Expression.Built.soundThroughout (hd : d.Accepted) {x : Expression} (hx : x.Built d.stock)
    (hn : x.SentencesWithin n) : x.SoundThroughout d n := by
  cases hx with
  | part hp => exact ⟨hp.sound_below hd hn, nofun, nofun⟩
  | text ht =>
    refine ⟨ht.facts.sound_parts hd hn, fun u hu => ?_, nofun⟩
    obtain rfl := List.mem_singleton.1 hu
    exact ht.facts.sound
  | hypertext hh =>
    have hlink := hh.facts.links
    refine ⟨fun q hq => ?_, fun u hu => ?_, fun l hl => (hlink l hl).sound⟩
    · obtain ⟨l, hl, hq⟩ := List.mem_flatMap.1 hq
      exact (hlink l hl).sound_parts hd (hn l hl) q hq
    · obtain ⟨l, hl, hu⟩ := List.mem_flatMap.1 hu
      rcases List.mem_pair.1 hu with rfl | rfl
      · exact (hlink l hl).source.sound
      · exact (hlink l hl).target.sound

end Metalanguage
