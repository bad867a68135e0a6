import Metalanguage.Proofs.Expression.Descendants
import Metalanguage.Proofs.Reader.Resolved
import Metalanguage.Proofs.Reader.RoundTrip

/-!
# Proofs/Reader/Within — the limit on nodes reaches every sentence

The reader hands its limit down to every sentence that it builds, on both levels, in modes, in the
members of texts, in targets and on ways. So no sentence in what is read has more nodes
(`Reader.sentencesWithin_of_parse`).
-/

namespace Metalanguage

open Ordered

variable {n : ℕ}

/-! ## Levels below texts -/

namespace Part

/-- The sentences of a part are itself and those of its children. -/
theorem sentencesWithin_iff {p : Part} :
    p.SentencesWithin n ↔ p.NodesWithin n ∧ ∀ c ∈ p.children, c.SentencesWithin n := by
  rw [SentencesWithin, List.forall_mem_cons, descendants_eq]
  refine and_congr_right fun _ => ⟨fun h c hc q hq => ?_, fun h q hq => ?_⟩
  · exact h q (List.mem_flatMap.2 ⟨c, hc, hq⟩)
  · obtain ⟨c, hc, hq⟩ := List.mem_flatMap.1 hq
    exact h c hc q hq

/-- A term has no sentence in it, and nor has a morpheme or a word ... -/
theorem sentencesWithin_term (t : Term) : (term t).SentencesWithin n :=
  sentencesWithin_iff.2 ⟨trivial, nofun⟩

theorem sentencesWithin_morpheme (m : Morpheme) : (morpheme m).SentencesWithin n :=
  sentencesWithin_iff.2 ⟨trivial, List.forall_mem_map.2 fun t _ => sentencesWithin_term t⟩

theorem sentencesWithin_word (w : Word) : (word w).SentencesWithin n :=
  sentencesWithin_iff.2 ⟨trivial, List.forall_mem_map.2 fun m _ => sentencesWithin_morpheme m⟩

/-- ... or a clause over words. -/
theorem sentencesWithin_clause (c : Clause Word) : (clause c).SentencesWithin n :=
  sentencesWithin_iff.2 ⟨trivial, List.forall_mem_map.2 fun w _ => sentencesWithin_word w⟩

/-- A sentence over words is the only one in itself ... -/
theorem sentencesWithin_sentence {s : Sentence Word} (h : s.nodes.length ≤ n) :
    (sentence s).SentencesWithin n :=
  sentencesWithin_iff.2 ⟨h, List.forall_mem_map.2 fun c _ => sentencesWithin_clause c⟩

/-- ... a clause over sentences holds its nodes ... -/
theorem sentencesWithin_superClause {c : SuperClause} (h : ∀ s ∈ c.nodes, s.nodes.length ≤ n) :
    (superClause c).SentencesWithin n :=
  sentencesWithin_iff.2
    ⟨trivial, List.forall_mem_map.2 fun s hs => sentencesWithin_sentence (h s hs)⟩

/-- ... and a sentence over sentences itself and all nodes of its clauses. -/
theorem sentencesWithin_superSentence {s : SuperSentence} (h : s.nodes.length ≤ n)
    (hclauses : ∀ c ∈ s.clauses, ∀ t ∈ c.nodes, t.nodes.length ≤ n) :
    (superSentence s).SentencesWithin n :=
  sentencesWithin_iff.2
    ⟨h, List.forall_mem_map.2 fun c hc => sentencesWithin_superClause (hclauses c hc)⟩

end Part

/-- **The limit is on nodes**: a sentence is not built if there are more, on whichever level they
are. -/
theorem Sentence.length_nodes_le_of_ofClauses {N : Type} [ClauseNode N] {clauses : List (Clause N)}
    {s : Sentence N} (h : ofClauses n clauses = .ok s) : s.nodes.length ≤ n :=
  TreeGraph.size_le_of_ofEdges (ofClauses_eq_ok_iff.1 h).1

theorem SentenceForm.length_nodes_le_of_resolve {F N : Type} [ClauseNode N]
    {resolve : F → Except Error N} {f : SentenceForm F} {t : Sentence N}
    (h : f.resolve n resolve = .ok t) : t.nodes.length ≤ n := by
  obtain ⟨clauses, -, h⟩ := bind_eq_ok_iff.1 h
  obtain ⟨u, hu, h⟩ := bind_eq_ok_iff.1 h
  cases h
  change u.nodes.length ≤ n
  exact Sentence.length_nodes_le_of_ofClauses hu

variable {c : Context}

/-- The three forms of a proposition get the same limit, a sentence over sentences at both of its
levels. -/
theorem PropositionForm.within_of_resolve {f : PropositionForm} {p : Proposition}
    (h : f.resolve c = .ok p) : p.toPart.SentencesWithin c.maxNodes := by
  cases f with
  | word f =>
    obtain ⟨w, -, h⟩ := bind_eq_ok_iff.1 h
    cases h
    exact Part.sentencesWithin_word w
  | sentence f =>
    obtain ⟨t, ht, h⟩ := bind_eq_ok_iff.1 h
    cases h
    exact Part.sentencesWithin_sentence (SentenceForm.length_nodes_le_of_resolve ht)
  | superSentence f =>
    obtain ⟨t, ht, h⟩ := bind_eq_ok_iff.1 h
    cases h
    have hbuilt := SentenceForm.built_of_resolve (c := c) SentenceForm.length_nodes_le_of_resolve ht
    exact Part.sentencesWithin_superSentence (SentenceForm.length_nodes_le_of_resolve ht)
      fun d hd => (hbuilt.clause hd).nodes

/-- So does a part, a clause over sentences in its nodes. -/
theorem PartForm.within_of_resolve {f : PartForm} {p : Part} (h : f.resolve c = .ok p) :
    p.SentencesWithin c.maxNodes := by
  cases f with
  | term f =>
    obtain ⟨t, -, h⟩ := bind_eq_ok_iff.1 h
    cases h
    exact Part.sentencesWithin_term t
  | morpheme f =>
    obtain ⟨m, -, h⟩ := bind_eq_ok_iff.1 h
    cases h
    exact Part.sentencesWithin_morpheme m
  | clause f =>
    obtain ⟨d, -, h⟩ := bind_eq_ok_iff.1 h
    cases h
    exact Part.sentencesWithin_clause d
  | superClause f =>
    obtain ⟨d, hd, h⟩ := bind_eq_ok_iff.1 h
    cases h
    have hbuilt := ClauseForm.built_of_resolve SentenceForm.length_nodes_le_of_resolve hd
    exact Part.sentencesWithin_superClause hbuilt.nodes
  | proposition f =>
    obtain ⟨q, hq, h⟩ := bind_eq_ok_iff.1 h
    cases h
    exact PropositionForm.within_of_resolve hq

/-! ## Texts and links -/

/-- The members of a text are some of those it is gathered from. -/
theorem Text.within_of_gather {members : List Proposition}
    (hmembers : ∀ p ∈ members, p.toPart.SentencesWithin n) {t : Text}
    (h : Text.gather members = .ok t) : t.SentencesWithin n := by
  intro p hp
  rw [(ofSet_eq_ok_iff.1 h).2] at hp
  exact hmembers p (mem_of_mem_keepFirst hp)

/-- A text adds no sentence to those of its members. -/
theorem TextForm.within_of_resolve {f : TextForm} {t : Text} (h : f.resolve c = .ok t) :
    t.SentencesWithin c.maxNodes := by
  obtain ⟨members, hmembers, h⟩ := bind_eq_ok_iff.1 h
  exact Text.within_of_gather (forall_of_mapM PropositionForm.within_of_resolve hmembers) h

/-- The sentences on a way have at most so many nodes. -/
def Path.SentencesWithin (n : ℕ) (path : Path) : Prop :=
  ∀ p, .part p ∈ path.steps → p.SentencesWithin n

/-- **A link is read within the limit**: its target, and its way, which starts at the member that is
read already. -/
theorem AnchorForm.within_of_resolve {f : AnchorForm} {member : Proposition}
    (hmember : member.toPart.SentencesWithin c.maxNodes) {way : Path × Text}
    (h : f.resolve c member = .ok way) :
    way.1.SentencesWithin c.maxNodes ∧ way.2.SentencesWithin c.maxNodes := by
  obtain ⟨target, htarget, h⟩ := bind_eq_ok_iff.1 h
  obtain ⟨steps, hsteps, h⟩ := bind_eq_ok_iff.1 h
  obtain ⟨path, hpath, h⟩ := bind_eq_ok_iff.1 h
  cases h
  refine ⟨fun p hp => ?_, TextForm.within_of_resolve htarget⟩
  rw [(Path.ofSteps_eq_ok_iff.1 hpath).1] at hp
  obtain ⟨q, hq, heq⟩ := List.mem_map.1 hp
  cases heq
  rcases List.mem_cons.1 hq with rfl | hq
  · exact hmember
  · exact forall_of_mapM PartForm.within_of_resolve hsteps p hq

/-- A member is read once, and its links start there. -/
theorem MemberForm.within_of_resolve {f : MemberForm} {m : Proposition × List (Path × Text)}
    (h : f.resolve c = .ok m) : m.1.toPart.SentencesWithin c.maxNodes ∧
      ∀ way ∈ m.2, way.1.SentencesWithin c.maxNodes ∧ way.2.SentencesWithin c.maxNodes := by
  obtain ⟨member, hmember, h⟩ := bind_eq_ok_iff.1 h
  obtain ⟨ways, hways, h⟩ := bind_eq_ok_iff.1 h
  cases h
  have hwithin := PropositionForm.within_of_resolve hmember
  exact ⟨hwithin, forall_of_mapM (AnchorForm.within_of_resolve hwithin) hways⟩

/-- A link has no sentence that is not in its ends or on its way. -/
theorem Hyperlink.within_of_along {source target : Text} {path : Path}
    (hsource : source.SentencesWithin n) (htarget : target.SentencesWithin n)
    (hpath : path.SentencesWithin n) {l : Hyperlink} (h : along source target path = .ok l) :
    l.SentencesWithin n := by
  obtain ⟨-, hanchor, rfl, rfl⟩ := along_eq_ok_iff.1 h
  refine ⟨hsource, htarget, fun p hp => hpath p ?_⟩
  rw [Path.steps_of_anchor? hanchor]
  exact List.mem_map_of_mem hp

/-- The source of a link is gathered from the members that its block is read to. -/
theorem BlockForm.within_of_resolve {f : BlockForm} {links : List Hyperlink}
    (h : f.resolve c = .ok links) : ∀ l ∈ links, l.SentencesWithin c.maxNodes := by
  obtain ⟨members, hmembers, h⟩ := bind_eq_ok_iff.1 h
  obtain ⟨source, hsource, h⟩ := bind_eq_ok_iff.1 h
  have hall := forall_of_mapM MemberForm.within_of_resolve hmembers
  have hwithin := Text.within_of_gather (List.forall_mem_map.2 fun m hm => (hall m hm).1) hsource
  intro l hl
  obtain ⟨way, hway, halong⟩ := exists_of_mapM h hl
  obtain ⟨m, hm, hway⟩ := List.mem_flatMap.1 hway
  obtain ⟨hpath, htarget⟩ := (hall m hm).2 way hway
  exact Hyperlink.within_of_along hwithin htarget hpath halong

/-- **Every form is read within the limit.** -/
theorem ExpressionForm.within_of_resolve {f : ExpressionForm} {x : Expression}
    (h : f.resolve c = .ok x) : x.SentencesWithin c.maxNodes := by
  cases f with
  | part f =>
    obtain ⟨p, hp, h⟩ := bind_eq_ok_iff.1 h
    cases h
    exact PartForm.within_of_resolve hp
  | text f =>
    obtain ⟨t, ht, h⟩ := bind_eq_ok_iff.1 h
    cases h
    exact TextForm.within_of_resolve ht
  | hypertext blocks =>
    obtain ⟨lists, hlists, h⟩ := bind_eq_ok_iff.1 h
    obtain ⟨web, hweb, h⟩ := bind_eq_ok_iff.1 h
    cases h
    intro l hl
    rw [(Hypertext.ofLinks_eq_ok_iff.1 hweb).2] at hl
    obtain ⟨links, hlinks, hl⟩ := List.mem_flatten.1 (mem_of_mem_keepLast hl)
    exact forall_of_mapM BlockForm.within_of_resolve hlists links hlinks l hl

/-- **What is read keeps to the limit on nodes** on every level. -/
theorem Reader.sentencesWithin_of_parse {r : Reader} {source input : String} {x : Expression}
    (h : r.parse source input = .ok x) : x.SentencesWithin r.limits.maxNodes := by
  obtain ⟨-, f, -, hf⟩ := exists_form_of_parse h
  exact ExpressionForm.within_of_resolve hf

end Metalanguage
