import Metalanguage.Proofs.Expression.Linked
import Metalanguage.Reader.Basic

/-!
# Proofs/Reader/Resolved — what is read is built

Whatever form is resolved, the expression comes out of the builders, from the terms of the
dictionary. This goes level by level, each on what the level below it promises, up to whole texts
(`Reader.built_of_parse`).
-/

namespace Metalanguage

variable {c : Context}

/-! ## Levels below texts -/

/-- **Terms come from the dictionary** and from nowhere else ... -/
theorem TermForm.mem_of_resolve {f : TermForm} {t : Term} (h : f.resolve c = .ok t) :
    t ∈ c.dictionary.terms := by
  rw [resolve] at h
  split at h
  · next u hu =>
    cases h
    exact List.mem_of_find?_eq_some hu
  · cases h

/-- ... under the script that was written. -/
theorem TermForm.script_of_resolve {f : TermForm} {t : Term} (h : f.resolve c = .ok t) :
    t.script = f.script := by
  rw [resolve] at h
  split at h
  · next u hu =>
    cases h
    exact beq_iff_eq.1 (List.find?_some (p := fun t : Term => t.script == f.script) hu)
  · cases h

/-- A morpheme is built of the terms that its own were resolved to. -/
theorem MorphemeForm.built_of_resolve {f : MorphemeForm} {m : Morpheme}
    (h : f.resolve c = .ok m) : m.Built c.dictionary.stock := by
  obtain ⟨terms, hterms, hm⟩ := bind_eq_ok_iff.1 h
  exact ⟨terms, forall_of_mapM TermForm.mem_of_resolve hterms, hm⟩

/-- A word takes its literals as they are, and so there is no rule for them. -/
theorem WordForm.built_of_resolve {f : WordForm} {w : Word} (h : f.resolve c = .ok w) :
    w.Built c.dictionary.stock := by
  obtain ⟨substance, hsubstance, h⟩ := bind_eq_ok_iff.1 h
  have hfirst := MorphemeForm.built_of_resolve hsubstance
  split at h
  · cases h
    exact ⟨by simpa [Word.morphemes] using hfirst, fun _ _ => trivial⟩
  · obtain ⟨mode, hmode, h⟩ := bind_eq_ok_iff.1 h
    cases h
    have hsecond := MorphemeForm.built_of_resolve hmode
    exact ⟨by simpa [Word.morphemes] using ⟨hfirst, hsecond⟩, fun _ _ => trivial⟩

section Nodes

variable {F N : Type} [ClauseNode N] {node : N → Prop} {resolve : F → Except Error N}
  (hnode : ∀ {f n}, resolve f = .ok n → node n)

include hnode

/-- A clause is built of nodes that are built. -/
theorem ClauseForm.built_of_resolve {f : ClauseForm F} {d : Clause N}
    (h : f.resolve resolve = .ok d) : d.Built node := by
  obtain ⟨substance, hsubstance, h⟩ := bind_eq_ok_iff.1 h
  obtain ⟨attr, hattr, h⟩ := bind_eq_ok_iff.1 h
  obtain ⟨mode, hmode, h⟩ := bind_eq_ok_iff.1 h
  refine Clause.built_of_of ?_ h
  simp only [List.forall_mem_cons]
  exact ⟨hnode hsubstance, hnode hattr, hnode hmode, List.forall_mem_nil _⟩

/-- A sentence is built of its clauses first and given its literals then, which the tree does not
show. -/
theorem SentenceForm.built_of_resolve {f : SentenceForm F} {limit : ℕ} {t : Sentence N}
    (h : f.resolve limit resolve = .ok t) : t.Built c.dictionary.stock node := by
  obtain ⟨clauses, hclauses, h⟩ := bind_eq_ok_iff.1 h
  obtain ⟨u, hu, h⟩ := bind_eq_ok_iff.1 h
  cases h
  exact Sentence.built_withLiterals (forall_of_mapM (ClauseForm.built_of_resolve hnode) hclauses) hu
    fun _ _ => trivial

end Nodes

theorem Context.built_of_sentence {f : SentenceForm WordForm} {t : Sentence Word}
    (h : c.sentence f = .ok t) : t.Built c.dictionary.stock (Word.Built c.dictionary.stock) :=
  SentenceForm.built_of_resolve WordForm.built_of_resolve h

/-- The three forms of a proposition are the two lemmas on sentences and that on words. -/
theorem PropositionForm.built_of_resolve {f : PropositionForm} {p : Proposition}
    (h : f.resolve c = .ok p) : p.toPart.Built c.dictionary.stock := by
  cases f with
  | word f =>
    obtain ⟨w, hw, h⟩ := bind_eq_ok_iff.1 h
    cases h
    exact WordForm.built_of_resolve hw
  | sentence f =>
    obtain ⟨t, ht, h⟩ := bind_eq_ok_iff.1 h
    cases h
    exact Context.built_of_sentence ht
  | superSentence f =>
    obtain ⟨t, ht, h⟩ := bind_eq_ok_iff.1 h
    cases h
    exact SentenceForm.built_of_resolve Context.built_of_sentence ht

theorem PartForm.built_of_resolve {f : PartForm} {p : Part} (h : f.resolve c = .ok p) :
    p.Built c.dictionary.stock := by
  cases f with
  | term f =>
    obtain ⟨t, ht, h⟩ := bind_eq_ok_iff.1 h
    cases h
    exact TermForm.mem_of_resolve ht
  | morpheme f =>
    obtain ⟨m, hm, h⟩ := bind_eq_ok_iff.1 h
    cases h
    exact MorphemeForm.built_of_resolve hm
  | clause f =>
    obtain ⟨d, hd, h⟩ := bind_eq_ok_iff.1 h
    cases h
    exact ClauseForm.built_of_resolve WordForm.built_of_resolve hd
  | superClause f =>
    obtain ⟨d, hd, h⟩ := bind_eq_ok_iff.1 h
    cases h
    exact ClauseForm.built_of_resolve Context.built_of_sentence hd
  | proposition f =>
    obtain ⟨q, hq, h⟩ := bind_eq_ok_iff.1 h
    cases h
    exact PropositionForm.built_of_resolve hq

/-! ## Texts and links -/

/-- Gathering propositions is building the text of them as expressions. -/
theorem Text.ofExpressions_toPart (members : List Proposition) :
    Text.ofExpressions (members.map fun p => .part p.toPart) = Text.gather members := by
  have hlists : (members.map fun p => Expression.part p.toPart).mapM propositionsOf =
      .ok (members.map ([·])) := by
    rw [mapM_eq_ok_iff, List.forall₂_map_left_iff, List.forall₂_map_right_iff]
    refine List.forall₂_same.2 fun p _ => ?_
    simp [propositionsOf]
  rw [ofExpressions, hlists]
  change gather (members.map ([·])).flatten = _
  rw [← List.flatMap_def, List.flatMap_singleton']

/-- A text of members is one of expressions, none of which is a text. -/
theorem Text.built_of_gather {k : Stock} {members : List Proposition}
    (hmembers : ∀ p ∈ members, p.toPart.Built k) {t : Text} (h : Text.gather members = .ok t) :
    t.Built k := by
  rw [← ofExpressions_toPart] at h
  refine .ofExpressions (fun q hq => ?_) (fun u hu => ?_) h
  · obtain ⟨p, hp, heq⟩ := List.mem_map.1 hq
    cases heq
    exact hmembers p hp
  · obtain ⟨p, -, heq⟩ := List.mem_map.1 hu
    cases heq

theorem TextForm.built_of_resolve {f : TextForm} {t : Text} (h : f.resolve c = .ok t) :
    t.Built c.dictionary.stock := by
  obtain ⟨members, hmembers, h⟩ := bind_eq_ok_iff.1 h
  exact Text.built_of_gather (forall_of_mapM PropositionForm.built_of_resolve hmembers) h

/-- A way is built of its member and its steps, a target as a text. -/
theorem AnchorForm.built_of_resolve {f : AnchorForm} {member : Proposition}
    (hmember : member.toPart.Built c.dictionary.stock) {way : Path × Text}
    (h : f.resolve c member = .ok way) :
    way.1.Built c.dictionary.stock ∧ way.2.Built c.dictionary.stock := by
  obtain ⟨target, htarget, h⟩ := bind_eq_ok_iff.1 h
  obtain ⟨steps, hsteps, h⟩ := bind_eq_ok_iff.1 h
  obtain ⟨path, hpath, h⟩ := bind_eq_ok_iff.1 h
  cases h
  refine ⟨.ofSteps (fun x hx => ?_) hpath, TextForm.built_of_resolve htarget⟩
  obtain ⟨p, hp, rfl⟩ := List.mem_map.1 hx
  rcases List.mem_cons.1 hp with rfl | hp
  · exact .part hmember
  · exact .part (forall_of_mapM PartForm.built_of_resolve hsteps p hp)

/-- All links of a member start at the member that was built. -/
theorem MemberForm.built_of_resolve {f : MemberForm} {m : Proposition × List (Path × Text)}
    (h : f.resolve c = .ok m) : m.1.toPart.Built c.dictionary.stock ∧
      ∀ way ∈ m.2, way.1.Built c.dictionary.stock ∧ way.2.Built c.dictionary.stock := by
  obtain ⟨member, hmember, h⟩ := bind_eq_ok_iff.1 h
  obtain ⟨ways, hways, h⟩ := bind_eq_ok_iff.1 h
  cases h
  have hbuilt := PropositionForm.built_of_resolve hmember
  exact ⟨hbuilt, forall_of_mapM (AnchorForm.built_of_resolve hbuilt) hways⟩

/-- **Links are built along their ways**, from the text of all members. -/
theorem BlockForm.built_of_resolve {f : BlockForm} {links : List Hyperlink}
    (h : f.resolve c = .ok links) : ∀ l ∈ links, l.Built c.dictionary.stock := by
  obtain ⟨members, hmembers, h⟩ := bind_eq_ok_iff.1 h
  obtain ⟨source, hsource, h⟩ := bind_eq_ok_iff.1 h
  have hall := forall_of_mapM MemberForm.built_of_resolve hmembers
  have hbuilt : source.Built c.dictionary.stock :=
    Text.built_of_gather (List.forall_mem_map.2 fun m hm => (hall m hm).1) hsource
  intro l hl
  obtain ⟨way, hway, halong⟩ := exists_of_mapM h hl
  obtain ⟨m, hm, hway⟩ := List.mem_flatMap.1 hway
  obtain ⟨hpath, htarget⟩ := (hall m hm).2 way hway
  exact .along hbuilt htarget hpath halong

/-- **Every form is resolved by the builders.** -/
theorem ExpressionForm.built_of_resolve {f : ExpressionForm} {x : Expression}
    (h : f.resolve c = .ok x) : x.Built c.dictionary.stock := by
  cases f with
  | part f =>
    obtain ⟨p, hp, h⟩ := bind_eq_ok_iff.1 h
    cases h
    exact .part (PartForm.built_of_resolve hp)
  | text f =>
    obtain ⟨t, ht, h⟩ := bind_eq_ok_iff.1 h
    cases h
    exact .text (TextForm.built_of_resolve ht)
  | hypertext blocks =>
    obtain ⟨lists, hlists, h⟩ := bind_eq_ok_iff.1 h
    obtain ⟨web, hweb, h⟩ := bind_eq_ok_iff.1 h
    cases h
    refine .hypertext (.ofLinks (fun l hl => ?_) hweb)
    obtain ⟨links, hlinks, hl⟩ := List.mem_flatten.1 hl
    exact forall_of_mapM BlockForm.built_of_resolve hlists links hlinks l hl

/-- What is read has a form, in a text of the size that is allowed. -/
theorem Reader.exists_form_of_parse {r : Reader} {source input : String} {x : Expression}
    (h : r.parse source input = .ok x) : input.utf8ByteSize ≤ r.limits.maxBytes ∧
      ∃ f, form? input.toList = some f ∧
        f.resolve ⟨r.dictionary, r.limits.maxNodes, source, input.toList⟩ = .ok x := by
  rw [parse] at h
  split at h
  · cases h
  · next hbytes =>
    simp only at h
    split at h
    · cases h
    · next f hf => exact ⟨Nat.not_lt.1 hbytes, f, hf, h⟩

/-- **What is read is built**, from the terms of the dictionary. -/
theorem Reader.built_of_parse {r : Reader} {source input : String} {x : Expression}
    (h : r.parse source input = .ok x) : x.Built r.dictionary.stock := by
  obtain ⟨-, f, -, hf⟩ := exists_form_of_parse h
  exact ExpressionForm.built_of_resolve hf

end Metalanguage
