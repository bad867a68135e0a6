import Metalanguage.Proofs.Expression.Sound
import Metalanguage.Proofs.GraphDocument
import Metalanguage.Proofs.Reader.Within

/-!
# Proofs/Reader/Sound — what is read is well formed throughout

The reader returns what the builders build, within its limit on nodes. A graph document passes the
nodes that the reader reads to the same builders, so its word or sentence is built too. Whatever is
read from a text or from a document is therefore sound throughout (`Reader.sound_throughout`).
-/

namespace Metalanguage

namespace GraphDocument

/-! ## What a table holds -/

section Tables

variable {P : Expression → Prop} {r : Reader} {table : Table}

/-- A table holds what the reader reads. -/
theorem readNodes_forall (hread : ∀ {source input x}, r.parse source input = .ok x → P x)
    {nodes : List NumberedNode} (h : readNodes r nodes = .ok table) : ∀ e ∈ table, P e.2 := by
  refine foldlM_preserves (P := fun table => ∀ e ∈ table, P e.2) ?_ (b := []) (by simp) h
  intro table node table' htable hstep
  obtain ⟨x, hx, hstep⟩ := bind_eq_ok_iff.1 hstep
  split at hstep
  · cases hstep
  · cases hstep
    exact List.forall_mem_append.2 ⟨htable, List.forall_mem_singleton.2 (hread hx)⟩

/-- What is found in a table is an entry of it. -/
theorem lookup_forall (htable : ∀ e ∈ table, P e.2) {id : ℕ} {x : Expression}
    (h : lookup table id = .ok x) : P x := by
  rw [lookup] at h
  split at h
  · next y hy =>
    cases h
    obtain ⟨before, behind, rfl, -⟩ := List.lookup_eq_some_iff.1 hy
    exact htable (id, x) (by simp)
  · cases h

end Tables

/-! ## Building from a table -/

section Building

variable {d : Dictionary} {table : Table} (htable : ∀ e ∈ table, e.2.Built d.stock)

include htable

/-- A node of a document can only be a term if it was read as one. -/
theorem termAt_mem {id : ℕ} {t : Term} (h : termAt table id = .ok t) : t ∈ d.terms := by
  obtain ⟨x, hx, h⟩ := bind_eq_ok_iff.1 h
  have hbuilt := lookup_forall htable hx
  split at h
  · cases h
    cases hbuilt with
    | part hp => exact hp
  · cases h

theorem wordAt_built {id : ℕ} {w : Word} (h : wordAt table id = .ok w) : w.Built d.stock := by
  obtain ⟨x, hx, h⟩ := bind_eq_ok_iff.1 h
  have hbuilt := lookup_forall htable hx
  split at h
  · cases h
    cases hbuilt with
    | part hp => exact hp
  · cases h

/-- A morpheme of terms from a table is built as one that is read. -/
theorem morphemeAt_built {ids : List ℕ} {m : Morpheme} (h : morphemeAt table ids = .ok m) :
    m.Built d.stock := by
  obtain ⟨terms, hterms, hm⟩ := bind_eq_ok_iff.1 h
  exact ⟨terms, forall_of_mapM (termAt_mem htable) hterms, hm⟩

/-- A clause of words from a table is built of them. -/
theorem clauseAt_built {roles : ClauseRoles} {c : Clause Word} (h : clauseAt table roles = .ok c) :
    c.Built (Word.Built d.stock) := by
  obtain ⟨substance, hsubstance, h⟩ := bind_eq_ok_iff.1 h
  obtain ⟨attr, hattr, h⟩ := bind_eq_ok_iff.1 h
  obtain ⟨mode, hmode, h⟩ := bind_eq_ok_iff.1 h
  refine Clause.built_of_of ?_ h
  simp only [List.forall_mem_cons]
  exact ⟨wordAt_built htable hsubstance, wordAt_built htable hattr, wordAt_built htable hmode,
    List.forall_mem_nil _⟩

end Building

variable {r : Reader} {nodes : List NumberedNode}

/-- **The word of a document** is built of what its nodes were read as. -/
theorem wordOf_built {roles : WordRoles} {w : Word} (h : wordOf r nodes roles = .ok w) :
    w.Built r.dictionary.stock := by
  obtain ⟨table, htable, h⟩ := bind_eq_ok_iff.1 h
  have hread := readNodes_forall Reader.built_of_parse htable
  obtain ⟨substance, hsubstance, h⟩ := bind_eq_ok_iff.1 h
  have hfirst := morphemeAt_built hread hsubstance
  split at h
  · cases h
    exact ⟨by simpa [Word.morphemes] using hfirst, List.forall_mem_nil _⟩
  · obtain ⟨mode, hmode, h⟩ := bind_eq_ok_iff.1 h
    cases h
    have hsecond := morphemeAt_built hread hmode
    exact ⟨by simpa [Word.morphemes] using ⟨hfirst, hsecond⟩, List.forall_mem_nil _⟩

/-- **The sentence of a document** is built too, within the reader's own limit. -/
theorem sentenceOf_built {graph : List ClauseRoles} {s : Sentence Word}
    (h : sentenceOf r nodes graph = .ok s) :
    s.Built r.dictionary.stock (Word.Built r.dictionary.stock) ∧
      s.nodes.length ≤ r.limits.maxNodes := by
  obtain ⟨table, htable, h⟩ := bind_eq_ok_iff.1 h
  have hread := readNodes_forall Reader.built_of_parse htable
  obtain ⟨clauses, hclauses, h⟩ := bind_eq_ok_iff.1 h
  exact ⟨Sentence.built_of_ofClauses (forall_of_mapM (clauseAt_built hread) hclauses) h,
    Sentence.length_nodes_le_of_ofClauses h⟩

end GraphDocument

/-- A link from the morpheme of a word to a word with a literal. -/
def Sample.linkedWords : String := "\x7b/[([b.])]>([b.])\x7b/[([a.])]<here>/\x7d/\x7d"

namespace Reader

variable {r : Reader}

theorem wordFromGraph_built {text : String} {w : Word} (h : r.wordFromGraph text = .ok w) :
    w.Built r.dictionary.stock := by
  rw [wordFromGraph] at h
  split at h
  · exact GraphDocument.wordOf_built h
  · cases h

theorem sentenceFromGraph_built {text : String} {s : Sentence Word}
    (h : r.sentenceFromGraph text = .ok s) :
    s.Built r.dictionary.stock (Word.Built r.dictionary.stock) ∧
      s.nodes.length ≤ r.limits.maxNodes := by
  rw [sentenceFromGraph] at h
  split at h
  · exact GraphDocument.sentenceOf_built h
  · cases h

/-- **Whatever is read is sound throughout**, from a text and from a graph document of either kind:
what is in it at any depth keeps the rule of its level, under the reader's own limit on nodes. -/
theorem sound_throughout (hr : r.dictionary.Accepted) :
    (∀ source input x, r.parse source input = .ok x →
        x.SoundThroughout r.dictionary r.limits.maxNodes) ∧
      (∀ text w, r.wordFromGraph text = .ok w →
        (Expression.part (.word w)).SoundThroughout r.dictionary r.limits.maxNodes) ∧
      ∀ text s, r.sentenceFromGraph text = .ok s →
        (Expression.part (.sentence s)).SoundThroughout r.dictionary r.limits.maxNodes := by
  refine ⟨fun source input x h => ?_, fun text w h => ?_, fun text s h => ?_⟩
  · exact (built_of_parse h).soundThroughout hr (sentencesWithin_of_parse h)
  · have hbuilt : (Expression.part (.word w)).Built r.dictionary.stock :=
      .part (wordFromGraph_built h)
    exact hbuilt.soundThroughout hr (Part.sentencesWithin_word w)
  · obtain ⟨hs, hlength⟩ := sentenceFromGraph_built h
    have hbuilt : (Expression.part (.sentence s)).Built r.dictionary.stock := .part hs
    exact hbuilt.soundThroughout hr (Part.sentencesWithin_sentence hlength)

/-- A hypertext, a word and a sentence. -/
theorem sound_throughout_sample :
    (∃ x, Sample.reader.parse "sample" Sample.linkedWords = .ok x ∧
        x.SoundThroughout Sample.dictionary 3) ∧
      (∃ w, Sample.reader.wordFromGraph Sample.wordDocument = .ok w ∧
        (Expression.part (.word w)).SoundThroughout Sample.dictionary 3) ∧
      ∃ s, Sample.reader.sentenceFromGraph Sample.sentenceDocument = .ok s ∧
        (Expression.part (.sentence s)).SoundThroughout Sample.dictionary 3 := by
  obtain ⟨htext, hword, hsentence⟩ := sound_throughout (r := Sample.reader) Sample.accepted
  refine ⟨?_, ?_, ?_⟩
  · have hread : ∃ x, Sample.reader.parse "sample" Sample.linkedWords = .ok x := ⟨_, rfl⟩
    obtain ⟨x, hx⟩ := hread
    exact ⟨x, hx, htext _ _ x hx⟩
  · have hcontent : GraphDocument.wordContentOf? Sample.wordDocument =
        some (Sample.termNodes, ⟨[2, 0], [1]⟩) := by decide +kernel
    have hread : ∃ w, Sample.reader.wordFromGraph Sample.wordDocument = .ok w := by
      rw [wordFromGraph, hcontent]
      exact ⟨_, rfl⟩
    obtain ⟨w, hw⟩ := hread
    exact ⟨w, hw, hword _ w hw⟩
  · have hcontent : GraphDocument.sentenceContentOf? Sample.sentenceDocument =
        some (Sample.wordNodes, [⟨4, 1, 9⟩]) := by decide +kernel
    have hread : ∃ s, Sample.reader.sentenceFromGraph Sample.sentenceDocument = .ok s := by
      rw [sentenceFromGraph, hcontent]
      exact ⟨_, rfl⟩
    obtain ⟨s, hs⟩ := hread
    exact ⟨s, hs, hsentence _ s hs⟩

end Reader

end Metalanguage
