import Metalanguage.Proofs.Reader.Links
import Metalanguage.Reader.Basic

/-!
# Proofs/Reader/RoundTrip — what is written is read back

Every expression over the terms of a dictionary is written in a form that the reader over this
dictionary reads as an equal expression, which is written in the same form again
(`Reader.parse_display`). The reader's limits must admit the text, and the sentences in it.
-/

namespace Metalanguage

/-- A literal made from a text, or read off one. -/
inductive Literal.Made : Literal → Prop
  | ofText (text : String) : Made (.ofText text)
  | scanned {cs rest : List Char} {l : Literal} (h : Literal.scan? cs = some (l, rest)) : Made l

/-- A literal that was made has a body, either because it was read as one or because it was escaped.
-/
theorem Literal.Made.body {l : Literal} (h : l.Made) : LiteralBody l.raw.toList := by
  cases h with
  | ofText text => simpa [Literal.ofText] using Literal.literalBody_escape text.toList
  | scanned h =>
    obtain ⟨body, hbody, -, rfl⟩ := Literal.literalBody_of_scan? h
    simpa using hbody

/-- The terms of a dictionary, with literals that are made. -/
def Dictionary.material (d : Dictionary) : Stock := ⟨(· ∈ d.terms), Literal.Made⟩

theorem Dictionary.Accepted.legible {d : Dictionary} (h : d.Accepted) (s : Style) :
    d.material.Legible s := ⟨h.valid, fun hl _ => hl.body⟩

/-- **All sentences that an expression is or holds**, in modes, targets and ways too, have at most
so many nodes. -/
def Expression.SentencesWithin (n : ℕ) : Expression → Prop
  | part p => p.SentencesWithin n
  | text t => t.SentencesWithin n
  | hypertext h => ∀ l ∈ h.links, l.SentencesWithin n

/-- **A form is resolved to what it stands for**, whichever kind that is. -/
theorem ExpressionForm.StandsFor.exists_resolve {c : Context} {k : Stock} (hc : c.Holds k)
    {f : ExpressionForm} {x : Expression} (h : f.StandsFor .written x) (hx : x.Built k)
    (hlimit : x.SentencesWithin c.maxNodes) :
    ∃ y, f.resolve c = .ok y ∧ Matches Expression.display Expression.display x y := by
  cases h with
  | part h =>
    cases hx with
    | part hp =>
      obtain ⟨q, hq, hmatch⟩ := h.exists_resolve hc hp hlimit
      exact ⟨.part q, by rw [resolve, hq]; rfl, hmatch.level, hmatch.written⟩
  | text h =>
    cases hx with
    | text ht =>
      obtain ⟨u, hu, hmatch⟩ := TextForm.StandsFor.exists_resolve hc h ht.facts hlimit
      exact ⟨.text u, by rw [resolve, hu]; rfl, hmatch.level, hmatch.written⟩
  | hypertext h =>
    cases hx with
    | hypertext hh =>
      obtain ⟨h', hh', hlevel, -⟩ := exists_resolve_hypertext hc hh.facts hlimit h
      exact ⟨.hypertext h', hh', hlevel, Hypertext.canonical_congr hlevel⟩

/-- **A text that stands for an object is read as a form that stands for it.** -/
theorem Reader.exists_form?_eq {X : Type} {R : ExpressionForm → X → Prop} {text : String} {x : X}
    (h : Grammar.Writes Productions.anyExpression R text.toList x) :
    ∃ f : ExpressionForm, form? text.toList = some f ∧ R f x := by
  obtain ⟨f, hf, hstands⟩ := h 0
  have hspells : Grammar.Spells Productions.expression 0 text.toList f :=
    Productions.spells_expression.2 ⟨[], _, [], by simp, blank_nil, blank_nil, hf⟩
  obtain ⟨d, hd⟩ := Productions.read_expression.2 hspells
  exact ⟨f, congrArg (Option.map Prod.fst) hd, hstands⟩

/-- The form is resolved, if the limit admits the text. -/
theorem Reader.exists_parse_eq (r : Reader) (source : String) {s : Style} {text : String}
    {x : Expression}
    (h : Grammar.Writes Productions.anyExpression (ExpressionForm.StandsFor s) text.toList x)
    (hbytes : text.utf8ByteSize ≤ r.limits.maxBytes) : ∃ f : ExpressionForm, f.StandsFor s x ∧
      r.parse source text =
        f.resolve ⟨r.dictionary, r.limits.maxNodes, source, text.toList⟩ := by
  obtain ⟨f, hform, hstands⟩ := exists_form?_eq h
  refine ⟨f, hstands, ?_⟩
  rw [parse, if_neg (Nat.not_lt.2 hbytes)]
  simp only [hform]

/-- **Round trip.** What an expression is written as is read as an expression of the same kind,
equal to it and written alike. -/
theorem Reader.parse_display {r : Reader} (hr : r.dictionary.Accepted) (source : String)
    {x : Expression} (hx : x.Built r.dictionary.material)
    (hnodes : x.SentencesWithin r.limits.maxNodes)
    (hbytes : x.display.utf8ByteSize ≤ r.limits.maxBytes) :
    ∃ y, r.parse source x.display = .ok y ∧ y.kind = x.kind ∧ (y == x) = true ∧
      y.display = x.display := by
  obtain ⟨f, hstands, hparse⟩ := r.exists_parse_eq source (hx.writes (hr.legible .written)) hbytes
  obtain ⟨y, hy, hmatch⟩ := hstands.exists_resolve
    (c := ⟨r.dictionary, r.limits.maxNodes, source, x.display.toList⟩) ⟨hr, id⟩ hx hnodes
  have hkind : y.kind = x.kind := (Expression.kind_eq_of_compare hmatch.level).symm
  refine ⟨y, hparse.trans hy, hkind, ?_, hmatch.written.symm⟩
  change (y.kind == x.kind && y.canonical == x.canonical) = true
  rw [hkind, Expression.canonical_congr hmatch.level]
  simp

/-! ## A sample -/

namespace Sample

/-- The sentence of the fork. -/
def sentence : Sentence Word :=
  ⟨⟨[word (noun "a." 0) [], word (noun "b." 1) [], word (noun "s." 2) []],
    [⟨0, 1, clause (noun "b." 1) (noun "s." 2) [.ofText "here"]⟩,
      ⟨0, 2, clause (noun "s." 2) (noun "b." 1) []⟩],
    word (noun "a." 0) [], [[0], [1, 2]], fork⟩, [.ofText "a > b"]⟩

/-- A text of a word and the sentence. -/
def text : Text := ⟨[.word (word (noun "b." 1) [.ofText "\\"]), .sentence sentence]⟩

/-- A link from below the word of the text to the text. -/
def web : Hypertext :=
  ⟨[⟨text, text, ⟨.word (word (noun "b." 1) []), [.morpheme ⟨[noun "b." 1]⟩]⟩⟩]⟩

theorem terms_material : ∀ t ∈ dictionary.terms, dictionary.material.term t := fun _ ht => ht

theorem sentence_built : (Part.sentence sentence).Built dictionary.material where
  exists_clauses := ⟨3, fork, fork_built terms_material (.ofText _), rfl⟩
  literals := by
    intro l hl
    obtain rfl := List.mem_singleton.1 hl
    exact .ofText _

theorem word_built_material {literals : List Literal} (hl : ∀ l ∈ literals, l.Made) :
    (Part.word (word (noun "b." 1) literals)).Built dictionary.material :=
  word_built (terms_material _ (.tail _ (.head _))) hl

theorem text_built : text.Built dictionary.material := by
  have hmembers : ∀ p ∈ text.members, p.toPart.Built dictionary.material := by
    simp only [text, List.forall_mem_cons]
    exact ⟨word_built_material (by simpa using .ofText _), sentence_built, by simp⟩
  exact .ofPropositions hmembers rfl

theorem web_built : web.Built dictionary.material := by
  have hword : (Part.word (word (noun "b." 1) [])).Built dictionary.material :=
    word_built_material (by simp)
  have hmorpheme : (Part.morpheme ⟨[noun "b." 1]⟩).Built dictionary.material :=
    Word.Built.morphemes hword _ List.mem_cons_self
  have hsteps : ∀ x ∈ [Expression.part (.word (word (noun "b." 1) [])),
      .part (.morpheme ⟨[noun "b." 1]⟩)], x.Built dictionary.material := by
    simp only [List.forall_mem_cons]
    exact ⟨.part hword, .part hmorpheme, by simp⟩
  have hlink : Hyperlink.Built dictionary.material
      ⟨text, text, ⟨.word (word (noun "b." 1) []), [.morpheme ⟨[noun "b." 1]⟩]⟩⟩ :=
    .along text_built text_built (.ofSteps hsteps rfl) rfl
  exact .ofLinks (fun l hl => List.mem_singleton.1 hl ▸ hlink) rfl

theorem text_within : text.SentencesWithin 3 := by
  intro p hp
  simp only [text, List.mem_cons, List.not_mem_nil, or_false] at hp
  rcases hp with rfl | rfl <;> decide

theorem web_within : ∀ l ∈ web.links, l.SentencesWithin 3 := by
  intro l hl
  obtain rfl := List.mem_singleton.1 hl
  exact ⟨text_within, text_within, by decide⟩

end Sample

namespace Reader

/-- The sample text and the sample hypertext are read back. -/
theorem parse_display_sample :
    (∃ y, parse ⟨Sample.dictionary, ⟨3, 200⟩⟩ "sample" (Expression.text Sample.text).display =
        .ok y ∧ y.kind = .text ∧ (y == .text Sample.text) = true ∧
          y.display = (Expression.text Sample.text).display) ∧
      ∃ y, parse ⟨Sample.dictionary, ⟨3, 200⟩⟩ "sample" (Expression.hypertext Sample.web).display =
        .ok y ∧ y.kind = .hypertext ∧ (y == .hypertext Sample.web) = true ∧
          y.display = (Expression.hypertext Sample.web).display :=
  ⟨Reader.parse_display Sample.accepted _ (.text Sample.text_built) Sample.text_within (by decide),
    Reader.parse_display Sample.accepted _ (.hypertext Sample.web_built) Sample.web_within
      (by decide +kernel)⟩

end Reader

end Metalanguage
