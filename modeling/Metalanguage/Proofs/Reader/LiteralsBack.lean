import Metalanguage.Proofs.Grammar.Room
import Metalanguage.Proofs.Reader.RoundTrip

/-!
# Proofs/Reader/LiteralsBack — literals do not break out

A literal is read up to the bracket that closes it and no further, whatever its text is and whatever
follows (`Literal.Made.read_display`). So words, sentences and super-sentences with any literals are
written such that exactly these are read back, in their order (`Reader.literals_read_back`).
-/

namespace Metalanguage

open Std

/-! ## One literal -/

/-- **The grammar reads a literal as it is written**, and nothing of what follows. -/
theorem Literal.Made.read_display {l : Literal} (h : l.Made) (o : ℕ) (following : String) :
    Productions.literal.read ⟨o, (l.display ++ following).toList⟩ =
      some (l, ⟨o + l.display.utf8ByteSize, following.toList⟩) := by
  have htext : (l.display ++ following).toList =
      '<' :: (l.raw.toList ++ '>' :: following.toList) := by simp [Literal.display]
  have hscan : Literal.scan? (l.display ++ following).toList = some (l, following.toList) := by
    rw [htext, Literal.scan?_append h.body]
    simp
  change (Literal.scan? _).map _ = _
  rw [hscan, Grammar.utf8ByteSize_eq_byteLength]
  rfl

/-! ## Literals of propositions -/

/-- Literals of the stock take the place of those of a sentence. -/
theorem Sentence.Built.withLiterals {N : Type} [ClauseNode N] {k : Stock} {node : N → Prop}
    {s : Sentence N} (hs : s.Built k node) {ls : List Literal} (hls : ∀ l ∈ ls, k.literal l) :
    (s.withLiterals ls).Built k node := by
  obtain ⟨limit, clauses, hclauses, htree⟩ := hs.exists_tree
  have hbare : ofClauses limit clauses = .ok (s.withLiterals []) :=
    ofClauses_eq_ok_iff.2 ⟨htree, rfl⟩
  exact built_withLiterals (s := s.withLiterals []) hclauses hbare hls

namespace Proposition

/-- The literals attached to a proposition itself. -/
def literals : Proposition → List Literal
  | word w => w.literals
  | sentence s => s.literals
  | superSentence s => s.literals

/-- The proposition with these literals instead of its own. -/
def withLiterals : Proposition → List Literal → Proposition
  | word w, ls => word (w.withLiterals ls)
  | sentence s, ls => sentence (s.withLiterals ls)
  | superSentence s, ls => superSentence (s.withLiterals ls)

@[simp] theorem literals_withLiterals (p : Proposition) (ls : List Literal) :
    (p.withLiterals ls).literals = ls := by cases p <;> rfl

/-- Literals come last in the written form. -/
theorem display_withLiterals (p : Proposition) (ls : List Literal) :
    (p.withLiterals ls).display = (p.withLiterals []).display ++ Literal.displayAll ls := by
  cases p <;> simp [withLiterals, display, toPart, Part.display, Word.display, Word.withLiterals,
    Sentence.display, Sentence.withLiterals, Literal.displayAll, Word.canonical, Word.morphemes,
    Sentence.clauses]

theorem canonical_withLiterals (p : Proposition) (ls : List Literal) :
    (p.withLiterals ls).canonical = p.canonical := by cases p <;> rfl

theorem level_withLiterals (p : Proposition) (ls : List Literal) :
    compare (p.withLiterals ls) p = .eq :=
  Proposition.compare_eq_iff.2 ⟨by cases p <;> rfl, p.canonical_withLiterals ls⟩

theorem sentencesWithin_withLiterals {n : ℕ} {p : Proposition} (h : p.toPart.SentencesWithin n)
    (ls : List Literal) : (p.withLiterals ls).toPart.SentencesWithin n := by
  obtain ⟨hnodes, hbelow⟩ := List.forall_mem_cons.1 h
  refine List.forall_mem_cons.2 ⟨?_, ?_⟩
  · cases p <;> exact hnodes
  · cases p <;> exact hbelow

theorem built_withLiterals {k : Stock} {p : Proposition} (hp : p.toPart.Built k)
    {ls : List Literal} (hls : ∀ l ∈ ls, k.literal l) : (p.withLiterals ls).toPart.Built k := by
  cases p with
  | word w =>
    have hw : w.Built k := hp
    exact ⟨hw.morphemes, hls⟩
  | sentence s => exact Sentence.Built.withLiterals hp hls
  | superSentence s => exact Sentence.Built.withLiterals hp hls

end Proposition

/-! ## Forms -/

/-- What the form of a word is resolved to has its literals. -/
theorem WordForm.literals_of_resolve {c : Context} {f : WordForm} {w : Word}
    (h : f.resolve c = .ok w) : w.literals = f.literals := by
  obtain ⟨substance, -, h⟩ := bind_eq_ok_iff.1 h
  split at h
  · cases h
    rfl
  · obtain ⟨mode, -, h⟩ := bind_eq_ok_iff.1 h
    cases h
    rfl

/-- What the form of a sentence is resolved to has its literals. -/
theorem SentenceForm.literals_of_resolve {F N : Type} [ClauseNode N] {node : F → Except Error N}
    {f : SentenceForm F} {limit : ℕ} {s : Sentence N} (h : f.resolve limit node = .ok s) :
    s.literals = f.literals := by
  obtain ⟨clauses, -, h⟩ := bind_eq_ok_iff.1 h
  obtain ⟨t, -, h⟩ := bind_eq_ok_iff.1 h
  cases h
  rfl

namespace PropositionForm

/-- The literals attached to a proposition as written. -/
def literals : PropositionForm → List Literal
  | word f => f.literals
  | sentence f => f.literals
  | superSentence f => f.literals

theorem StandsFor.literals_eq {f : PropositionForm} {p : Proposition} (h : f.StandsFor .written p) :
    f.literals = p.literals := by
  cases h with
  | word h => exact h.literals
  | sentence h => exact h.literals
  | superSentence h => exact h.literals

/-- What a form is resolved to has its literals. -/
theorem literals_of_resolve {c : Context} {f : PropositionForm} {p : Proposition}
    (h : f.resolve c = .ok p) : p.literals = f.literals := by
  cases f with
  | word f =>
    obtain ⟨w, hw, h⟩ := bind_eq_ok_iff.1 h
    cases h
    exact WordForm.literals_of_resolve hw
  | sentence f =>
    obtain ⟨s, hs, h⟩ := bind_eq_ok_iff.1 h
    cases h
    exact SentenceForm.literals_of_resolve hs
  | superSentence f =>
    obtain ⟨s, hs, h⟩ := bind_eq_ok_iff.1 h
    cases h
    exact SentenceForm.literals_of_resolve hs

end PropositionForm

namespace Reader

variable {k : Stock} {p : Proposition}

/-- What a proposition is written as is read as the form of a proposition. -/
theorem exists_form?_display (hp : p.toPart.Built k) (hk : k.Legible .written) :
    ∃ f, form? p.display.toList = some (.part (.proposition f)) ∧ f.StandsFor .written p := by
  have hproposition : Grammar.Writes
      (.map (ExpressionForm.part ∘ PartForm.proposition) Productions.proposition)
      (fun f p => ∃ g : PropositionForm, f = .part (.proposition g) ∧ g.StandsFor .written p)
      p.display.toList p :=
    (Proposition.writes hp hk).map _ fun hf => ⟨_, rfl, hf⟩
  have hwrites : Grammar.Writes Productions.anyExpression
      (fun f p => ∃ g : PropositionForm, f = .part (.proposition g) ∧ g.StandsFor .written p)
      p.display.toList p :=
    ((hproposition.left _).right _).right _
  obtain ⟨_, hform, f, rfl, hf⟩ := exists_form?_eq hwrites
  exact ⟨f, hform, hf⟩

/-- **Literals do not break out.** A text comes back out of its literal; a literal is read as it is
written, whatever follows; and a proposition with any literals is written such that the grammar
finds exactly these, and so does the reader if its limits admit the proposition. -/
theorem literals_read_back {r : Reader} (hr : r.dictionary.Accepted) :
    (∀ text, (Literal.ofText text).text = text) ∧
      (∀ l : Literal, l.Made → ∀ (o : ℕ) (following : String),
        Productions.literal.read ⟨o, (l.display ++ following).toList⟩ =
          some (l, ⟨o + l.display.utf8ByteSize, following.toList⟩)) ∧
      ∀ p : Proposition, p.toPart.Built r.dictionary.material → ∀ ls : List Literal,
        (∀ l ∈ ls, l.Made) →
          (p.withLiterals ls).display = (p.withLiterals []).display ++ Literal.displayAll ls ∧
          (∃ f, form? (p.withLiterals ls).display.toList = some (.part (.proposition f)) ∧
            f.literals = ls) ∧
          (p.toPart.SentencesWithin r.limits.maxNodes →
            (p.withLiterals ls).display.utf8ByteSize ≤ r.limits.maxBytes → ∀ source,
              ∃ q : Proposition, r.parse source (p.withLiterals ls).display = .ok (.part q.toPart) ∧
                (q == p) = true ∧ q.literals = ls) := by
  refine ⟨Literal.text_ofText, fun l hl => hl.read_display, fun p hp ls hls => ?_⟩
  have hbuilt : (p.withLiterals ls).toPart.Built r.dictionary.material :=
    Proposition.built_withLiterals hp hls
  obtain ⟨f, hform, hstands⟩ := exists_form?_display hbuilt (hr.legible .written)
  have hliterals : f.literals = ls := by rw [hstands.literals_eq, p.literals_withLiterals]
  refine ⟨p.display_withLiterals ls, ⟨f, hform, hliterals⟩, fun hnodes hbytes source => ?_⟩
  obtain ⟨q, hq, hmatch⟩ := hstands.exists_resolve
    (c := ⟨r.dictionary, r.limits.maxNodes, source, (p.withLiterals ls).display.toList⟩)
    ⟨hr, id⟩ hbuilt (Proposition.sentencesWithin_withLiterals hnodes ls)
  refine ⟨q, ?_, ?_, (PropositionForm.literals_of_resolve hq).trans hliterals⟩
  · rw [parse, if_neg (Nat.not_lt.2 hbytes)]
    simp only [hform, ExpressionForm.resolve, PartForm.resolve, hq]
    rfl
  · have hlevel : compare q (p.withLiterals ls) = .eq :=
      OrientedCmp.eq_symm (Proposition.compare_eq_of_toPart hmatch.level)
    exact Proposition.compare_eq_iff_beq.1 (TransCmp.eq_trans hlevel (p.level_withLiterals ls))

/-- Literals that end in a backslash, hold brackets of every kind, or look like more of a word. -/
def Sample.breakouts : List Literal := [.ofText "\\", .ofText ">] <b.> \\> \x7b\n\x7d", .ofText ""]

theorem literals_read_back_breakouts :
    ∃ q : Proposition, parse ⟨Sample.dictionary, ⟨3, 200⟩⟩ "sample"
        ((Proposition.word (Sample.word (Sample.noun "b." 1) [])).withLiterals
          Sample.breakouts).display = .ok (.part q.toPart) ∧
      q.literals = Sample.breakouts ∧
      Sample.breakouts.map Literal.text = ["\\", ">] <b.> \\> \x7b\n\x7d", ""] := by
  have hmade : ∀ l ∈ Sample.breakouts, l.Made := by
    simp only [Sample.breakouts, List.forall_mem_cons]
    exact ⟨.ofText _, .ofText _, .ofText _, nofun⟩
  obtain ⟨htext, -, hback⟩ :=
    literals_read_back (r := ⟨Sample.dictionary, ⟨3, 200⟩⟩) Sample.accepted
  obtain ⟨-, -, hparse⟩ := hback (.word (Sample.word (Sample.noun "b." 1) []))
    (Sample.word_built_material nofun) Sample.breakouts hmade
  obtain ⟨q, hq, -, hliterals⟩ := hparse (by decide) (by decide) "sample"
  exact ⟨q, hq, hliterals, by simp only [Sample.breakouts, List.map_cons, List.map_nil, htext]⟩

end Reader

end Metalanguage
