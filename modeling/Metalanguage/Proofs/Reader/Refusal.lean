import Metalanguage.Proofs.Reader.HypertextLiterals
import Metalanguage.Proofs.Reader.Lockstep
import Metalanguage.Proofs.Reader.Settled
import Metalanguage.Proofs.Reader.Walk

/-!
# Proofs/Reader/Refusal — why a reader refuses a text

A text is too long, or has no form, or stands for something that cannot be built of terms that are
known, or holds a term that the dictionary does not have, and then the error points at this very term
(`Refusal`). There is no other reason (`Reader.refusals_exhausted`): where the rules that were read are
walked over, nothing is found out of place, and many an error of the builders never shows.
-/

namespace Metalanguage

namespace Reader

variable {r : Reader} {source input : String}

/-- **The reasons for a refusal**, with the error that each gives. -/
inductive Refusal (r : Reader) (source input : String) : Error → Prop
  | tooLong (h : r.limits.maxBytes < input.utf8ByteSize) :
    Refusal r source input (.sizeExceeded .inputBytes r.limits.maxBytes input.utf8ByteSize)
  | malformed (h : form? input.toList = none) :
    Refusal r source input (formError input.toList source)
  | unknownTerm {form : ExpressionForm} {t : TermForm} (read : form? input.toList = some form)
    (mem : t ∈ form.terms) (stands : t.StandsIn input.toList)
    (unknown : r.dictionary.contains t.script = false) :
    Refusal r source input (.parse ⟨.unknownTerm t.script, t.range,
      .ofOffset input.toList t.range.start, source, none⟩)
  | misbuilt {e : Error} (h : Misbuilt r.limits.maxNodes e) : Refusal r source input e

/-- **The errors that no reading ends in**: those of dictionaries and documents, those of builders
that are given what the grammar never makes, and those of a walk over rules out of place. -/
inductive Stray : Error → Prop
  | termNotFound (script : String) : Stray (.termNotFound script)
  | dictionary (fault : DictionaryFault) : Stray (.dictionary fault)
  | document (fault : DocumentFault) : Stray (.document fault)
  | noRoot (construct : Construct) : Stray (.invalidTree construct .noRoot)
  | disconnected (construct : Construct) (nodes : List String) :
    Stray (.invalidTree construct (.disconnected nodes))
  | argument {construct : Construct} (h : construct ≠ .morpheme) (h' : construct ≠ .path)
    (misfit : Misfit) : Stray (.invalidArgument construct misfit)
  | odd {failure : ParseFailure} {oddity : Oddity} (h : failure.reason = .odd oddity) :
    Stray (.parse failure)

theorem Refusal.not_stray {e : Error} (h : r.Refusal source input e) : ¬ Stray e := by
  intro hstray
  cases h with
  | tooLong => cases hstray
  | malformed => cases hstray with | odd h => cases h
  | unknownTerm => cases hstray with | odd h => cases h
  | misbuilt h =>
    cases hstray with
    | argument hmorpheme hpath =>
      cases h with
      | repeatedTerm => exact hmorpheme rfl
      | notAChild => exact hpath rfl
    | _ => cases h

/-! ## Forms -/

/-- **The form of a text** has an entry wherever there must be one, and its terms stand in the text,
one behind the other. -/
theorem terms_of_form? {text : List Char} {f : ExpressionForm} (h : form? text = some f) :
    f.Shaped ∧ (∀ t ∈ f.terms, t.StandsIn text) ∧
      f.terms.Pairwise fun t u => t.range.start < u.range.start := by
  obtain ⟨⟨_, d⟩, hread, rfl⟩ := Option.map_eq_some_iff.1 h
  exact Productions.terms_of_spells (Productions.read_expression.1 ⟨d, hread⟩)

/-- **A reading that fails** does so for the text, for its form, for what is not built, or for the
first term, in the order of lookup, that is not known. -/
theorem cases_error {e : Error} (h : r.parse source input = .error e) :
    (r.limits.maxBytes < input.utf8ByteSize ∧
        e = .sizeExceeded .inputBytes r.limits.maxBytes input.utf8ByteSize) ∨
      (form? input.toList = none ∧ e = formError input.toList source) ∨
      ∃ f, form? input.toList = some f ∧
        ((∃ before t after, f.lookups = before ++ t :: after ∧
            (∀ u ∈ before, (r.context source input).Knows u) ∧
            ¬ (r.context source input).Knows t ∧ e = (r.context source input).unknownTerm t) ∨
          Misbuilt r.limits.maxNodes e) := by
  rw [parse] at h
  split at h
  · next hlt =>
    cases h
    exact .inl ⟨hlt, rfl⟩
  · simp only at h
    split at h
    · next hnone =>
      cases h
      exact .inr (.inl ⟨hnone, rfl⟩)
    · next f hf =>
      have hsettles := (terms_of_form? hf).1.settles (c := r.context source input)
      have herror : f.resolve (r.context source input) = .error e := h
      rw [herror] at hsettles
      exact .inr (.inr ⟨f, hf, hsettles.cases_error⟩)

/-! ## All refusals -/

/-- **A reader refuses a text for these reasons and no other**, whether it walks over the rules that
were read or resolves the form that they give: both ways are one. -/
theorem refusals_exhausted (r : Reader) (source input : String) :
    r.walk source input = r.parse source input ∧
      ∀ e, r.walk source input = .error e → r.Refusal source input e ∧ ¬ Stray e := by
  have hsame := walk_eq_parse r source input
  refine ⟨hsame, fun e he => ?_⟩
  suffices h : r.Refusal source input e from ⟨h, h.not_stray⟩
  rcases cases_error (hsame ▸ he) with ⟨hlt, rfl⟩ | ⟨hform, rfl⟩ | ⟨f, hform, hlookup | hbuilt⟩
  · exact .tooLong hlt
  · exact .malformed hform
  · obtain ⟨before, t, after, hlookups, -, hunknown, rfl⟩ := hlookup
    have hmem : t ∈ f.terms := ExpressionForm.mem_lookups.1 (by simp [hlookups])
    exact .unknownTerm hform hmem ((terms_of_form? hform).2.1 t hmem)
      (Bool.eq_false_of_not_eq_true hunknown)
  · exact .misbuilt hbuilt

/-- A term that the small dictionary does not have, with a blank in its brackets. -/
theorem refusals_exhausted_unknown : ∃ e, Sample.reader.walk "sample" "([a.]|[ zz.])" = .error e ∧
    Sample.reader.Refusal "sample" "([a.]|[ zz.])" e ∧ ¬ Stray e ∧
      e.message = "Parse error: unknown term 'zz.' at sample:1:7" := by
  obtain ⟨hsame, hrefused⟩ := refusals_exhausted Sample.reader "sample" "([a.]|[ zz.])"
  have hread : ∃ e, Sample.reader.parse "sample" "([a.]|[ zz.])" = .error e ∧
    e.message = "Parse error: unknown term 'zz.' at sample:1:7" := ⟨_, rfl, by decide⟩
  obtain ⟨e, he, hmessage⟩ := hread
  obtain ⟨hrefusal, hstray⟩ := hrefused e (hsame.trans he)
  exact ⟨e, hsame.trans he, hrefusal, hstray, hmessage⟩

end Reader

end Metalanguage
