import Metalanguage.Proofs.Reader.Refusal

/-!
# Proofs/Reader/FirstUnknown — which unknown term is reported

A reading that ends on a term that the dictionary does not have reports the first such term in the
order of lookup. This is the leftmost one, unless it stands in the target of a link: then the steps to
this target, which stand in front of it, may hold unknown terms too (`Reader.unknown_term_reported`).
-/

namespace Metalanguage

/-- A link with an unknown term in the step to its target, and another one in the target. -/
def Sample.crossed : String := "{/[([a.])]>([zz.]){/[([yy.])]/}/}"

namespace Reader

variable {r : Reader} {source input : String}

/-- **The unknown term that is reported** is one of the text, and it is where the report says. None
starts before it, unless in the steps of a link whose target holds it. -/
theorem unknown_term_reported {failure : ParseFailure} {script : String}
    (h : r.parse source input = .error (.parse failure))
    (hreason : failure.reason = .unknownTerm script) :
    ∃ f, form? input.toList = some f ∧ ∃ t ∈ f.terms,
      t.script = script ∧ t.range = failure.range ∧ t.StandsIn input.toList ∧
        r.dictionary.contains t.script = false ∧
        ∀ u ∈ f.terms, r.dictionary.contains u.script = false → u.range.start < t.range.start →
          ∃ link ∈ f.links, link.Crosses t u := by
  rcases cases_error h with ⟨-, htoo⟩ | ⟨-, hform⟩ | ⟨f, hform, hlookup | hbuilt⟩
  · cases htoo
  · cases hform
    cases hreason
  · obtain ⟨before, t, after, hlookups, hknown, hunknown, hfailure⟩ := hlookup
    cases hfailure
    cases hreason
    obtain ⟨-, hstands, hordered⟩ := terms_of_form? hform
    have hmem : t ∈ f.terms := ExpressionForm.mem_lookups.1 (by simp [hlookups])
    refine ⟨f, hform, t, hmem, rfl, rfl, hstands t hmem, Bool.eq_false_of_not_eq_true hunknown,
      fun u hu hunknown' hlt => ?_⟩
    -- all that was looked up before `t` is known
    have hbefore : u ∉ before := fun hu => Bool.eq_false_iff.1 hunknown' (hknown u hu)
    exact ExpressionForm.exists_crosses hordered hlookups hu hbefore hlt
  · cases hbuilt

/-- The unknown term of the target is reported, and what is unknown before it is in the step. -/
theorem unknown_term_reported_crossed : ∃ failure,
    Sample.reader.parse "sample" Sample.crossed = .error (.parse failure) ∧
      failure.reason = .unknownTerm "yy." ∧
      ∃ f, form? Sample.crossed.toList = some f ∧ ∃ t ∈ f.terms, t.script = "yy." ∧
        t.range = failure.range ∧ t.StandsIn Sample.crossed.toList ∧
        Sample.dictionary.contains t.script = false ∧
        ∀ u ∈ f.terms, Sample.dictionary.contains u.script = false →
          u.range.start < t.range.start → ∃ link ∈ f.links, link.Crosses t u := by
  have hread : ∃ failure, Sample.reader.parse "sample" Sample.crossed = .error (.parse failure) ∧
    failure.reason = .unknownTerm "yy." := ⟨_, rfl, rfl⟩
  obtain ⟨failure, hfailure, hreason⟩ := hread
  exact ⟨failure, hfailure, hreason, unknown_term_reported hfailure hreason⟩

/-- The term that is reported is not the first one that is unknown: another one stands before it. -/
theorem later_unknown_term_reported : ∃ f failure t u, form? Sample.crossed.toList = some f ∧
    Sample.reader.parse "sample" Sample.crossed = .error (.parse failure) ∧
      failure.reason = .unknownTerm t.script ∧ failure.range = t.range ∧ t ∈ f.terms ∧
      u ∈ f.terms ∧ Sample.dictionary.contains u.script = false ∧
      u.range.start < t.range.start :=
  ⟨_, _, ⟨⟨22, 27⟩, "yy."⟩, ⟨⟨12, 17⟩, "zz."⟩, rfl, rfl, rfl, rfl, by decide, by decide, by decide,
    by decide⟩

end Reader

end Metalanguage
