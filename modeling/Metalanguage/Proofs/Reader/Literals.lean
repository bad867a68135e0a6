import Metalanguage.Proofs.Expression.Indistinct
import Metalanguage.Proofs.Grammar.Bare
import Metalanguage.Proofs.Grammar.Unambiguous
import Metalanguage.Proofs.Reader.HypertextLiterals
import Metalanguage.Proofs.Reader.Level

/-!
# Proofs/Reader/Literals — literals influence nothing but themselves

Two texts of one bare text differ in blanks and literals only. Then their derivations do
(`related_of_bareText`), so that they are read in lockstep: both are refused, for the same cause, or
both are read, as expressions that nothing tells apart but their literals (`Reader.literals_apart`).
-/

namespace Metalanguage

/-- Texts of one bare text have derivations that differ in literals at most. -/
theorem related_of_bareText {t u : Productions.expression.Derivation} {text text' : List Char}
    (ht : Generates t text) (hu : Generates u text') (h : bareText text = bareText text') :
    Related .literals t u := by
  have hspaced := Grammar.spaced_bareText rfl ht
  have hspaced' := Grammar.spaced_bareText rfl hu
  rw [h] at hspaced
  obtain ⟨f, hf⟩ := exists_stands_of_generates hspaced
  obtain ⟨f', hf'⟩ := exists_stands_of_generates hspaced'
  have hbare := Productions.derivation_unique hf hf'
  exact Change.of_bare _ (congrArg (fun t => t.2.1) hbare)

namespace Reader

/-- **Literals influence nothing but themselves.** Accepted texts that differ in blanks and literals
only are both refused, with one error up to places and quoted literals, or both read, as expressions
that nothing tells apart but what shows their literals. -/
theorem literals_apart {r : Reader} (hr : r.dictionary.Accepted) (source : String)
    {input input' : String} (haccept : (form? input.toList).isSome = true)
    (haccept' : (form? input'.toList).isSome = true)
    (hbare : bareText input.toList = bareText input'.toList)
    (hbytes : input.utf8ByteSize ≤ r.limits.maxBytes)
    (hbytes' : input'.utf8ByteSize ≤ r.limits.maxBytes) :
    (∃ e e', r.parse source input = .error e ∧ r.parse source input' = .error e' ∧
        e.gist = e'.gist) ∨
      ∃ x y, r.parse source input = .ok x ∧ r.parse source input' = .ok y ∧ x.Indistinct y := by
  obtain ⟨f, hf⟩ := Option.isSome_iff_exists.1 haccept
  obtain ⟨f', hf'⟩ := Option.isSome_iff_exists.1 haccept'
  obtain ⟨t, ht⟩ := form?_eq_some_iff.1 hf
  obtain ⟨u, hu⟩ := form?_eq_some_iff.1 hf'
  let k : Lockstep .literals _ (r.context source input) (r.context source input') :=
    .level .literals rfl rfl rfl
  have houtcome : LevelOutcomes .literals (r.parse source input) (r.parse source input') :=
    outcome_parse k ht.spaced hu.spaced (related_of_bareText ht.spaced hu.spaced hbare)
      hbytes hbytes'
  cases hx : r.parse source input with
  | error e =>
    cases hy : r.parse source input' with
    | error e' =>
      rw [hx, hy] at houtcome
      cases houtcome with
      | refused hv => cases hv
      | error he => exact .inl ⟨e, e', rfl, rfl, he⟩
    | ok y => rw [hx, hy] at houtcome; nomatch houtcome
  | ok x =>
    obtain ⟨y, hy, hlevel⟩ := houtcome.exists_ok hx
    exact .inr ⟨x, y, rfl, hy, (built_of_parse hx).indistinct hr (built_of_parse hy) hlevel⟩

/-- A sentence with three literals is read like the one without. -/
theorem literals_apart_sentence : ∃ x y,
    Sample.reader.parse "sample" "[([([a.])]<one>*[([b.])]*[([s.])]<two>)]<three>" = .ok x ∧
      Sample.reader.parse "sample" "[([([a.])]*[([b.])]*[([s.])])]" = .ok y ∧ x.Indistinct y := by
  refine (literals_apart Sample.accepted "sample" (by decide +kernel) (by decide +kernel)
    (by decide +kernel) (by decide) (by decide)).resolve_left ?_
  rintro ⟨e, e', -, he', -⟩
  have hok : (Sample.reader.parse "sample" "[([([a.])]*[([b.])]*[([s.])])]").isOk = true := by
    decide +kernel
  rw [he'] at hok
  cases hok

end Reader

end Metalanguage
