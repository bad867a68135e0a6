import Metalanguage.Proofs.Grammar.Balance
import Metalanguage.Proofs.Grammar.LiteralPlaces
import Metalanguage.Proofs.Reader.Lockstep

/-!
# Proofs/Reader/Scanned — the bracket scan and the grammar see the same text

The scan that counts brackets knows no grammar: it passes over a text character by character. On a
text that the grammar reads it finds every pair even, and it is within a literal exactly where the
grammar is (`ScannedAlike`, `Reader.scanned_as_read`). So a pair that it names is in no text that
holds an expression.
-/

namespace Metalanguage

open Metalanguage.Bracket

/-- **The scan of a text agrees** with these literals in it. -/
structure ScannedAlike (text : List Char) (literals : List ByteRange) : Prop where
  /-- No pair is named: each has as many opening as closing brackets. -/
  even : unbalanced? text = none
  /-- The literals that the scan passes are these, in the order of the text. -/
  passed : literalsIn text = literals
  /-- The scan counts what follows a piece of the text unless it is behind the opening bracket of one
  of these literals and before its end. -/
  within : ∀ before after, text = before ++ after → (Zone.outside.behind before ≠ .outside ↔
    ∃ r ∈ literals, r.start < byteLength before ∧ byteLength before < r.stop)

namespace Reader

variable {text : List Char}

/-- No pair is uneven in a text that is read. -/
theorem even_of_form? {f : ExpressionForm} (h : form? text = some f) : unbalanced? text = none := by
  obtain ⟨t, ht⟩ := form?_eq_some_iff.1 h
  exact unbalanced?_eq_none_iff.2 fun b =>
    Grammar.surplus_outsideLiterals rfl (Productions.surplus?_expression b) ht.spaced

/-- The rules that a text is read by stand for its literals where the scan passes them. -/
theorem passes_of_form? {f : ExpressionForm} (h : form? text = some f) :
    ∃ ts, Productions.expression.trees? text = some ts ∧
      Passes 0 text (RuleTree.stretchesAll .literal ts) := by
  obtain ⟨⟨x, d⟩, hread, -⟩ := Option.map_eq_some_iff.1 h
  have hend := Productions.rest_of_read_expression hread
  rw [Grammar.read_eq_annotated, Option.map_eq_some_iff] at hread
  obtain ⟨⟨⟨x', ts⟩, e⟩, hannotated, heq⟩ := hread
  obtain ⟨-, rfl⟩ := Prod.mk.inj heq
  obtain ⟨cs, hpass, hs⟩ := Grammar.spells_of_read _ hannotated
  have hrest : e.rest = [] := hend
  have htext : text = cs := by simpa [Cursor.start, hrest] using hpass.rest
  rw [← htext] at hs
  exact ⟨ts, by rw [Grammar.trees?, hannotated]; rfl, Grammar.passes_of_spells _ rfl hs⟩

/-- **The scan agrees with the grammar** on every text that holds an expression: no pair is named, and
literals start and end where the grammar has them. A text of which a pair is named holds none. -/
theorem scanned_as_read (text : List Char) :
    (∀ f, form? text = some f → ∃ ts, Productions.expression.trees? text = some ts ∧
      ScannedAlike text (RuleTree.stretchesAll .literal ts)) ∧
      ∀ b, unbalanced? text = some b → form? text = none := by
  refine ⟨fun f h => ?_, fun b hb => ?_⟩
  · obtain ⟨ts, hts, hpasses⟩ := passes_of_form? h
    have hpassed : literalsIn text = RuleTree.stretchesAll .literal ts := by
      simpa [literalsIn, literalsFrom] using hpasses.literals 0 []
    refine ⟨ts, hts, even_of_form? h, hpassed, ?_⟩
    rintro before after rfl
    have hwithin := @behind_ne_outside_iff before .outside 0 0 after (fun h => absurd rfl h)
      hpasses.behind
    rw [← hpassed]
    simpa [literalsIn] using hwithin
  · cases hf : form? text with
    | none => rfl
    | some f => rw [even_of_form? hf] at hb; cases hb

/-- A literal that holds brackets and an escaped `>`, in a text that is read; and a bracket left open
in one that is not. -/
theorem scanned_as_read_brackets :
    (∃ ts, Productions.expression.trees? "[([a.])]<(\\>[>".toList = some ts ∧
      RuleTree.stretchesAll .literal ts = [⟨8, 14⟩] ∧
      unbalanced? "[([a.])]<(\\>[>".toList = none) ∧
      unbalanced? "([a.]".toList = some .round ∧ form? "([a.]".toList = none := by
  have hread : ∃ f, form? "[([a.])]<(\\>[>".toList = some f := ⟨_, rfl⟩
  obtain ⟨f, hf⟩ := hread
  obtain ⟨ts, hts, halike⟩ := (scanned_as_read _).1 f hf
  have hround : unbalanced? "([a.]".toList = some .round := by decide
  refine ⟨⟨ts, hts, ?_, halike.even⟩, hround, (scanned_as_read _).2 _ hround⟩
  rw [← halike.passed]
  decide

end Reader

end Metalanguage
