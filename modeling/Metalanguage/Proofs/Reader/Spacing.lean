import Metalanguage.Proofs.Expression.Built
import Metalanguage.Proofs.Grammar.Unambiguous
import Metalanguage.Proofs.Reader.Lockstep

/-!
# Proofs/Reader/Spacing — what is read does not depend on blanks

The forms that one derivation gives in two texts differ in the places of their terms at most, so
they resolve to the same expression, or to errors that differ in the place that they point at
(`Agree`): one builder in lockstep with itself (`Lockstep.exact`). With the reading of whole texts
this says what the reader accepts, and what it makes of it (`Reader.grammar_read_exactly`).
-/

namespace Metalanguage

open List (Forall₂)

/-! ## Errors up to their place -/

/-- An error without the place that it points at. -/
def Error.unplaced : Error → Error
  | .parse f => .parse { f with range := ⟨0, 0⟩, place := ⟨1, 1⟩ }
  | e => e

/-- **The same result**, or the same error but for the place that it points at. -/
def Agree {α : Type} (x y : Except Error α) : Prop :=
  x.mapError Error.unplaced = y.mapError Error.unplaced

/-- Outcomes that are the same up to places agree. -/
theorem Agree.of_outcome {α : Type} {x y : Except Error α}
    (h : Outcomes .nothing (fun e e' => e.unplaced = e'.unplaced) Eq x y) : Agree x y := by
  cases h with
  | refused hv => cases hv
  | error he => exact congrArg Except.error he
  | ok hab => exact congrArg Except.ok hab

/-! ## Exactly the same -/

/-- A proposition is known by the part that it is. -/
theorem Proposition.toPart_injective : Function.Injective toPart := fun p q h => by
  have hpart := congrArg Proposition.ofPart? h
  rw [ofPart?_toPart, ofPart?_toPart] at hpart
  exact Option.some.inj hpart

open Variation in
/-- **A builder in lockstep with itself**: where only blanks differ, the results are the same. -/
def Lockstep.exact (same : Error → Error → Prop) (hsame : ∀ e, same e e) {c c' : Context}
    (hdictionary : c.dictionary = c'.dictionary) (hmaxNodes : c.maxNodes = c'.maxNodes)
    (hunknown : ∀ {f f' : TermForm}, f.script = f'.script →
      same (c.unknownTerm f) (c'.unknownTerm f')) : Lockstep .nothing same c c' where
  alike := Eq
  embed _ _ _ h := congrArg _ h
  term {f f'} h := by
    rw [TermForm.resolve, TermForm.resolve, ← hdictionary, ← h]
    cases c.dictionary.term? f.script with
    | some t => exact .ok rfl
    | none => exact .error (hunknown h)
  morpheme h := eq_of_forall₂ h ▸ .of_eq hsame (fun _ => rfl) _
  word h hmode hliterals := by
    cases h
    cases hliterals.eq
    cases hmode with
    | none => rfl
    | some hmode => rw [hmode]
  clause ha hb hm := by
    subst ha hb hm
    exact .of_eq hsame (fun _ => rfl) _
  sentence h hliterals := by
    cases eq_of_forall₂ h
    cases hliterals.eq
    rw [← hmaxNodes]
    exact Outcomes.of_eq hsame (R := fun s t : Sentence _ => s.withLiterals _ = t.withLiterals _)
      (fun _ => rfl) _
  text h := by
    cases eq_of_forall₂ (h.imp fun _ _ hpq => Proposition.toPart_injective hpq)
    exact .of_eq hsame (fun _ => rfl) _
  path h := eq_of_forall₂ h ▸ .of_eq hsame (fun _ => rfl) _
  link hs ht hp := by
    subst hs ht hp
    exact .of_eq hsame (fun _ => rfl) _
  hypertext h := eq_of_forall₂ h ▸ .of_eq hsame (fun _ => rfl) _

/-- A derivation is related to itself, whatever may differ. -/
theorem Related.refl (v : Variation) (t : Productions.expression.Derivation) : Related v t t :=
  Change.of_bare _ rfl

/-! ## A sample -/

namespace Sample

/-- A script. -/
def script : Productions.script.Derivation :=
  ⟨['a', '.'], List.cons_ne_nil _ _,
    List.forall_mem_cons.2 ⟨rfl, List.forall_mem_singleton.2 rfl⟩⟩

/-- The derivation of a term in brackets. -/
def term : Productions.expression.Derivation :=
  ((), .inr (.inr (.inr (.inr (.inr (.inr (.inl ((), script, ()))))))), ())

theorem term_generated : Generates term "[a.]".toList :=
  .cons blank_nil _ (.cons blank_nil _ (.cons blank_nil _ (.nil blank_nil)))

theorem spacedTerm_generated : Generates term " [ a.\n]".toList :=
  have hspace : Blank [' '] := List.forall_mem_singleton.2 rfl
  have hline : Blank ['\n'] := List.forall_mem_singleton.2 rfl
  .cons hspace _ (.cons hspace _ (.cons hline _ (.nil blank_nil)))

end Sample

namespace Reader

/-- **Blanks between tokens do not matter** to what is read. -/
theorem agree_parse (r : Reader) (source : String) {input input' : String}
    {t : Productions.expression.Derivation} (h : Generates t input.toList)
    (h' : Generates t input'.toList) (hbytes : input.utf8ByteSize ≤ r.limits.maxBytes)
    (hbytes' : input'.utf8ByteSize ≤ r.limits.maxBytes) :
    Agree (r.parse source input) (r.parse source input') := by
  have hunknown : ∀ {f f' : TermForm}, f.script = f'.script →
      ((r.context source input).unknownTerm f).unplaced =
        ((r.context source input').unknownTerm f').unplaced := fun h => by
    simp [Error.unplaced, Context.unknownTerm, context, h]
  let k : Lockstep .nothing _ (r.context source input) (r.context source input') :=
    .exact (fun e e' => e.unplaced = e'.unplaced) (fun _ => rfl) rfl rfl hunknown
  exact .of_outcome (outcome_parse k h h' (.refl _ t) hbytes hbytes')

/-- **The reader accepts what the grammar generates**, alternatives without order and repetitions
without greed. A text has one derivation, and is read as the form that this gives there; and what
another text of the same derivation is read as, with other blanks around the tokens, agrees. -/
theorem grammar_read_exactly :
    (∀ text, (form? text).isSome = true ↔ ∃ t, Generates t text) ∧
      (∀ text t u, Generates t text → Generates u text → t = u) ∧
      (∀ text t, Generates t text → ∃ f, form? text = some f ∧
        Productions.expression.Stands t 0 text f) ∧
      ∀ (r : Reader) (source input input' : String) (t : Productions.expression.Derivation),
        Generates t input.toList → Generates t input'.toList →
          input.utf8ByteSize ≤ r.limits.maxBytes → input'.utf8ByteSize ≤ r.limits.maxBytes →
            Agree (r.parse source input) (r.parse source input') := by
  refine ⟨fun text => ?_, fun text t u ht hu => ?_, fun text t ht => ?_,
    fun r source input input' t => r.agree_parse source⟩
  · rw [Option.isSome_iff_exists]
    constructor
    · rintro ⟨f, hf⟩
      obtain ⟨t, ht⟩ := form?_eq_some_iff.1 hf
      exact ⟨t, ht.spaced⟩
    · rintro ⟨t, ht⟩
      obtain ⟨f, hf⟩ := exists_stands_of_generates ht
      exact ⟨f, form?_eq_some_iff.2 ⟨t, hf⟩⟩
  · obtain ⟨f, hf⟩ := exists_stands_of_generates ht
    obtain ⟨g, hg⟩ := exists_stands_of_generates hu
    exact Productions.derivation_unique hf hg
  · obtain ⟨f, hf⟩ := exists_stands_of_generates ht
    exact ⟨f, form?_eq_some_iff.2 ⟨t, hf⟩, hf⟩

/-- A term with blanks around its marks is read, and like the same term without. -/
theorem grammar_read_exactly_term :
    (form? " [ a.\n]".toList).isSome = true ∧
      Agree (parse ⟨Sample.dictionary, ⟨3, 200⟩⟩ "sample" "[a.]")
        (parse ⟨Sample.dictionary, ⟨3, 200⟩⟩ "sample" " [ a.\n]") := by
  obtain ⟨haccept, -, -, hagree⟩ := grammar_read_exactly
  exact ⟨(haccept _).2 ⟨_, Sample.spacedTerm_generated⟩,
    hagree _ _ _ _ _ Sample.term_generated Sample.spacedTerm_generated (by decide) (by decide)⟩

end Reader

end Metalanguage
