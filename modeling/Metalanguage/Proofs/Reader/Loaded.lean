import Metalanguage.Proofs.Dictionary.Loading
import Metalanguage.Proofs.Reader.Reread

/-!
# Proofs/Reader/Loaded — a loaded dictionary and its scripts in texts

The pattern that loading asks of scripts admits only what the grammar reads as a term, in brackets
and without. So every script of a dictionary is a text that is read as its term
(`Dictionary.Accepted.reads`), and loading is specified from the entries to the terms that texts
hold (`Dictionary.loaded_from_entries`).
-/

namespace Metalanguage

open Grammar

/-- A script that can be a term is held by itself. -/
theorem holdsScript_self {script : String} (h : Script.isValid script = true) :
    HoldsScript script script where
  exists_blanks := ⟨[], [], by simp, blank_nil, blank_nil⟩
  ne_nil := Script.ne_nil_of_isValid h
  chars := List.all_eq_true.1 (Bool.and_eq_true_iff.1 h).1

theorem Reader.exists_form?_canonical {t : Term} (h : Script.isValid t.script = true) :
    ∃ range, form? t.canonical.toList = some (.part (.term ⟨range, t.script⟩)) := by
  have hterm : Writes (.map (ExpressionForm.part ∘ PartForm.term) Productions.term)
      (fun f t => ∃ range, f = .part (.term ⟨range, t.script⟩)) t.canonical.toList t :=
    (Term.writes h).map _ fun {f} hf => ⟨f.range, by rw [← show f.script = _ from hf]; rfl⟩
  have hwrites : Writes Productions.anyExpression
      (fun f t => ∃ range, f = .part (.term ⟨range, t.script⟩)) t.canonical.toList t :=
    ((((((hterm.left _).right _).right _).right _).right _).right _).right _
  obtain ⟨_, hform, range, rfl⟩ := exists_form?_eq hwrites
  exact ⟨range, hform⟩

namespace Dictionary

/-- **A text is read as a term** of the dictionary: the grammar reads a form that the dictionary
resolves to it, and so does any reader whose limit admits the text. -/
structure Reads (d : Dictionary) (text : String) (t : Term) : Prop where
  form : ∃ f, Reader.form? text.toList = some f ∧ ∀ maxNodes source,
    f.resolve ⟨d, maxNodes, source, text.toList⟩ = .ok (.part (.term t))
  parse : ∀ (limits : Limits) source, text.utf8ByteSize ≤ limits.maxBytes →
    Reader.parse ⟨d, limits⟩ source text = .ok (.part (.term t))

theorem Reads.of_form {d : Dictionary} {text : String} {t : Term} {f : ExpressionForm}
    (hf : Reader.form? text.toList = some f) (h : ∀ maxNodes source,
      f.resolve ⟨d, maxNodes, source, text.toList⟩ = .ok (.part (.term t))) : d.Reads text t where
  form := ⟨f, hf, h⟩
  parse limits source hbytes := by
    rw [Reader.parse, if_neg (Nat.not_lt.2 hbytes)]
    simp only [hf, h]

theorem Accepted.resolve_eq {d : Dictionary} (h : d.Accepted) {t : Term} (ht : t ∈ d.terms)
    (range : ByteRange) (maxNodes : ℕ) (source : String) (text : List Char) :
    ExpressionForm.resolve ⟨d, maxNodes, source, text⟩ (.part (.term ⟨range, t.script⟩)) =
      .ok (.part (.term t)) := by
  simp only [ExpressionForm.resolve, PartForm.resolve, TermForm.resolve, h.term?_eq ht]
  rfl

/-- **Every script is read as its term**, bare and in brackets. -/
theorem Accepted.reads {d : Dictionary} (h : d.Accepted) {t : Term} (ht : t ∈ d.terms) :
    d.Reads t.script t ∧ d.Reads ("[" ++ t.script ++ "]") t := by
  obtain ⟨range, hbare⟩ := (holdsScript_self (h.valid ht)).exists_form?_eq
  obtain ⟨range', hbracketed⟩ := Reader.exists_form?_canonical (h.valid ht)
  exact ⟨.of_form hbare fun _ _ => h.resolve_eq ht _ _ _ _,
    .of_form hbracketed fun _ _ => h.resolve_eq ht _ _ _ _⟩

/-- **What loading does.** Entries are accepted exactly if their scripts match the pattern, are
distinct, and are all that relations lead to; no order of the entries makes a difference; and a
dictionary tabulates the entries it was made of, each of whose scripts is a text that is read as the
term. -/
theorem loaded_from_entries (home : ℕ) (version : Option String) (entries : List TermEntry) :
    ((∃ d, ofEntries home version entries = .ok d) ↔
      (∀ e ∈ entries, Script.Pattern e.script) ∧ (entries.map (·.script)).Nodup ∧
        ∀ e ∈ entries, ∀ relation ∈ e.relations, ∀ target ∈ relation.2,
          ∃ f ∈ entries, f.script = target) ∧
      (∀ entries' : List TermEntry, entries.Perm entries' → ∀ d,
        ofEntries home version entries = .ok d ↔ ofEntries home version entries' = .ok d) ∧
      ∀ d, ofEntries home version entries = .ok d → d.Tabulates entries ∧
        ∀ t ∈ d.terms, d.Reads t.script t ∧ d.Reads ("[" ++ t.script ++ "]") t := by
  refine ⟨?_, fun entries' hperm d => ofEntries_perm hperm, fun d hd =>
    ⟨tabulates_of_ofEntries hd, fun t ht => (accepted_of_ofEntries hd).reads ht⟩⟩
  rw [exists_ofEntries_iff]
  exact ⟨fun h => ⟨h.pattern, h.distinct, h.related⟩, fun ⟨h, h', h''⟩ => ⟨h, h', h''⟩⟩

end Dictionary

/-! ## A sample -/

namespace Sample

/-- Entries out of order, of three layers, with relations that lead ahead, repeat and stand unsorted.
-/
def relatedEntries : List TermEntry :=
  [⟨"b.", .noun, []⟩, ⟨"a-", .verb, [("near", ["s:", "b.", "s:"])]⟩, ⟨"s:", .noun, [("up", ["a-"])]⟩,
    ⟨"a.", .noun, []⟩]

/-- The dictionary of these. By their scripts alone the first and the last term would change places.
-/
def relatedDictionary : Dictionary :=
  ⟨none, 0, [⟨"s:", 0, .noun, ⟨[("up", ["a-"])]⟩, 0⟩, ⟨"a.", 1, .noun, ⟨[]⟩, 0⟩,
    ⟨"b.", 2, .noun, ⟨[]⟩, 0⟩, ⟨"a-", 3, .verb, ⟨[("near", ["b.", "s:"])]⟩, 0⟩]⟩

end Sample

/-- Four entries are loaded, as they are listed and in reverse, and stand by their layers. -/
theorem Dictionary.loaded_from_entries_related :
    ofEntries 0 none Sample.relatedEntries.reverse = .ok Sample.relatedDictionary ∧
      Sample.relatedDictionary.Tabulates Sample.relatedEntries ∧
      Sample.relatedDictionary.terms.map (fun t => (t.script, t.layer)) =
        [("s:", 0), ("a.", 1), ("b.", 1), ("a-", 2)] ∧
      Reader.parse ⟨Sample.relatedDictionary, ⟨3, 200⟩⟩ "sample" "[a-]" =
        .ok (.part (.term ⟨"a-", 3, .verb, ⟨[("near", ["b.", "s:"])]⟩, 0⟩)) := by
  have hd : ofEntries 0 none Sample.relatedEntries = .ok Sample.relatedDictionary := rfl
  obtain ⟨-, hperm, hloaded⟩ := loaded_from_entries 0 none Sample.relatedEntries
  obtain ⟨htabulates, hreads⟩ := hloaded _ hd
  have hterm : ⟨"a-", 3, .verb, ⟨[("near", ["b.", "s:"])]⟩, 0⟩ ∈ Sample.relatedDictionary.terms :=
    .tail _ (.tail _ (.tail _ (.head _)))
  exact ⟨(hperm _ (List.reverse_perm _).symm _).1 hd, htabulates, rfl,
    (hreads _ hterm).2.parse ⟨3, 200⟩ "sample" (by decide)⟩

end Metalanguage
