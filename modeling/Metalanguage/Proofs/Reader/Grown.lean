import Metalanguage.Proofs.Expression.Indistinct
import Metalanguage.Proofs.Reader.Follows
import Metalanguage.Proofs.Reader.Resolved

/-!
# Proofs/Reader/Grown — a dictionary that grows

More entries shift the numbers of all terms, but nothing depends on these: a text whose scripts were
all known is read by the grown dictionary as by the old one, as the expression of the same terms in
their new places, which nothing can tell from the old expression (`Dictionary.grown`). Expressions
over both dictionaries compare and sort as those over the new one do.
-/

namespace Metalanguage

open Std Ordered

/-! ## Counterparts -/

namespace Dictionary

/-- The term of a dictionary that has the script and the class of `t`; without one, `t` itself. -/
def counterpart (d : Dictionary) (t : Term) : Term :=
  ((d.term? t.script).filter (·.grammaticalClass == t.grammaticalClass)).getD t

theorem exchange_counterpart (d : Dictionary) : Exchange d.counterpart := by
  have hfound : ∀ t : Term, (d.counterpart t).script = t.script ∧
      (d.counterpart t).grammaticalClass = t.grammaticalClass := by
    intro t
    rw [counterpart]
    cases hu : (d.term? t.script).filter (·.grammaticalClass == t.grammaticalClass) with
    | none => exact ⟨rfl, rfl⟩
    | some u =>
      obtain ⟨hterm, hclass⟩ := Option.filter_eq_some_iff.1 hu
      exact ⟨by simpa using List.find?_some hterm, by simpa using hclass⟩
  exact ⟨fun t => (hfound t).1, fun t => (hfound t).2⟩

/-- **Every term has a counterpart** in a dictionary that has grown. -/
def Grown (d d' : Dictionary) : Prop :=
  ∀ t ∈ d.terms, ∃ u ∈ d'.terms, u.script = t.script ∧ u.grammaticalClass = t.grammaticalClass

variable {d d' : Dictionary}

/-- A dictionary grows with its entries; relations do not matter. -/
theorem grown_of_entries {home home' : ℕ} {version version' : Option String}
    {entries entries' : List TermEntry} (hd : ofEntries home version entries = .ok d)
    (hd' : ofEntries home' version' entries' = .ok d')
    (h : ∀ e ∈ entries, ∃ e' ∈ entries',
      e'.script = e.script ∧ e'.grammaticalClass = e.grammaticalClass) : Grown d d' := by
  intro t ht
  obtain ⟨e, he, hscript, hclass⟩ := (exists_term_iff hd).1 ⟨t, ht, rfl, rfl⟩
  obtain ⟨e', he', hscript', hclass'⟩ := h e he
  exact (exists_term_iff hd').2 ⟨e', he', hscript'.trans hscript, hclass'.trans hclass⟩

theorem Accepted.term?_counterpart (hd' : d'.Accepted) {t u : Term} (hu : u ∈ d'.terms)
    (hscript : u.script = t.script) (hclass : u.grammaticalClass = t.grammaticalClass) :
    d'.term? t.script = some (d'.counterpart t) ∧ d'.counterpart t = u := by
  have hterm : d'.term? t.script = some u := hscript ▸ hd'.term?_eq hu
  have hcounterpart : d'.counterpart t = u := by
    simp [counterpart, hterm, Option.filter_some, hclass]
  exact ⟨hcounterpart ▸ hterm, hcounterpart⟩

/-- A term is its own counterpart. -/
theorem Accepted.counterpart_eq (hd' : d'.Accepted) {t : Term} (ht : t ∈ d'.terms) :
    d'.counterpart t = t := (hd'.term?_counterpart ht rfl rfl).2

theorem Grown.into (h : Grown d d') (hd' : d'.Accepted) :
    d.stock.Into d'.counterpart d'.stock where
  term {t} ht := by
    obtain ⟨u, hu, hscript, hclass⟩ := h t ht
    rw [(hd'.term?_counterpart hu hscript hclass).2]
    exact hu
  literal := id

end Dictionary

/-! ## Expressions over a grown dictionary -/

/-- What is built of a stock is built of a larger one. -/
theorem Expression.Built.mono {k k' : Stock} (hterm : ∀ {t}, k.term t → k'.term t)
    (hliteral : ∀ {l}, k.literal l → k'.literal l) {x : Expression} (h : x.Built k) :
    x.Built k' := by
  have hmap := h.mapTerms .id ⟨hterm, hliteral⟩
  rwa [mapTerms_id] at hmap

/-- **An expression takes the place of another** over a dictionary: it is built there, nothing tells
it from the other one, and it is written alike. -/
structure Expression.Replaces (d : Dictionary) (y x : Expression) : Prop where
  built : y.Built d.stock
  indistinct : x.Indistinct y
  display : y.display = x.display

theorem Expression.Built.replaces {d d' : Dictionary} (hd : d.Accepted) (hd' : d'.Accepted)
    (hgrown : d.Grown d') {x : Expression} (hx : x.Built d.stock) :
    (x.mapTerms d'.counterpart).Replaces d' x := by
  have hφ := d'.exchange_counterpart
  have hy := hx.mapTerms hφ (hgrown.into hd')
  refine ⟨hy, ?_, hφ.expression_display x⟩
  -- both are built of the terms of either dictionary
  let both : Stock := ⟨fun t => t ∈ d.terms ∨ t ∈ d'.terms, fun _ => True⟩
  have hlegible : both.Legible .canonical := ⟨fun ht => ht.elim hd.valid hd'.valid, nofun⟩
  have hx' : x.Built both := hx.mono Or.inl fun _ => trivial
  exact hx'.indistinct_of_class hlegible (hy.mono Or.inr fun _ => trivial)
    (OrientedCmp.eq_symm (hφ.expression x)) (hφ.expression_class x).symm

/-! ## Readings -/

/-- The error that a script is unknown. -/
def Error.IsUnknownTerm (e : Error) : Prop :=
  ∃ failure script, e = .parse failure ∧ failure.reason = .unknownTerm script

/-- Looking up by the grown dictionary follows. -/
theorem Reader.follows_grown {d d' : Dictionary} (hd' : d'.Accepted) (hgrown : d.Grown d')
    (limits : Limits) (source input : String) : Follows Error.IsUnknownTerm
      (·.mapTerms d'.counterpart) (parse ⟨d, limits⟩ source input)
      (parse ⟨d', limits⟩ source input) := by
  refine follows_parse ⟨d'.exchange_counterpart, fun script => ?_, .inl rfl, rfl, rfl⟩ (.inl rfl)
  change d'.term? script = (d.term? script).map _ ∨ d.term? script = none ∧ _
  cases hterm : d.term? script with
  | none => exact .inr ⟨rfl, fun failure hreason => ⟨failure, script, rfl, hreason⟩⟩
  | some t =>
    obtain ⟨u, hu, hscript, hclass⟩ := hgrown t (List.mem_of_find?_eq_some hterm)
    have hspelled : t.script = script := by simpa using List.find?_some hterm
    exact .inl (hspelled ▸ (hd'.term?_counterpart hu hscript hclass).1)

/-- **A dictionary may grow.** If every entry of a dictionary is one of another, with its class, then
whatever the first reads without an unknown script the other reads too: the same error, or an
expression that takes the place of the first. And any expression over the first dictionary has one in
its place over the second, which orders, equalities and sorting cannot tell from it; expressions over
the second stay as they are. -/
theorem Dictionary.grown {home home' : ℕ} {version version' : Option String}
    {entries entries' : List TermEntry} {d d' : Dictionary}
    (hd : ofEntries home version entries = .ok d)
    (hd' : ofEntries home' version' entries' = .ok d')
    (h : ∀ e ∈ entries, ∃ e' ∈ entries',
      e'.script = e.script ∧ e'.grammaticalClass = e.grammaticalClass) :
    (∀ limits source input,
        (∀ e, Reader.parse ⟨d, limits⟩ source input = .error e → ¬ e.IsUnknownTerm) →
          (∀ e, Reader.parse ⟨d, limits⟩ source input = .error e →
            Reader.parse ⟨d', limits⟩ source input = .error e) ∧
          ∀ x, Reader.parse ⟨d, limits⟩ source input = .ok x →
            ∃ y, Reader.parse ⟨d', limits⟩ source input = .ok y ∧ y.Replaces d' x) ∧
      (∀ x : Expression, x.Built d.stock → (x.mapTerms d'.counterpart).Replaces d' x) ∧
      (∀ t ∈ d'.terms, d'.counterpart t = t) ∧
      ∀ xs : List Expression, sort compare (xs.map (·.mapTerms d'.counterpart)) =
        (sort compare xs).map (·.mapTerms d'.counterpart) := by
  have hacc : d.Accepted := ⟨home, version, entries, hd⟩
  have hacc' : d'.Accepted := ⟨home', version', entries', hd'⟩
  have hgrown := grown_of_entries hd hd' h
  refine ⟨fun limits source input hknown => ?_, fun x hx => hx.replaces hacc hacc' hgrown,
    fun t ht => hacc'.counterpart_eq ht,
    sort_map (compare_map_of_level d'.exchange_counterpart.expression)⟩
  have hmap := (Reader.follows_grown hacc' hgrown limits source input).eq_map
    fun e he heq => hknown e heq he
  refine ⟨fun e he => by rw [hmap, he]; rfl, fun x hx => ⟨x.mapTerms d'.counterpart, ?_, ?_⟩⟩
  · rw [hmap, hx]
    rfl
  · exact (Reader.built_of_parse hx).replaces hacc hacc' hgrown

/-! ## A sample -/

namespace Sample

/-- The entries of the three nouns. -/
def entries : List TermEntry := [⟨"s.", .noun, []⟩, ⟨"a.", .noun, []⟩, ⟨"b.", .noun, []⟩]

/-- The same entries behind a new one, to which one of them is related now. -/
def moreEntries : List TermEntry :=
  [⟨"aa.", .verb, []⟩, ⟨"s.", .noun, []⟩, ⟨"b.", .noun, [("next", ["aa."])]⟩, ⟨"a.", .noun, []⟩]

/-- The dictionary of these, where two of the nouns have moved up. -/
def largerDictionary : Dictionary :=
  ⟨none, 1, [⟨"a.", 0, .noun, ⟨[]⟩, 1⟩, ⟨"aa.", 1, .verb, ⟨[]⟩, 1⟩,
    ⟨"b.", 2, .noun, ⟨[("next", ["aa."])]⟩, 1⟩, ⟨"s.", 3, .noun, ⟨[]⟩, 1⟩]⟩

end Sample

/-- A morpheme of two terms is read by the larger dictionary as by the smaller one. -/
theorem Dictionary.grown_sample : ∃ x y,
    Reader.parse ⟨Sample.dictionary, ⟨3, 200⟩⟩ "sample" "([b.]|[a.])" = .ok x ∧
      Reader.parse ⟨Sample.largerDictionary, ⟨3, 200⟩⟩ "sample" "([b.]|[a.])" = .ok y ∧
        y.Replaces Sample.largerDictionary x := by
  obtain ⟨x, hx⟩ : ∃ x,
      Reader.parse ⟨Sample.dictionary, ⟨3, 200⟩⟩ "sample" "([b.]|[a.])" = .ok x := ⟨_, rfl⟩
  have hd : ofEntries 0 none Sample.entries = .ok Sample.dictionary := rfl
  have hd' : ofEntries 1 none Sample.moreEntries = .ok Sample.largerDictionary := rfl
  obtain ⟨hparse, -⟩ := grown hd hd' (by decide)
  obtain ⟨-, hok⟩ := hparse ⟨3, 200⟩ "sample" "([b.]|[a.])" fun e he => by
    rw [hx] at he
    cases he
  obtain ⟨y, hy, hreplaces⟩ := hok x hx
  exact ⟨x, y, hx, hy, hreplaces⟩

end Metalanguage
