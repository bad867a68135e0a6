import Metalanguage.Proofs.Reader.Resolved
import Metalanguage.Proofs.Reader.RoundTrip

/-!
# Proofs/Reader/HypertextLiterals — the literals of a hypertext do not come back

A hypertext is written by the canonical forms of its members, steps and targets, so no literal shows
in what is written. Reading that gives the same links in the same order, each without the literals
that it had (`Reader.parse_display_hypertext`), even where the hypertext was read off a text that
holds literals (`Reader.parse_display_hypertext_noted`).
-/

namespace Metalanguage

open List (Forall₂)
open Std Ordered

/-- The second link is the first without its literals. -/
structure Hyperlink.Strips (l l' : Hyperlink) : Prop where
  source : l'.source.display = l.source.canonical
  target : l'.target.display = l.target.canonical
  steps : l'.anchor.steps.map Part.display = l.anchor.steps.map Part.canonical

/-- A link without literals that is level with another one is that one without its literals. -/
theorem Hyperlink.Bare.strips {l l' : Hyperlink} (h : l'.Bare) (hlevel : compare l l' = .eq) :
    l.Strips l' := by
  obtain ⟨hsource, hsteps, htarget⟩ := Hyperlink.compare_eq_iff.1 hlevel
  refine ⟨h.source.trans (Text.canonical_congr hsource).symm,
    h.target.trans (Text.canonical_congr htarget).symm, ?_⟩
  rw [List.map_congr_left h.steps, hsteps.map_eq fun _ _ _ _ => Part.canonical_congr]

/-- In canonical form the scripts of a dictionary are all that has to be read. -/
theorem Dictionary.Accepted.legible_stock {d : Dictionary} (h : d.Accepted) :
    d.stock.Legible .canonical := ⟨h.valid, nofun⟩

/-- **The written form of a hypertext is read as the same links without their literals.** -/
theorem Reader.parse_display_hypertext {r r' : Reader} (hr : r.dictionary.Accepted)
    (hsame : r'.dictionary = r.dictionary) {source input : String} {h : Hypertext}
    (hparse : r.parse source input = .ok (.hypertext h)) (source' : String)
    (hnodes : (Expression.hypertext h).SentencesWithin r'.limits.maxNodes)
    (hbytes : (Expression.hypertext h).display.utf8ByteSize ≤ r'.limits.maxBytes) :
    ∃ h', r'.parse source' (Expression.hypertext h).display = .ok (.hypertext h') ∧
      Forall₂ Hyperlink.Strips h.links h'.links := by
  have hbuilt := built_of_parse hparse
  obtain ⟨f, hstands, hread⟩ :=
    r'.exists_parse_eq source' (hbuilt.writes hr.legible_stock) hbytes
  cases hstands with
  | hypertext hblocks =>
    cases hbuilt with
    | hypertext hh =>
      obtain ⟨h', hh', hlevel, hbare⟩ := exists_resolve_hypertext
        (c := ⟨r'.dictionary, r'.limits.maxNodes, source', h.canonical.toList⟩)
        (k := r.dictionary.stock) ⟨hsame ▸ hr, fun ht => hsame ▸ ht⟩ hh.facts hnodes hblocks
      have hlinks := (List.forall₂_and_left _ _).2 ⟨hbare, (Hypertext.compare_eq_iff.1 hlevel).flip⟩
      exact ⟨h', hread.trans hh', hlinks.flip.imp fun _ _ hl => hl.1.strips hl.2⟩

/-! ## A word with a literal -/

namespace Sample

/-- A reader over the small dictionary. -/
def reader : Reader := ⟨dictionary, ⟨3, 200⟩⟩

/-- A link between two words, of which the first carries a literal. -/
def noted : Hypertext :=
  ⟨[⟨⟨[.word (word (noun "b." 1) [.ofText "here"])]⟩, ⟨[.word (word (noun "a." 0) [])]⟩,
    ⟨.word (word (noun "b." 1) [.ofText "here"]), []⟩⟩]⟩

/-- A text that holds the link with its literal. -/
def notedText : String := "{/[([b.])]<here>{/[([a.])]/}/}"

theorem parse_notedText : reader.parse "sample" notedText = .ok (.hypertext noted) := rfl

theorem noted_within : (Expression.hypertext noted).SentencesWithin 3 := by
  intro l hl
  obtain rfl := List.mem_singleton.1 hl
  refine ⟨fun p hp => ?_, fun p hp => ?_, by decide⟩
  · obtain rfl := List.mem_singleton.1 hp
    decide
  · obtain rfl := List.mem_singleton.1 hp
    decide

end Sample

namespace Reader

theorem parse_display_hypertext_noted : ∃ h', Sample.reader.parse "sample"
      (Expression.hypertext Sample.noted).display = .ok (.hypertext h') ∧
    Forall₂ Hyperlink.Strips Sample.noted.links h'.links :=
  parse_display_hypertext Sample.accepted rfl Sample.parse_notedText "sample" Sample.noted_within
    (by decide)

/-- The source text had a literal and has none any more. -/
theorem literal_lost_from_noted : ∃ h h',
    Sample.reader.parse "sample" Sample.notedText = .ok (.hypertext h) ∧
      Sample.reader.parse "sample" (Expression.hypertext h).display = .ok (.hypertext h') ∧
      h.links.map (·.source.display) = ["{/[([b.])]<here>/}"] ∧
      h'.links.map (·.source.display) = ["{/[([b.])]/}"] :=
  ⟨_, _, Sample.parse_notedText, rfl, by decide, by decide⟩

end Reader

end Metalanguage
