/-!
# CharacterProperty — sets of characters by ranges

A property of characters is given by the ranges of the code points that have it. The tables are those of
Unicode 18.
-/

namespace Metalanguage

/-- Ranges of code points, by their first and last member. -/
abbrev CodeRanges := List (Nat × Nat)

namespace CodeRanges

/-- Whether a character is in one of the ranges. -/
def has (ranges : CodeRanges) (c : Char) : Bool :=
  ranges.any fun (low, high) => low ≤ c.toNat && c.toNat ≤ high

theorem has_iff (ranges : CodeRanges) (c : Char) :
    ranges.has c = true ↔ ∃ r ∈ ranges, r.1 ≤ c.toNat ∧ c.toNat ≤ r.2 := by
  simp [has]

end CodeRanges

end Metalanguage
