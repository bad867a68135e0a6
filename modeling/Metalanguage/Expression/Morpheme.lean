import Metalanguage.Dictionary.Term
import Metalanguage.Error

/-!
# Expression/Morpheme — sets of terms

A morpheme holds at least one term and no term twice; its terms stand in their order.
-/

namespace Metalanguage

/-- **A morpheme**, by its terms in increasing order. -/
structure Morpheme where
  terms : List Term
  deriving Repr

namespace Morpheme

/-- The morpheme of some terms, given in any order. -/
def ofTerms (terms : List Term) : Except Error Morpheme :=
  match Ordered.sort compare terms with
  | [] => .error (.invalidArgument .morpheme .noTerms)
  | sorted =>
    match Ordered.neighbours? (· == ·) sorted with
    | some (t, _) => .error (.invalidArgument .morpheme (.repeatedTerm t.canonical))
    | none => .ok ⟨sorted⟩

/-- The number of terms. -/
def size (m : Morpheme) : Nat := m.terms.length

/-- Whether `t` is one of the terms. -/
def hasTerm (m : Morpheme) (t : Term) : Bool := Ordered.has compare t m.terms

/-- The canonical form. -/
def canonical (m : Morpheme) : String := "(" ++ "|".intercalate (m.terms.map Term.canonical) ++ ")"

/-- The written form, which is the canonical one. -/
def display (m : Morpheme) : String := m.canonical

/-- The highest class among the terms. -/
def grammaticalClass (m : Morpheme) : GrammaticalClass :=
  GrammaticalClass.joinAll (m.terms.map Term.grammaticalClass)

/-- Equality of canonical forms. -/
instance : BEq Morpheme := ⟨fun m n => m.canonical == n.canonical⟩

/-- Term by term; a morpheme comes before those that continue it. -/
instance : Ord Morpheme := ⟨compareOn (·.terms)⟩

end Morpheme

end Metalanguage
