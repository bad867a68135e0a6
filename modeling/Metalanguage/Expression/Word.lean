import Metalanguage.Expression.Morpheme
import Metalanguage.Literal

/-!
# Expression/Word — words

A word has a substance, which is a morpheme, and may have a mode, which is another. Literals are
attached to it; they show in its written form and nowhere else.
-/

namespace Metalanguage

/-- **A word.** -/
structure Word where
  substance : Morpheme
  mode : Option Morpheme
  literals : List Literal
  deriving Repr

namespace Word

/-- The morphemes of a word, the substance first. -/
def morphemes (w : Word) : List Morpheme := w.substance :: w.mode.toList

/-- The canonical form, without literals. -/
def canonical (w : Word) : String :=
  "[" ++ "*".intercalate (w.morphemes.map Morpheme.canonical) ++ "]"

/-- The written form, with literals. -/
def display (w : Word) : String := w.canonical ++ Literal.displayAll w.literals

/-- The class of the substance. -/
def grammaticalClass (w : Word) : GrammaticalClass := w.substance.grammaticalClass

/-- The word with these literals instead of its own. -/
def withLiterals (w : Word) (literals : List Literal) : Word := { w with literals }

/-- Equality of canonical forms. -/
instance : BEq Word := ⟨fun w v => w.canonical == v.canonical⟩

/-- By substance, then by mode; a word without mode comes first. -/
instance : Ord Word :=
  ⟨fun w v => (compare w.substance v.substance).then (compare w.mode v.mode)⟩

end Word

end Metalanguage
