/-!
# Limits — bounds on what is built
-/

namespace Metalanguage

/-- Bounds on the size of a text and of the trees in it. -/
structure Limits where
  /-- The most distinct nodes that a sentence or a super-sentence may have. -/
  maxNodes : Nat
  /-- The most bytes that a text may have. -/
  maxBytes : Nat
  deriving DecidableEq, Repr

/-- Twenty nodes, and a text of one mebibyte. -/
def Limits.standard : Limits := ⟨20, 1048576⟩

end Metalanguage
