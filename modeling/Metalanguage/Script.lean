/-!
# Script — the spelling of terms

A script is spelled with letters and marks. Its last character tells its layer, and only a script
that ends in a layer mark can be a term of a dictionary. Terms are ordered by layer, then by script.
-/

namespace Metalanguage.Script

/-- The marks that a script may hold beside the letters of the Latin alphabet. -/
def isMark (c : Char) : Bool :=
  c == ':' || c == '.' || c == '-' || c == '\'' || c == ',' || c == '_' || c == ';' || c == '+'

/-- The characters of scripts. -/
def isScriptChar (c : Char) : Bool := c.isAlpha || isMark c

/-- The layer that a mark stands for. -/
def layerOfMark? : Char → Option Nat
  | ':' => some 0
  | '.' => some 1
  | '-' => some 2
  | '\'' => some 3
  | ',' => some 4
  | '_' => some 5
  | ';' => some 6
  | _ => none

/-- The layer of a script, read off its last character. -/
def layer? (script : String) : Option Nat := script.toList.getLast?.bind layerOfMark?

/-- The layer of a script that has one, and zero for any other. -/
def layer (script : String) : Nat := (layer? script).getD 0

/-- Whether a script can be a term: it is spelled in script characters and ends in a layer mark. -/
def isValid (script : String) : Bool := script.toList.all isScriptChar && (layer? script).isSome

/-- The order of terms: by layer, then by script. -/
protected def compare (s t : String) : Ordering :=
  (compare (layer s) (layer t)).then (compare s t)

end Metalanguage.Script
