import Metalanguage.Ordered

/-!
# Json — JSON values

A value keeps what its text says: members in order and with repetitions, numbers with their sign.
Accessors answer `none` for a value of another kind.
-/

namespace Metalanguage

namespace Json

/-- A number: an integer by sign and magnitude, or one with a fraction or an exponent as written. -/
inductive Number
  | integer (negative : Bool) (magnitude : Nat)
  | decimal (written : String)
  deriving DecidableEq, Repr

/-- The text of a string; `none` if an escape names one half of a surrogate pair alone, which stands
for no character. -/
abbrev Str := Option String

end Json

/-- **A JSON value.** -/
inductive Json
  | null
  | bool (b : Bool)
  | number (n : Json.Number)
  | string (s : Json.Str)
  | array (items : List Json)
  | object (members : List (Json.Str × Json))
  deriving Repr

namespace Json

instance : Inhabited Json := ⟨null⟩

/-! ## Making values -/

/-- The value of a text. -/
def ofString (s : String) : Json := string (some s)

/-- The value of a count. -/
def ofNat (n : Nat) : Json := number (.integer false n)

/-- The value of an integer. -/
def ofInt (i : Int) : Json := number (.integer (i < 0) i.natAbs)

/-- The value of a list of texts. -/
def ofStrings (l : List String) : Json := array (l.map ofString)

/-- The value of an optional text. -/
def ofString? : Option String → Json
  | some s => ofString s
  | none => null

/-- An object with its members sorted by name. -/
def record (members : List (String × Json)) : Json :=
  object ((Ordered.sort (compareOn (·.1)) members).map fun (name, value) => (some name, value))

/-! ## Reading values -/

/-- The text of a string. -/
def string? : Json → Option String
  | string s => s
  | _ => none

/-- The value of an integer. -/
def int? : Json → Option Int
  | number (.integer negative n) => some (if negative then -n else n)
  | _ => none

/-- The value of an integer written without a sign. -/
def nat? : Json → Option Nat
  | number (.integer false n) => some n
  | _ => none

/-- The items of an array. -/
def array? : Json → Option (List Json)
  | array items => some items
  | _ => none

/-- The members of an object whose names are all texts. -/
def members? : Json → Option (List (String × Json))
  | object members => members.mapM fun (name, value) => name.map (·, value)
  | _ => none

/-- The first member of the given name. -/
def member? (name : String) : Json → Option Json
  | object members => (members.find? fun m => m.1 == some name).map (·.2)
  | _ => none

end Json

end Metalanguage
