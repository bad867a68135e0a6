import Metalanguage.Json.Basic

/-!
# Json/Decode — reading records out of JSON values

A record is written as an object, where unknown members are ignored and a repeated known one is an
error, or as the array of its fields in order. `fields?` gives the fields of either form.
-/

namespace Metalanguage.Json

/-- The value of the only member of that name; an error if the name is repeated. -/
def onlyMember? (members : List (String × Json)) (name : String) : Option (Option Json) :=
  match members.filter (·.1 == name) with
  | [] => some none
  | [(_, value)] => some (some value)
  | _ => none

/-- **The fields of a record**, in the order of `names`; an absent field is `none`. -/
def fields? (names : List String) : Json → Option (List (Option Json))
  | .array items =>
    if names.length < items.length then none
    else some (items.map some ++ List.replicate (names.length - items.length) none)
  | value => do
    let members ← value.members?
    names.mapM (onlyMember? members)

/-- An integer of 64 bits without sign. -/
def word64? (value : Json) : Option Nat := do
  let n ← value.nat?
  if n < UInt64.size then some n else none

/-- A list, each item read by `read?`. -/
def listOf? {α : Type} (read? : Json → Option α) (value : Json) : Option (List α) := do
  (← value.array?).mapM read?

/-- A map from names to values read by `read?`; of a repeated name the last value stays. -/
def mapOf? {α : Type} (read? : Json → Option α) (value : Json) : Option (List (String × α)) := do
  let entries ← (← value.members?).mapM fun (name, v) => (read? v).map (name, ·)
  return Ordered.keepLast (compareOn (·.1)) entries

end Metalanguage.Json
