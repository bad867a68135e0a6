import Metalanguage.Dictionary.Basic
import Metalanguage.Json.Decode
import Metalanguage.Json.Parser

/-!
# Dictionary/File — dictionaries written as JSON

A file is the record of a version, which may be missing, and of the terms; a term is the record of its
script, its class and its relations, which may be missing.
-/

namespace Metalanguage.Dictionary

/-- A class: its name, or an object with that name as its only member, whose value is null. -/
def classOf? : Json → Option GrammaticalClass
  | .string (some name) => GrammaticalClass.ofName? name
  | .object [(some name, .null)] => GrammaticalClass.ofName? name
  | _ => none

/-- Lists of scripts by kind of relation. -/
def relationsOf? : Option Json → Option (List (String × List String))
  | none => some []
  | some (.object members) => Json.mapOf? (Json.listOf? Json.string?) (.object members)
  | some _ => none

/-- The entry that a record describes. -/
def entryOf? (value : Json) : Option TermEntry := do
  match ← value.fields? ["script", "class", "relations"] with
  | [some script, some grammaticalClass, relations] =>
    return ⟨← script.string?, ← classOf? grammaticalClass, ← relationsOf? relations⟩
  | _ => none

/-- A version, which may be missing or null. -/
def versionOf? : Option Json → Option (Option String)
  | none => some none
  | some .null => some none
  | some value => value.string?.map some

/-- The version and the entries that a file holds. -/
def contentOf? (value : Json) : Option (Option String × List TermEntry) := do
  match ← value.fields? ["version", "terms"] with
  | [version, some terms] => return (← versionOf? version, ← Json.listOf? entryOf? terms)
  | _ => none

/-- **The dictionary that a JSON text describes.** -/
def ofJson (home : Nat) (text : String) : Except Error Dictionary :=
  match (Json.parse? text).bind contentOf? with
  | some (version, entries) => ofEntries home version entries
  | none => .error (.dictionary .malformedFile)

end Metalanguage.Dictionary
