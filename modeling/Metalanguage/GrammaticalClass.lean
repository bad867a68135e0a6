/-!
# GrammaticalClass — auxiliaries, verbs and nouns

The classes are ordered: an auxiliary is below a verb, and a verb below a noun.
-/

namespace Metalanguage

/-- The grammatical class of a term, and of everything built from terms. -/
inductive GrammaticalClass
  | auxiliary
  | verb
  | noun
  deriving DecidableEq, Repr, Ord

namespace GrammaticalClass

/-- The name of a class. -/
def name : GrammaticalClass → String
  | auxiliary => "auxiliary"
  | verb => "verb"
  | noun => "noun"

/-- The class of a name. -/
def ofName? : String → Option GrammaticalClass
  | "auxiliary" => some auxiliary
  | "verb" => some verb
  | "noun" => some noun
  | _ => none

@[simp] theorem ofName?_name (c : GrammaticalClass) : ofName? c.name = some c := by
  cases c <;> rfl

/-- The higher of two classes. -/
def join (c d : GrammaticalClass) : GrammaticalClass :=
  match compare c d with
  | .lt => d
  | _ => c

/-- The highest of several classes; without any, the lowest there is. -/
def joinAll (cs : List GrammaticalClass) : GrammaticalClass := cs.foldl join auxiliary

end GrammaticalClass

end Metalanguage
