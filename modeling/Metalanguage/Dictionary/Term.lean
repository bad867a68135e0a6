import Metalanguage.GrammaticalClass
import Metalanguage.Ordered
import Metalanguage.Script

/-!
# Dictionary/Term — terms and their relations

A term is what a dictionary hands out for a script. Terms are equal when their scripts are, whatever
dictionary they come from; `Term.isSame` asks for one entry of one dictionary.
-/

namespace Metalanguage

/-! ## Relations -/

/-- The relations of a term: for each kind of relation the scripts of the related terms, both in
increasing order. -/
structure Relations where
  byKind : List (String × List String)
  deriving DecidableEq, Repr

namespace Relations

/-- The relations that are listed, with each list sorted and freed of repetitions. -/
def ofLists (lists : List (String × List String)) : Relations :=
  ⟨(Ordered.keepLast (compareOn (·.1)) lists).map fun (kind, scripts) =>
    (kind, Ordered.keepLast compare scripts)⟩

/-- The scripts related through `kind`; none if there is no such kind. -/
def get (r : Relations) (kind : String) : List String := (r.byKind.lookup kind).getD []

/-- The kinds of relations, in order. -/
def kinds (r : Relations) : List String := r.byKind.map (·.1)

/-- Whether a script is related through any kind. -/
def isRelated (r : Relations) (script : String) : Bool :=
  r.byKind.any fun (_, scripts) => scripts.contains script

/-- Whether nothing is related. -/
def isEmpty (r : Relations) : Bool := r.byKind.all fun (_, scripts) => scripts.isEmpty

end Relations

/-! ## Terms -/

/-- **A term of a dictionary.** -/
structure Term where
  script : String
  /-- The position among the terms of its dictionary. -/
  index : Nat
  grammaticalClass : GrammaticalClass
  relations : Relations
  /-- The number of the dictionary it belongs to. -/
  home : Nat
  deriving Repr

namespace Term

/-- The layer of its script. -/
def layer (t : Term) : Nat := Script.layer t.script

/-- The canonical form: the script in square brackets. -/
def canonical (t : Term) : String := "[" ++ t.script ++ "]"

/-- The written form, which is the canonical one. -/
def display (t : Term) : String := t.canonical

/-- Equality of canonical forms. -/
instance : BEq Term := ⟨fun t u => t.canonical == u.canonical⟩

instance : Ord Term := ⟨fun t u => Script.compare t.script u.script⟩

/-- Whether both are the same entry of the same dictionary. -/
def isSame (t u : Term) : Bool := t.home == u.home && t.index == u.index

end Term

end Metalanguage
