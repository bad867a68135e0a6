import Metalanguage.Dictionary.Term
import Metalanguage.Error

/-!
# Dictionary — the table of terms

`Dictionary.ofEntries` accepts a list of entries when every script is valid, no script comes twice and
every relation leads to a script of the list. The terms stand in their order, by layer and script, and
are numbered in it.
-/

namespace Metalanguage

/-- The definition of a term, as it is given to a dictionary. -/
structure TermEntry where
  script : String
  grammaticalClass : GrammaticalClass
  /-- The related scripts by kind of relation, the kinds in increasing order. -/
  relations : List (String × List String)
  deriving DecidableEq, Repr

namespace TermEntry

/-- Adds `script` to the list of a kind. -/
def relate (kind script : String) : List (String × List String) → List (String × List String)
  | [] => [(kind, [script])]
  | (k, scripts) :: rest =>
    match compare kind k with
    | .lt => (kind, [script]) :: (k, scripts) :: rest
    | .eq => (k, scripts ++ [script]) :: rest
    | .gt => (k, scripts) :: relate kind script rest

/-- The entry with one more related script. -/
def withRelation (e : TermEntry) (kind script : String) : TermEntry :=
  { e with relations := relate kind script e.relations }

/-- The order of the terms that entries define. -/
protected def compare (e f : TermEntry) : Ordering := Script.compare e.script f.script

end TermEntry

/-- **A dictionary.** -/
structure Dictionary where
  version : Option String
  /-- The number that tells its terms from those of other dictionaries. -/
  home : Nat
  /-- The terms, in increasing order. -/
  terms : List Term

namespace Dictionary

/-! ## Building -/

/-- Puts one more entry among those that are placed in order. -/
def place (placed : List TermEntry) (e : TermEntry) : Except Error (List TermEntry) :=
  if !Script.isValid e.script then .error (.dictionary (.invalidScript e.script))
  else if Ordered.has TermEntry.compare e placed then
    .error (.dictionary (.duplicateScript e.script))
  else .ok (Ordered.insertNew TermEntry.compare e placed)

/-- The first relation of an entry that leads to none of the entries. -/
def danglingOf? (entries : List TermEntry) (e : TermEntry) : Option DictionaryFault :=
  e.relations.findSome? fun (kind, targets) =>
    (targets.find? fun target => !entries.any (·.script == target)).map fun target =>
      .unknownRelated kind e.script target

/-- The term that an entry defines. -/
def termOf (home : Nat) (e : TermEntry) (index : Nat) : Term :=
  ⟨e.script, index, e.grammaticalClass, .ofLists e.relations, home⟩

/-- **Builds the dictionary of the entries, or says what is wrong with them.** -/
def ofEntries (home : Nat) (version : Option String) (entries : List TermEntry) :
    Except Error Dictionary := do
  let placed ← entries.foldlM place []
  match placed.findSome? (danglingOf? placed) with
  | some fault => .error (.dictionary fault)
  | none => return ⟨version, home, placed.zipIdx.map fun (e, index) => termOf home e index⟩

/-! ## Looking up -/

/-- The number of terms. -/
def size (d : Dictionary) : Nat := d.terms.length

/-- Whether there is no term. -/
def isEmpty (d : Dictionary) : Bool := d.terms.isEmpty

/-- The term of a script. -/
def term? (d : Dictionary) (script : String) : Option Term := d.terms.find? (·.script == script)

/-- Whether there is a term of that script. -/
def contains (d : Dictionary) (script : String) : Bool := (d.term? script).isSome

/-- The term of a script, or the error that there is none. -/
def term (d : Dictionary) (script : String) : Except Error Term :=
  match d.term? script with
  | some t => .ok t
  | none => .error (.termNotFound script)

/-- The terms of this dictionary that `t` is related to through `kind`. -/
def related (d : Dictionary) (t : Term) (kind : String) : Except Error (List Term) :=
  (t.relations.get kind).mapM d.term

end Dictionary

end Metalanguage
