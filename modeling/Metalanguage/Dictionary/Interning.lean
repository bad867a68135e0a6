import Metalanguage.Dictionary.Basic

/-!
# Dictionary/Interning — one instance for each script

A dictionary in use makes the instance of a term when its script is looked up for the first time,
and hands out handles on it from then on. A lookup first reads the table of handles; where that has
none it takes the definition, and then finds a handle after all or enters a new instance under the
script.
-/

namespace Metalanguage

/-! ## Handles -/

/-- **A handle on a term**: where the instance is, and the term that it is of. -/
structure TermHandle where
  address : Nat
  term : Term
  deriving Repr

namespace TermHandle

/-- Whether both lead to one instance. -/
def isSame (h k : TermHandle) : Bool := h.address == k.address

/-- One instance, or terms with one canonical form. -/
instance : BEq TermHandle := ⟨fun h k => h.isSame k || h.term.canonical == k.term.canonical⟩

/-- One instance is level with itself; others are ordered by layer, then by script. -/
instance : Ord TermHandle := ⟨fun h k =>
  if h.isSame k then .eq
  else (compare h.term.layer k.term.layer).then (compare h.term.script k.term.script)⟩

end TermHandle

/-! ## Tables of handles -/

/-- A script, and one of the dictionaries in use, numbered by `ι`, to look it up in. -/
structure Lookup (ι : Type) where
  dictionary : ι
  script : String
  deriving DecidableEq, Repr

/-- **The tables of the dictionaries in use**, and the address that the next instance gets. -/
structure Memory (ι : Type) where
  tables : ι → List (String × TermHandle)
  fresh : Nat

namespace Memory

variable {ι : Type} [DecidableEq ι]

/-- No script was looked up yet. -/
def empty : Memory ι := ⟨fun _ => [], 0⟩

/-- The handle that is in a table. -/
def find? (m : Memory ι) (l : Lookup ι) : Option TermHandle :=
  (m.tables l.dictionary).lookup l.script

/-- Makes an instance and enters it. -/
def enter (m : Memory ι) (l : Lookup ι) (t : Term) : TermHandle × Memory ι :=
  let h := ⟨m.fresh, t⟩
  let table := (l.script, h) :: m.tables l.dictionary
  (h, ⟨fun i => if i = l.dictionary then table else m.tables i, m.fresh + 1⟩)

/-- The handle that is in a table by now, or else a new one. -/
def findOrEnter (m : Memory ι) (l : Lookup ι) (t : Term) : TermHandle × Memory ι :=
  match m.find? l with
  | some h => (h, m)
  | none => m.enter l t

variable (ds : ι → Dictionary)

/-- The second half of a lookup: takes the definition, and the handle on it. -/
def settle (m : Memory ι) (l : Lookup ι) : Except Error TermHandle × Memory ι :=
  match (ds l.dictionary).term l.script with
  | .error e => (.error e, m)
  | .ok t =>
    let (h, m') := m.findOrEnter l t
    (.ok h, m')

/-- **Looks a script up.** -/
def lookUp (m : Memory ι) (l : Lookup ι) : Except Error TermHandle × Memory ι :=
  match m.find? l with
  | some h => (.ok h, m)
  | none => m.settle ds l

/-- The memory after some lookups. -/
def after (m : Memory ι) (ls : List (Lookup ι)) : Memory ι :=
  ls.foldl (fun m l => (m.lookUp ds l).2) m

/-- Some lookups with what each of them returns. -/
def log (m : Memory ι) : List (Lookup ι) → List (Lookup ι × Except Error TermHandle)
  | [] => []
  | l :: ls => (l, (m.lookUp ds l).1) :: log (m.lookUp ds l).2 ls

end Memory

end Metalanguage
