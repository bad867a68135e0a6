import Metalanguage.Dictionary.Basic
import Metalanguage.Report.Table

/-!
# Report/TermTable — the terms of a dictionary as a table
-/

namespace Metalanguage

/-- The relations of a term, a line for each kind. -/
def Relations.summary (r : Relations) : String :=
  "\n".intercalate (r.byKind.map fun (kind, scripts) => kind ++ ": " ++ ", ".intercalate scripts)

namespace Dictionary

/-- The row of a term. -/
def termRow (t : Term) : List String :=
  [toString t.index, t.script, toString t.layer, t.grammaticalClass.name, t.relations.summary]

/-- The terms with their numbers, layers, classes and relations. -/
def table (d : Dictionary) : Table where
  columns :=
    [⟨"#", .right⟩, ⟨"Script", .left⟩, ⟨"Layer", .right⟩, ⟨"Class", .left⟩, ⟨"Relations", .left⟩]
  rows := d.terms.map termRow

/-- **The list of terms** under the version of the dictionary. -/
def listing (d : Dictionary) : String :=
  "Dictionary " ++ d.version.getD "(unversioned)" ++ " with " ++ toString d.size ++ " terms\n" ++
    "\n".intercalate d.table.lines ++ "\n"

end Dictionary

end Metalanguage
