import Metalanguage.Lines
import Metalanguage.Reader.Basic
import Metalanguage.Report.Summary

/-!
# Report/Check — checking files of expressions

A file holds an expression on every line, apart from lines that are blank or start with `#`. Every
expression of every file is read, and those that cannot be are reported with the file and the line.
-/

namespace Metalanguage

/-- An expression that cannot be read: the file and the line it stands in, and why. -/
structure CheckFailure where
  location : String
  error : Error

/-- **What a check finds.** -/
structure CheckReport where
  /-- The number of files. -/
  files : Nat
  /-- The number of expressions. -/
  checked : Nat
  failures : List CheckFailure

namespace CheckReport

/-- Whether a line, freed of white space at its ends, holds an expression. -/
def holdsExpression : List Char → Bool
  | [] => false
  | c :: _ => c != '#'

/-- The expressions of a file with the numbers of their lines, which count from one. -/
def expressionsOf (content : String) : List (Nat × String) :=
  ((Lines.cut '\n' content.toList).zipIdx 1).filterMap fun (line, number) =>
    let line := Lines.trim line
    if holdsExpression line then some (number, String.ofList line) else none

/-- The place of a line. -/
def locate (name : String) (number : Nat) : String := name ++ ":" ++ toString number

/-- The expressions of a file with their places. -/
def placedExpressions (file : String × String) : List (String × String) :=
  (expressionsOf file.2).map fun (number, line) => (locate file.1 number, line)

/-- The failure to read the expression at a place, if there is one. -/
def failure? (r : Reader) (placed : String × String) : Option CheckFailure :=
  match r.parse placed.1 placed.2 with
  | .ok _ => none
  | .error e => some ⟨placed.1, e⟩

/-- **Checks some files**, given by name and content. -/
def ofFiles (r : Reader) (files : List (String × String)) : CheckReport :=
  let placed := files.flatMap placedExpressions
  ⟨files.length, placed.length, placed.filterMap (failure? r)⟩

/-- The report: the place of each failure, and the counts. -/
def text (report : CheckReport) : String :=
  String.join (report.failures.map fun f => "✗ " ++ f.location ++ "\n") ++
    "Checked " ++ toString report.checked ++ " expression(s) in " ++ toString report.files ++
    " file(s), " ++ toString report.failures.length ++ " failed\n"

/-- The errors, each behind its place and without what is drawn below its first line. -/
def errorText (report : CheckReport) : String :=
  String.join (report.failures.map fun f => f.location ++ ": " ++ f.error.report ++ "\n")

end CheckReport

end Metalanguage
