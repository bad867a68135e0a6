import Metalanguage.CommandLine.Arguments
import Metalanguage.CommandLine.FileAccess
import Metalanguage.Description
import Metalanguage.Dictionary.File
import Metalanguage.Json.Printer
import Metalanguage.Report.Check
import Metalanguage.Report.Drawing
import Metalanguage.Report.TermTable

/-!
# CommandLine/Run — running a command

A command loads the dictionary before anything else. Its outcome is an exit code and what it writes; the
files it reads come through a `FileAccess`, so a command runs on a file system in memory as it does on a
real one.
-/

namespace Metalanguage

/-- What a command comes to. -/
structure Outcome where
  exitCode : Nat
  stdout : String
  stderr : String
  deriving DecidableEq, Repr

/-- Why a command fails. -/
inductive CommandFailure
  | noDictionary
  | unreadableDictionary (path : String)
  | unreadable (path : String)
  | noTree (kind : Kind)
  | failedExpressions (count : Nat)
  | library (e : Error)

/-- The wording of a failure. -/
def CommandFailure.message : CommandFailure → String
  | noDictionary =>
    "Error: no dictionary given: pass --dictionary <PATH> or set IEML_DICTIONARY"
  | unreadableDictionary path => "Error: cannot read dictionary " ++ path
  | unreadable path => "Error: cannot read " ++ path
  | noTree kind => "Error: 'graph' needs a sentence or a super-sentence, got a " ++ kind.name
  | failedExpressions count => "Error: " ++ toString count ++ " expression(s) failed validation"
  | library e => e.report

namespace Outcome

/-- A command that writes a text and is done. -/
def done (stdout : String) : Outcome := ⟨0, stdout, ""⟩

/-- A command that fails. -/
def failed (failure : CommandFailure) : Outcome := ⟨1, "", failure.message ++ "\n"⟩

/-- The text of a result, or the failure to get one. -/
def ofResult (result : Except CommandFailure String) : Outcome :=
  match result with
  | .ok text => done text
  | .error failure => failed failure

/-- A check that is done: the report, and the errors of the expressions that fail. -/
def ofReport (report : CheckReport) : Outcome :=
  match report.failures with
  | [] => done report.text
  | failures =>
    ⟨1, report.text,
      report.errorText ++ (CommandFailure.failedExpressions failures.length).message ++ "\n"⟩

end Outcome

namespace Command

/-- How expressions of the command line are called in errors. -/
def source : String := "<expression>"

/-- Reads an expression of the command line. -/
def readExpression (r : Reader) (expression : String) : Except CommandFailure Expression :=
  (r.parse source expression).mapError .library

/-- What `parse` writes. -/
def parseText (r : Reader) (expression : String) (json : Bool) : Except CommandFailure String := do
  let x ← readExpression r expression
  return if json then x.describe.pretty "" ++ "\n" else x.summary

/-- What `graph` writes. -/
def graphText (r : Reader) (expression : String) : Except CommandFailure String := do
  match ← readExpression r expression with
  | .part (.sentence s) => return s.drawing
  | .part (.superSentence s) => return s.drawing
  | x => .error (.noTree x.kind)

variable {m : Type → Type} [Monad m]

/-- The dictionary of a path. -/
def loadDictionary (files : FileAccess m) :
    Option String → m (Except CommandFailure Dictionary)
  | none => return .error .noDictionary
  | some path => do
    match ← files.read? path with
    | none => return .error (.unreadableDictionary path)
    | some text => return (Dictionary.ofJson 0 text).mapError .library

/-- The texts of some files, or the first that cannot be read. -/
def readFiles (files : FileAccess m) : List String →
    m (Except CommandFailure (List (String × String)))
  | [] => return .ok []
  | path :: rest => do
    match ← files.read? path with
    | none => return .error (.unreadable path)
    | some text => return (← readFiles files rest).map ((path, text) :: ·)

/-- Runs a command with a reader. -/
def perform (files : FileAccess m) (r : Reader) : Command → m Outcome
  | parse expression json => return .ofResult (parseText r expression json)
  | graph expression => return .ofResult (graphText r expression)
  | check path => do
    match ← readFiles files (← files.collect path) with
    | .error failure => return .failed failure
    | .ok contents => return .ofReport (.ofFiles r contents)
  | terms => return .done r.dictionary.listing

end Command

namespace Invocation

variable {m : Type → Type} [Monad m]

/-- How the program is called. -/
def usage : String :=
  "Usage: ieml [--dictionary <PATH>] [--max-nodes <N>] <COMMAND>\n\n" ++
    "Commands:\n" ++
    "  parse <EXPRESSION> [--json]  Read an expression and print its canonical form\n" ++
    "  graph <EXPRESSION>           Draw a sentence or a super-sentence as a tree\n" ++
    "  check [PATH]                 Check files of expressions, one a line\n" ++
    "  terms                        List the terms of the dictionary\n"

/-- The name and the version of the program. -/
def versionText : String := "ieml 0.1.0\n"

/-- **Does what some arguments ask for.** -/
def perform (files : FileAccess m) : Invocation → m Outcome
  | version => return .done versionText
  | help => return .done usage
  | rejected => return ⟨2, "", usage⟩
  | run dictionary maxNodes command => do
    match ← Command.loadDictionary files dictionary with
    | .error failure => return .failed failure
    | .ok d =>
      let maxNodes := maxNodes.getD Limits.standard.maxNodes
      command.perform files ⟨d, { Limits.standard with maxNodes }⟩

end Invocation

end Metalanguage
