import Metalanguage.CommandLine.PathName
import Metalanguage.Ordered

/-!
# CommandLine/FileAccess — the files a command reads

`FileAccess m` is what a command needs to know of a file system, as actions of a monad `m`. A `FileSet`
is a file system held in memory, where the actions are plain functions.
-/

namespace Metalanguage

/-- **Access to a file system.** -/
structure FileAccess (m : Type → Type) where
  /-- The text of a file; `none` if there is none to read. -/
  read? : String → m (Option String)
  /-- Whether a path names a directory. -/
  isDirectory : String → m Bool
  /-- The names of the entries of a directory. -/
  entries : String → m (List String)

namespace FileAccess

variable {m : Type → Type} [Monad m]

/-- The extension of files of expressions. -/
def expressionExtension : String := "ieml"

/-- A path, if it has the extension of files of expressions. -/
def ifExpressions (path : String) : List String :=
  if PathName.extension? path == some expressionExtension then [path] else []

/-- The paths below a directory with the extension of files of expressions: the entries of each
directory in the order of their names, what is below an entry directly behind it. The fuel bounds the
depth. -/
def below (files : FileAccess m) : Nat → String → m (List String)
  | 0, _ => pure []
  | fuel + 1, directory => do
    let names := Ordered.sort compare (← files.entries directory)
    names.foldlM
      (fun found name => do
        let path := PathName.join directory name
        let deeper ← if ← files.isDirectory path then below files fuel path else pure []
        return found ++ ifExpressions path ++ deeper)
      []

/-- More levels than the length of a path allows. -/
def maxDepth : Nat := 4096

/-- What a path stands for: itself, or the files of expressions at and below a directory. -/
def collect (files : FileAccess m) (path : String) : m (List String) := do
  if ← files.isDirectory path then
    return ifExpressions path ++ (← files.below maxDepth path)
  else
    return [path]

end FileAccess

/-- **A file system in memory**: the components and the text of each file, and directories that may hold
no file. -/
structure FileSet where
  files : List (List String × String)
  directories : List (List String)

namespace FileSet

/-- The files of a list of path names with texts. A name that ends in a slash is a directory. Of equal
names the first counts. -/
def ofList (entries : List (String × String)) : FileSet where
  files := entries.filterMap fun (path, text) =>
    if PathName.endsInDirectory path then none else some (PathName.components path, text)
  directories := entries.filterMap fun (path, _) =>
    if PathName.endsInDirectory path then some (PathName.components path) else none

/-- The components of all entries. -/
def all (s : FileSet) : List (List String) := s.files.map (·.1) ++ s.directories

/-- Whether a directory has these components: it is the top, it is listed, or something is below it. -/
def isDirectoryAt (s : FileSet) (place : List String) : Bool :=
  place.isEmpty || s.directories.contains place ||
    s.all.any fun entry => place.isPrefixOf entry && place != entry

/-- The place that components lead to from a directory; two dots lead up, and nothing leads above the
top. -/
def walk (s : FileSet) (place : List String) : List String → Option (List String)
  | [] => some place
  | c :: rest =>
    if !s.isDirectoryAt place then none
    else if c == ".." then
      if place.isEmpty then none else walk s place.dropLast rest
    else walk s (place ++ [c]) rest

/-- The place that a path leads to. -/
def resolve (s : FileSet) (path : String) : Option (List String) :=
  if path.isEmpty || path.toList.head? == some '/' then none
  else s.walk [] (PathName.components path)

/-- Whether a path names a directory. -/
def isDirectory (s : FileSet) (path : String) : Bool :=
  match s.resolve path with
  | some place => s.isDirectoryAt place
  | none => false

/-- The text of the file that a path names. -/
def read? (s : FileSet) (path : String) : Option String :=
  if PathName.endsInDirectory path then none
  else (s.resolve path).bind fun place => s.files.lookup place

/-- The names of the entries of a directory, each once. -/
def entries (s : FileSet) (path : String) : List String :=
  match s.resolve path with
  | none => []
  | some place =>
    Ordered.keepLast compare <| s.all.filterMap fun entry =>
      if place.isPrefixOf entry then entry[place.length]? else none

/-- Access to a file system in memory. -/
def access (s : FileSet) : FileAccess Id where
  read? := s.read?
  isDirectory := s.isDirectory
  entries := s.entries

end FileSet

end Metalanguage
