import Metalanguage.Lines

/-!
# CommandLine/PathName — names of files

A path name is made of components between slashes. Empty components and single dots change nothing.
-/

namespace Metalanguage.PathName

/-- The components of a path, without those that change nothing. -/
def components (path : String) : List String :=
  ((Lines.cut '/' path.toList).map String.ofList).filter fun c => c != "" && c != "."

/-- Whether a path asks for a directory by its end: a slash, or a slash and a dot. -/
def endsInDirectory (path : String) : Bool :=
  match (Lines.cut '/' path.toList).getLast? with
  | some last => last == [] || last == ['.']
  | none => false

/-- The path of an entry of a directory. -/
def join (directory name : String) : String :=
  if directory.toList.getLast? == some '/' then directory ++ name else directory ++ "/" ++ name

/-- What follows the last dot of a file name; a dot at its start does not count. -/
def extensionOf (name : List Char) : Option String :=
  let reversed := name.reverse
  match reversed.dropWhile (· != '.') with
  | [] => none
  | [_] => none
  | _ => some (String.ofList (reversed.takeWhile (· != '.')).reverse)

/-- The extension of the file that a path names. -/
def extension? (path : String) : Option String :=
  match (components path).getLast? with
  | none => none
  | some name => if name == ".." then none else extensionOf name.toList

end Metalanguage.PathName
