import ServiceContract.Text.Basic

/-! # Paths

A path is a text of names with slashes between them. An empty name and the name `.` stay where
they are, and `..` leads to the directory above.
-/

namespace ServiceContract.Path

/-- The names between the slashes of a path. -/
def names (path : String) : List String := Text.splitOn '/' path

/-- The path of a name in a directory. -/
def join (directory name : String) : String :=
  match directory.toList.getLast? with
  | none => name
  | some c => if c == '/' then directory ++ name else directory ++ "/" ++ name

/-- What follows the last point of a name, unless that point stands first. -/
def extension? (name : String) : Option String :=
  match (Text.splitOn '.' name).reverse with
  | last :: stem :: before => if stem.isEmpty && before.isEmpty then none else some last
  | _ => none

/-- Drops slashes and names `.` from the end of a path, which is given reversed. -/
def trimTail : List Char → List Char
  | '/' :: cs => trimTail cs
  | '.' :: '/' :: cs => trimTail cs
  | cs => cs

/-- The path of the directory that holds the last name of a path. -/
def parent (path : String) : String :=
  let above := (trimTail path.toList.reverse).dropWhile (· != '/')
  String.ofList (trimTail above).reverse

end ServiceContract.Path
