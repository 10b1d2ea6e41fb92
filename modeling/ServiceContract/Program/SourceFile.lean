import ServiceContract.Source.Parser

/-! # Source files

A source file belongs to a module, which its place below the last `src` directory names. The
files `lib`, `main` and `mod` stand for the directory they are in.
-/

namespace ServiceContract

open Source

/-- A source file that has been read. -/
structure SourceFile where
  path : String
  module : List String
  items : List Item

namespace SourceFile

/-- The directories and the file of a path. -/
def pathNames (path : String) : List String :=
  (Text.splitOn '/' path).filter fun s => !s.isEmpty && s != "." && s != ".."

/-- The names after the last `src`, or the last name where there is none. -/
def afterRoot (names : List String) : List String :=
  if names.contains "src" then (names.reverse.takeWhile (· != "src")).reverse
  else names.drop (names.length - 1)

/-- The module of the file at a path. -/
def modulePath (path : String) : List String :=
  let names := afterRoot (pathNames path)
  match names.getLast? with
  | none => []
  | some file =>
    let stem := Text.trimEndMatches ".rs" file
    if stem == "lib" || stem == "main" || stem == "mod" then names.dropLast
    else names.dropLast ++ [stem]

/-- Reads the text of a file. -/
def read? (path text : String) : Option SourceFile :=
  (parseFile? text).map fun items => ⟨path, modulePath path, items⟩

end SourceFile

end ServiceContract
