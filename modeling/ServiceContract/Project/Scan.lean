import ServiceContract.Error
import ServiceContract.Project.Tree
import ServiceContract.Program.SourceFile

/-! # The sources of a project

A scan walks a tree in the order of names and takes every source file. Hidden entries are left
out, as are the directories of build results, tests, benchmarks and examples.
-/

namespace ServiceContract

/-- A source file that was found and is not yet read. -/
structure RawSource where
  path : String
  content : ByteArray

/-- The sources below a path, with a warning for what could not be visited. -/
structure Scan where
  sources : List RawSource
  warnings : List String

/-- The directories that are no part of a service. -/
def skippedDirectories : List String := ["target", "tests", "benches", "examples"]

/-- Whether a scan passes over an entry. -/
def Entry.isSkipped (name : String) (e : Entry) : Bool :=
  name.toList.head? == some '.' || (e.isDirectory && skippedDirectories.contains name)

/-- Whether the file at a path is a source file. -/
def isSourcePath (path : String) : Bool :=
  ((Path.names path).getLast?.bind Path.extension?) == some "rs"

mutual

/-- The sources of the entry at a path. -/
def Entry.sources (path : String) : Entry → List RawSource
  | .file content => if isSourcePath path then [⟨path, content⟩] else []
  | .directory entries => sourcesOfEntries path entries

/-- The sources of entries of the directory at a path. -/
def sourcesOfEntries (path : String) : List (String × Entry) → List RawSource
  | [] => []
  | (name, e) :: rest =>
    (if e.isSkipped name then [] else e.sources (Path.join path name)) ++
      sourcesOfEntries path rest

end

/-- Scans what is at a path of a tree. -/
def Scan.ofTree (tree : Entry) (path : String) : Scan :=
  match tree.at? path with
  | .ok e => ⟨e.sources path, []⟩
  | .error cause =>
    ⟨[], ["Failed to access path: IO error for operation on " ++ path ++ ": " ++ cause.message]⟩

/-- Reads a source file. -/
def RawSource.load (raw : RawSource) : Except Error SourceFile :=
  match String.fromUTF8? raw.content with
  | none => .error (.io "stream did not contain valid UTF-8")
  | some text =>
    match SourceFile.read? raw.path text with
    | none => .error (.parse raw.path "not a source file")
    | some file => .ok file

end ServiceContract
