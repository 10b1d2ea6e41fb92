import ServiceContract.Association
import ServiceContract.Project.Path

/-! # Trees of files

A tree holds the files of a project by name. Looking up and saving follow a path name by name and
say why they cannot go on.
-/

namespace ServiceContract

/-- A file with its bytes, or a directory with its entries sorted by name. -/
inductive Entry
  | file (content : ByteArray)
  | directory (entries : List (String × Entry))

/-- Why a path cannot be followed or saved to. -/
inductive AccessError
  | missing
  | occupied
  | notDirectory
  | isDirectory
  deriving DecidableEq, Repr

def AccessError.message : AccessError → String
  | .missing => "No such file or directory (os error 2)"
  | .occupied => "File exists (os error 17)"
  | .notDirectory => "Not a directory (os error 20)"
  | .isDirectory => "Is a directory (os error 21)"

/-- Why a file was not saved: a directory above it, or the file itself. -/
inductive SaveError
  | directory (path : String) (cause : AccessError)
  | file (path : String) (cause : AccessError)
  deriving DecidableEq, Repr

def SaveError.message : SaveError → String
  | .directory path cause => "Failed to create directory: " ++ path ++ ": " ++ cause.message
  | .file path cause => "Failed to write to file: " ++ path ++ ": " ++ cause.message

namespace Entry

instance : Inhabited Entry := ⟨.directory []⟩

def isDirectory : Entry → Bool
  | .file _ => false
  | .directory _ => true

/-- The entry that names lead to from an entry; `above` holds the directories around it, the
nearest first. -/
def follow (above : List Entry) (e : Entry) : List String → Except AccessError Entry
  | [] => .ok e
  | name :: rest =>
    match e with
    | .file _ => .error .notDirectory
    | .directory entries =>
      if name == "" || name == "." then follow above e rest
      else if name == ".." then
        match above with
        | [] => follow [] e rest
        | d :: ds => follow ds d rest
      else
        match entries.lookup name with
        | none => .error .missing
        | some child => follow (e :: above) child rest

/-- The entry at a path. -/
def at? (tree : Entry) (path : String) : Except AccessError Entry :=
  follow [] tree (Path.names path)

/-- Puts an entry at a place, below directories that are made where they are missing; nothing
stands below a file. -/
def put (tree : Entry) (new : Entry) : List String → Entry
  | [] => new
  | name :: rest =>
    match tree with
    | .file content => .file content
    | .directory entries =>
      .directory (insertSorted name (put ((entries.lookup name).getD (.directory [])) new rest)
        entries)

/-- Makes the directories that names lead through, from a place on, and tells the place that they
lead to. -/
def makeDirectories (tree : Entry) (place : List String) :
    List String → Except AccessError (Entry × List String)
  | [] => .ok (tree, place)
  | name :: rest =>
    if name == "" || name == "." then makeDirectories tree place rest
    else if name == ".." then makeDirectories tree place.dropLast rest
    else
      let inner := place ++ [name]
      match follow [] tree inner with
      | .ok (.directory _) => makeDirectories tree inner rest
      | .ok (.file _) => .error (if rest.isEmpty then .occupied else .notDirectory)
      | .error _ => makeDirectories (tree.put (.directory []) inner) inner rest

/-- Puts a file at a path whose directories exist; `place` is the directory that holds it. -/
def putFile (tree : Entry) (place : List String) (path : String) (content : ByteArray) :
    Except AccessError Entry :=
  match (Path.names path).getLast? with
  | none => .error .missing
  | some name =>
    if name == "" then .error .isDirectory
    else if name == "." || name == ".." then
      match tree.at? path with
      | .ok _ => .error .isDirectory
      | .error e => .error e
    else
      match follow [] tree (place ++ [name]) with
      | .ok (.directory _) => .error .isDirectory
      | _ => .ok (tree.put (.file content) (place ++ [name]))

/-- Saves a file at a path and makes the directories above it. -/
def save (tree : Entry) (path : String) (content : ByteArray) : Except SaveError Entry := do
  let parent := Path.parent path
  let (tree, place) ← (tree.makeDirectories [] (Path.names parent)).mapError
    (SaveError.directory parent)
  (tree.putFile place path content).mapError (SaveError.file path)

end Entry

end ServiceContract
