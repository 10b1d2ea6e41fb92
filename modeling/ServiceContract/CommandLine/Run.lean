import ServiceContract.CommandLine.Arguments
import ServiceContract.Document.Codec
import ServiceContract.Program.Recording
import ServiceContract.Project.Scan

/-! # Runs

A run checks its arguments, reads every source of the project and writes the document, either to
the standard output or to a file. Nothing is written when it fails.
-/

namespace ServiceContract

/-- Why a run fails. -/
inductive RunError
  | projectMissing (path : String)
  | projectNotDirectory (path : String)
  | emptyEntryPoint
  | emptyTitle
  | noSources
  | skippedEndpoints (count : Nat)
  | notSaved (cause : SaveError)
  | analysis (cause : Error)
  deriving DecidableEq, Repr

def RunError.message : RunError → String
  | .projectMissing path => "Project path does not exist: " ++ path
  | .projectNotDirectory path => "Project path is not a directory: " ++ path
  | .emptyEntryPoint => "Entry-point names must not be empty"
  | .emptyTitle => "Title must not be empty"
  | .noSources => "No Rust files found in the project directory"
  | .skippedEndpoints count =>
    Text.decimal count ++ " endpoint(s) were skipped and --strict is set"
  | .notSaved cause => cause.message
  | .analysis cause => cause.message

/-- The counts of a run. -/
structure RunSummary where
  scanned : Nat
  parsed : Nat
  operations : Nat
  skipped : Nat
  deriving DecidableEq, Repr

/-- The text that a run writes, with its counts. -/
structure RunResult where
  text : String
  summary : RunSummary

/-- What is left after a run: the text on the standard output, and the tree. -/
structure RunEffect where
  printed : String
  tree : Entry
  summary : RunSummary

namespace Arguments

def isBlankText (s : String) : Bool := s.toList.all Unicode.isWhitespace

/-- Checks the arguments that can be wrong although they can be read. -/
def validate (args : Arguments) (tree : Entry) : Except RunError Unit := do
  match tree.at? args.project with
  | .error _ => throw (.projectMissing args.project)
  | .ok (.file _) => throw (.projectNotDirectory args.project)
  | .ok (.directory _) =>
    if args.config.entryPoints.any isBlankText then throw .emptyEntryPoint
    if isBlankText args.config.title then throw .emptyTitle

/-- Generates the document of the project in a tree. -/
def generate (args : Arguments) (tree : Entry) : Except RunError RunResult := do
  args.validate tree
  let sources := (Scan.ofTree tree args.project).sources
  if sources.isEmpty then throw .noSources
  let files ← (sources.mapM RawSource.load).mapError .analysis
  let generation ← (Generation.ofProgram (.ofFiles files) args.config).mapError .analysis
  if args.strict && !generation.skipped.isEmpty then
    throw (.skippedEndpoints generation.skipped.length)
  let summary : RunSummary :=
    { scanned := sources.length
      parsed := files.length
      operations := generation.document.operations.length
      skipped := generation.skipped.length }
  return ⟨args.format.text generation.document, summary⟩

/-- Generates the document and puts it where it belongs. -/
def run (args : Arguments) (tree : Entry) : Except RunError RunEffect := do
  let result ← args.generate tree
  match args.output with
  | none => return ⟨result.text, tree, result.summary⟩
  | some path =>
    let tree ← (tree.save path result.text.toUTF8).mapError .notSaved
    return ⟨"", tree, result.summary⟩

end Arguments

end ServiceContract
