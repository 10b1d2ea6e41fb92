import ServiceContract.CommandLine.Run

/-! # The command

The names of the project's files come on the standard input, one to a line. The document goes to
the standard output or to the file that the arguments name, and the counts of the run to the
standard error.
-/

namespace ServiceContract

def usage : String := Text.join "\n" [
  "Generate an OpenAPI document from the router and operator declarations of a service.",
  "",
  "usage: service-contract [OPTIONS] PROJECT_PATH < FILE_NAMES",
  "",
  "  -f, --format json|yaml     output format [json]",
  "  -o, --output FILE          output file instead of the standard output",
  "      --title TITLE          document title",
  "      --api-version VERSION  document version",
  "      --description TEXT     document description",
  "      --server URL           server URL, may be repeated",
  "      --entry FN             entry-point function, may be repeated",
  "      --strict               fail when an endpoint had to be left out",
  "  -v, --verbose              list the endpoints that were left out",
  "  -h, --help                 this text",
  "  -V, --version              the version"]

def versionText : String := "service-contract 0.1.0"

def UsageError.message : UsageError → String
  | .helpRequested => usage
  | .versionRequested => versionText
  | .unknownArgument => "unknown argument"
  | .invalidValue => "missing or invalid value"
  | .missingArgument => "the project path is missing"
  | .repeatedArgument => "an option was given twice"
  | .unexpectedValue => "an option takes no value"

def UsageError.isRequest : UsageError → Bool
  | .helpRequested => true
  | .versionRequested => true
  | _ => false

/-- Reads the names of files and puts the files into a tree. -/
partial def readProject (input : IO.FS.Stream) (tree : Entry) : IO Entry := do
  let line ← input.getLine
  if line.isEmpty then return tree
  let path := String.ofList (Text.dropEndWhile (fun c => c == '\n' || c == '\r') line.toList)
  if path.isEmpty then readProject input tree
  else
    let content ← IO.FS.readBinFile path
    match tree.save path content with
    | .ok tree => readProject input tree
    | .error e => throw (IO.userError e.message)

/-- Writes the text of a document to its place. -/
def deliver (output : Option String) (text : String) : IO Unit :=
  match output with
  | none => IO.print text
  | some path => do
    let parent := Path.parent path
    unless parent.isEmpty do IO.FS.createDirAll parent
    IO.FS.writeFile path text

end ServiceContract

open ServiceContract in
/-- Generates the document of the project that the arguments name. -/
def main (args : List String) : IO UInt32 := do
  let env : Environment := ⟨← IO.getEnv "OPENAPI_TITLE", ← IO.getEnv "OPENAPI_VERSION"⟩
  match Arguments.parse env args with
  | .error e =>
    if e.isRequest then
      IO.println e.message
      return 0
    IO.eprintln ("error: " ++ e.message ++ "\n\n" ++ usage)
    return 2
  | .ok args =>
    let tree ← readProject (← IO.getStdin) default
    match args.generate tree with
    | .error e =>
      IO.eprintln ("Error: " ++ e.message)
      return 1
    | .ok result =>
      deliver args.output result.text
      let s := result.summary
      IO.eprintln (Text.decimal s.parsed ++ " file(s), " ++ Text.decimal s.operations ++
        " operation(s), " ++ Text.decimal s.skipped ++ " skipped endpoint(s)")
      return 0
