import ServiceContract.Document.Codec
import ServiceContract.Document.Generate

/-! # Arguments of the command line

The command takes one operand, the project, and options by a short or a long name. A value stands
in the argument of its option, after `=` where the name is long, or in the next argument. It is
checked when the next option or operand comes, so an unknown name is reported first.
-/

namespace ServiceContract

/-- Why arguments do not start a run. -/
inductive UsageError
  | helpRequested
  | versionRequested
  | unknownArgument
  | invalidValue
  | missingArgument
  | repeatedArgument
  | unexpectedValue
  deriving DecidableEq, Repr

/-- The format in which a document is written. -/
inductive OutputFormat
  | json
  | yaml
  deriving DecidableEq, Repr

def OutputFormat.ofName? : String → Option OutputFormat
  | "json" => some .json
  | "yaml" => some .yaml
  | _ => none

/-- The text of a document in a format. -/
def OutputFormat.text (format : OutputFormat) (d : Document) : String :=
  match format with
  | .json => d.jsonText
  | .yaml => d.yamlText

/-- Defaults from the environment. -/
structure Environment where
  title : Option String := none
  version : Option String := none

/-- What a run is asked to do. -/
structure Arguments where
  project : String
  format : OutputFormat
  output : Option String
  config : Config
  strict : Bool
  verbose : Bool

/-- What takes a value: the operand or an option. -/
inductive Slot
  | project
  | format
  | output
  | title
  | version
  | description
  | server
  | entryPoint
  deriving DecidableEq, Repr

/-- An option without a value. -/
inductive Switch
  | strict
  | verbose
  | help
  | version
  deriving DecidableEq, Repr

/-- A named option. -/
inductive Setting
  | slot (slot : Slot)
  | switch (switch : Switch)
  deriving DecidableEq, Repr

namespace Setting

def ofLongName? : String → Option Setting
  | "format" => some (.slot .format)
  | "output" => some (.slot .output)
  | "title" => some (.slot .title)
  | "api-version" => some (.slot .version)
  | "description" => some (.slot .description)
  | "server" => some (.slot .server)
  | "entry" => some (.slot .entryPoint)
  | "strict" => some (.switch .strict)
  | "verbose" => some (.switch .verbose)
  | "help" => some (.switch .help)
  | "version" => some (.switch .version)
  | _ => none

def ofShortName? : Char → Option Setting
  | 'f' => some (.slot .format)
  | 'o' => some (.slot .output)
  | 'v' => some (.switch .verbose)
  | 'h' => some (.switch .help)
  | 'V' => some (.switch .version)
  | _ => none

end Setting

namespace Slot

/-- Whether the slot takes more than one value. -/
def isRepeatable : Slot → Bool
  | .server => true
  | .entryPoint => true
  | _ => false

/-- Whether a text is a value of the slot: paths are not empty, formats are known. -/
def accepts (s : Slot) (value : String) : Bool :=
  match s with
  | .project => !value.isEmpty
  | .output => !value.isEmpty
  | .format => (OutputFormat.ofName? value).isSome
  | _ => true

end Slot

/-- Arguments while they are read. -/
structure Reading where
  /-- The values in the order in which they were given. -/
  values : List (Slot × String) := []
  switches : List Switch := []
  /-- The slot that was met last, with its value if that has come; it is not checked yet. -/
  pending : Option (Slot × Option String) := none
  operandSeen : Bool := false
  /-- Whether all that follows are operands. -/
  operandsOnly : Bool := false

namespace Reading

/-- Takes over a value. -/
def give (r : Reading) (s : Slot) (value : String) : Except UsageError Reading :=
  if !s.isRepeatable && r.values.any (·.1 == s) then .error .repeatedArgument
  else if !s.accepts value then .error .invalidValue
  else .ok { r with values := r.values ++ [(s, value)] }

/-- Takes over the pending value. -/
def settle (r : Reading) : Except UsageError Reading :=
  match r.pending with
  | none => .ok r
  | some (_, none) => .error .invalidValue
  | some (s, some value) => give { r with pending := none } s value

def turnOn (r : Reading) (s : Switch) : Except UsageError Reading := do
  let r ← r.settle
  match s with
  | .help => throw .helpRequested
  | .version => throw .versionRequested
  | s =>
    if r.switches.contains s then throw .repeatedArgument
    else return { r with switches := r.switches ++ [s] }

/-- Meets an option with a value in the same argument or none yet. -/
def meet (r : Reading) (s : Slot) (value : Option String) : Except UsageError Reading := do
  let r ← r.settle
  match value with
  | some v => r.give s v
  | none => return { r with pending := some (s, none) }

def operand (r : Reading) (text : String) : Except UsageError Reading := do
  if r.operandSeen then throw .unknownArgument
  let r ← r.settle
  return { r with pending := some (.project, some text), operandSeen := true }

/-- Reads what follows the two dashes of a long name. -/
def long (r : Reading) (body : List Char) : Except UsageError Reading :=
  let name := String.ofList (body.takeWhile (· != '='))
  let value := match body.dropWhile (· != '=') with
    | [] => none
    | _ :: text => some (String.ofList text)
  match Setting.ofLongName? name, value with
  | none, _ => .error .unknownArgument
  | some (.slot s), value => r.meet s value
  | some (.switch _), some _ => .error .unexpectedValue
  | some (.switch s), none => r.turnOn s

/-- Reads short names that stand in one argument; the rest of it is the value of the first that
takes one. -/
def short (r : Reading) : List Char → Except UsageError Reading
  | [] => .ok r
  | c :: cs =>
    match Setting.ofShortName? c with
    | none => .error .unknownArgument
    | some (.slot s) => r.meet s <| match cs with
      | [] => none
      | '=' :: text => some (String.ofList text)
      | text => some (String.ofList text)
    | some (.switch s) => do short (← r.turnOn s) cs

/-- Reads an argument that is no name: the value that is awaited, or an operand. -/
def plain (r : Reading) (text : String) : Except UsageError Reading :=
  match r.pending with
  | some (s, none) => .ok { r with pending := some (s, some text) }
  | _ => r.operand text

def argument (r : Reading) (text : String) : Except UsageError Reading :=
  if r.operandsOnly then r.operand text
  else match text.toList with
    | ['-', '-'] => .ok { r with operandsOnly := true }
    | '-' :: '-' :: body => r.long body
    | '-' :: c :: body => r.short (c :: body)
    | _ => r.plain text

/-- The values of a slot. -/
def valuesOf (r : Reading) (s : Slot) : List String :=
  (r.values.filter (·.1 == s)).map (·.2)

def value? (r : Reading) (s : Slot) : Option String := (r.valuesOf s).head?

/-- The configuration: what was given goes before the environment, and that before the
defaults. -/
def config (r : Reading) (env : Environment) : Config :=
  let base : Config := {}
  let entryPoints := r.valuesOf .entryPoint
  { title := ((r.value? .title).or env.title).getD base.title
    version := ((r.value? .version).or env.version).getD base.version
    description := r.value? .description
    servers := r.valuesOf .server
    entryPoints := if entryPoints.isEmpty then base.entryPoints else entryPoints }

end Reading

/-- Reads the arguments of a run. -/
def Arguments.parse (env : Environment) (args : List String) : Except UsageError Arguments := do
  let r ← (← args.foldlM Reading.argument {}).settle
  match r.value? .project with
  | none => throw .missingArgument
  | some project => return {
      project
      format := ((r.value? .format).bind OutputFormat.ofName?).getD .json
      output := r.value? .output
      config := r.config env
      strict := r.switches.contains .strict
      verbose := r.switches.contains .verbose }

end ServiceContract
