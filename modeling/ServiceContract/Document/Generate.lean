import ServiceContract.Document.Endpoint
import ServiceContract.StatusError.Formatter

/-! # Generating documents

Every route that ends in a struct becomes an operation, or is reported as skipped: a field of one
of its operators has no location, its method is none that a document has, or its place is taken
by an endpoint of smaller label.
-/

namespace ServiceContract

/-- What a document says besides its operations, and where the search for the root begins. -/
structure Config where
  title : String := "Generated API"
  version : String := "1.0.0"
  description : Option String := none
  /-- The addresses of servers; the root of the host when there are none. -/
  servers : List String := []
  entryPoints : List String := ["main", "init"]

/-- A route that is left out of the document. -/
structure Skipped where
  route : String
  reason : String
  deriving DecidableEq, Repr

/-- A document with the routes that are not in it. -/
structure Generation where
  document : Document
  skipped : List Skipped

namespace Generation

/-- The version of the format of documents. -/
def formatVersion : String := "3.0.3"

/-- The media type of error responses. -/
def errorMedia : String := "application/json"

/-- The endpoints of routes and the routes that are skipped. -/
def endpoints (search : ErrorSearch) (skipped : List Skipped) (found : List Endpoint) :
    List Route → OperatorCompile (List Endpoint × List Skipped)
  | [] => return (found, skipped)
  | route :: rest => do
    if route.leaf?.any OperatorRef.isGroup then endpoints search skipped found rest
    else
      match ← observing (route.chain.mapM (Operator.compile search)) with
      | .ok chain => endpoints search skipped (found ++ [.fold chain route.label]) rest
      | .error e =>
        if e.isFatal then throw e
        else endpoints search (skipped ++ [⟨route.label, e.message⟩]) found rest

/-- The schema of error responses: the type of the formatter, or the record of errors. -/
def errorSchema (p : Program) : Option ErrorFormatter → OperatorCompile Schema
  | some f => OperatorCompile.onTable (p.compileType f.type.toType f.module)
  | none => fun s =>
    let (schema, table) := s.table.registerBuiltin "StatusError" StatusError.recordSchema
    (.ok schema, { s with table })

/-- The schema of error responses, if an endpoint has errors. -/
def responseSchema (p : Program) (formatter : Option ErrorFormatter) (es : List Endpoint) :
    OperatorCompile (Option Schema) :=
  if es.any fun e => !e.statusErrors.isEmpty then some <$> errorSchema p formatter else pure none

/-- The extension that lists the errors of a response. -/
def withErrors (errors : List StatusError) (r : Response) : Response :=
  let summaries := (errors.map StatusError.summary).mergeSort fun a b => !decide (b < a)
  { r with
    extensions := insertSorted Schema.errorsKey (.arr (summaries.map .str)) r.extensions }

/-- The response of a status that only errors have. -/
def errorResponse (schema : Schema) (status : Nat) : Response :=
  { description := reasonPhrase status, content := some [(errorMedia, schema)] }

/-- Lists the errors of one status in the response of that status. -/
def addErrors (schema : Schema) (responses : List (String × Response))
    (bucket : Nat × List StatusError) : List (String × Response) :=
  let key := Text.decimal bucket.1
  let response := (responses.lookup key).getD (errorResponse schema bucket.1)
  insertSorted key (withErrors bucket.2 response) responses

/-- The responses of an endpoint, by status. -/
def responses (schema : Option Schema) (formatter : Option ErrorFormatter) (e : Endpoint) :
    List (String × Response) :=
  let success := [(Text.decimal e.leaf.response.status, e.leaf.response.response)]
  match schema with
  | none => success
  | some schema => (bucketErrors e.statusErrors formatter).foldl (addErrors schema) success

/-- The operation of an endpoint. -/
def operation (schema : Option Schema) (formatter : Option ErrorFormatter) (e : Endpoint) :
    Operation :=
  { tags := e.leaf.tag.toList
    summary := e.leaf.summary
    description := e.leaf.description
    operationId := e.leaf.id
    parameters := e.parameters
    requestBody := e.requestBody
    responses := responses schema formatter e
    deprecated := e.leaf.deprecated
    security := e.security.map fun (name, _) => [(name, [])] }

/-- The paths and schemes of the operations so far, and the routes that are skipped. -/
structure Placement where
  paths : List (String × PathItem) := []
  schemes : List (String × SecurityScheme) := []
  skipped : List Skipped

/-- Inserts a scheme, unless there is one of its name. -/
def addScheme (schemes : List (String × SecurityScheme)) (scheme : String × SecurityScheme) :
    List (String × SecurityScheme) :=
  if (schemes.lookup scheme.1).isSome then schemes else insertSorted scheme.1 scheme.2 schemes

def Placement.skip (s : Placement) (e : Endpoint) (reason : String) : Placement :=
  { s with skipped := s.skipped ++ [⟨e.label, reason⟩] }

/-- Puts an endpoint into its place, if the place exists and is free. -/
def Placement.add (make : Endpoint → Operation) (s : Placement) (e : Endpoint) : Placement :=
  match Method.ofName? e.method with
  | none => s.skip e ("unsupported method " ++ e.method)
  | some m =>
    let item := (s.paths.lookup e.path).getD {}
    if (item.operation? m).isSome then
      s.skip e (e.method ++ " " ++ e.path ++ " is already served")
    else
      { s with paths := insertSorted e.path (item.set m (make e)) s.paths
               schemes := e.security.foldl addScheme s.schemes }

/-- The document of a placement. -/
def assemble (config : Config) (s : Placement) (schemas : List (String × Schema)) : Document :=
  { openapi := formatVersion
    info := ⟨config.title, config.version, config.description⟩
    servers := if config.servers.isEmpty then ["/"] else config.servers
    paths := s.paths
    components := ⟨schemas, s.schemes⟩ }

/-- Generates from the routes of a program. -/
def ofRoutes (p : Program) (config : Config) (routes : List Route) :
    OperatorCompile Generation := do
  let formatter := ErrorFormatter.detect? p
  let (found, skipped) ← endpoints (.ofProgram p) [] [] routes
  let sorted := found.mergeSort Endpoint.le
  match Endpoint.duplicate? [] sorted with
  | some e => throw e
  | none =>
    let schema ← responseSchema p formatter sorted
    let placed := sorted.foldl (Placement.add (operation schema formatter)) { skipped }
    return ⟨assemble config placed (← get).table.components, placed.skipped⟩

/-- Generates the document of a program. -/
def ofProgram (p : Program) (config : Config) : Except Error Generation := do
  let tree ← RouteTree.ofProgram p config.entryPoints
  ((ofRoutes p config tree.routes).runOn {}).1

end Generation

end ServiceContract
