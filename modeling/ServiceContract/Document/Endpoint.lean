import ServiceContract.Operator.Compiler
import ServiceContract.Route.Tree

/-! # Endpoints

The operators of a route are folded into one endpoint. Its path is made of all their paths.
Middleware and the last operator contribute parameters and errors, every operator its path
parameters and its security, and the last body counts. What else describes the operation belongs
to the last operator.
-/

namespace ServiceContract

/-- A route folded into one operation. -/
structure Endpoint where
  path : String
  method : String
  label : String
  leaf : Operator
  parameters : List Parameter
  requestBody : Option RequestBody
  statusErrors : List StatusError
  security : List (String × SecurityScheme)

namespace Endpoint

/-- Whether a parameter of this name and location is among some. -/
def hasParameter (ps : List Parameter) (name location : String) : Bool :=
  ps.any fun p => p.name == name && p.location == location

/-- A segment of a path in a document: a parameter that is declared stands in braces, and one
that is not is zero. -/
def templateSegment (parameters : List Parameter) (segment : String) : String :=
  match Text.stripPrefix? ":" segment with
  | some name =>
    if hasParameter parameters name ParamLocation.path.text then "\x7b" ++ name ++ "\x7d" else "0"
  | none => segment

/-- The path in a document: no empty segments, and parameters in braces. -/
def templatePath (raw : String) (parameters : List Parameter) : String :=
  "/" ++ Text.join "/"
    (((Text.splitOn '/' raw).filter fun s => !s.isEmpty).map (templateSegment parameters))

/-- Appends a parameter, unless there is one of its name and location. -/
def addParameter (ps : List Parameter) (p : Parameter) : List Parameter :=
  if hasParameter ps p.name p.location then ps else ps ++ [p]

/-- Appends a scheme, unless there is one of its name. -/
def addScheme (schemes : List (String × SecurityScheme)) (scheme : String × SecurityScheme) :
    List (String × SecurityScheme) :=
  if schemes.any fun s => s.1 == scheme.1 then schemes else schemes ++ [scheme]

/-- The operators of a chain, each with whether it contributes all that it has. -/
def contributions (chain : List Operator) : List (Operator × Bool) :=
  chain.zipIdx.map fun (op, i) => (op, i + 1 == chain.length || op.middleware)

/-- The parameters that an operator contributes. -/
def contributed (c : Operator × Bool) : List Parameter :=
  c.1.parameters.filter fun p => c.2 || p.location == ParamLocation.path.text

/-- The endpoint of a chain of operators. -/
def fold (chain : List Operator) (label : String) : Endpoint :=
  let cs := contributions chain
  let parameters := (cs.flatMap contributed).foldl addParameter []
  let leaf := chain.getLast?.getD (.group "")
  { path := templatePath (Text.join "/" (chain.map (·.path))) parameters
    method := leaf.method.getD "GET"
    label
    leaf
    parameters
    requestBody := chain.foldl (fun body op => op.requestBody.or body) none
    statusErrors := (cs.flatMap fun c => if c.2 then c.1.statusErrors else []).foldl
      StatusError.addNew []
    security := (chain.flatMap (·.security)).foldl addScheme [] }

/-- The order of endpoints: by path, method and label. -/
def le (a b : Endpoint) : Bool :=
  !decide ([b.path, b.method, b.label] < [a.path, a.method, a.label])

/-- The first endpoint whose identifier an earlier one has. -/
def duplicate? (seen : List (String × String)) : List Endpoint → Option Error
  | [] => none
  | e :: rest =>
    match seen.lookup e.leaf.id with
    | some first => some (.duplicateOperationId e.leaf.id first e.label)
    | none => duplicate? ((e.leaf.id, e.label) :: seen) rest

end Endpoint

end ServiceContract
