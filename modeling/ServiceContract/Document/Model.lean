import ServiceContract.Http.Method
import ServiceContract.Schema.Basic

/-! # Documents

The description of a service: its paths, the operations on them and the components that these
refer to. Maps whose order is written are lists of pairs in that order; the others are lists of
pairs sorted by key.
-/

namespace ServiceContract

structure Info where
  title : String
  version : String
  description : Option String := none
  deriving DecidableEq, Repr

/-- A parameter of an operation; `location` is where it stands in the request. -/
structure Parameter where
  name : String
  location : String
  required : Bool
  description : Option String := none
  schema : Schema

/-- Schemas by media type. -/
abbrev Content := List (String × Schema)

structure RequestBody where
  description : Option String := none
  required : Bool
  content : Content

structure Header where
  description : Option String := none
  schema : Schema

/-- A response; `extensions` are sorted by key. -/
structure Response where
  description : String
  headers : Option (List (String × Header)) := none
  content : Option Content := none
  extensions : List (String × Json) := []

/-- A way in which a request proves who sends it. -/
structure SecurityScheme where
  type : String
  name : String
  location : String
  deriving DecidableEq, Repr

/-- A key that stands in the request under a name. -/
def SecurityScheme.apiKey (name location : String) : SecurityScheme := ⟨"apiKey", name, location⟩

/-- An operation; `responses` are sorted by status, and each entry of `security` by scheme. -/
structure Operation where
  tags : List String := []
  summary : Option String := none
  description : Option String := none
  operationId : String
  parameters : List Parameter := []
  requestBody : Option RequestBody := none
  responses : List (String × Response)
  deprecated : Bool := false
  security : List (List (String × List String)) := []

/-- The operations on a path by method. -/
structure PathItem where
  operation? : Method → Option Operation := fun _ => none

namespace PathItem

/-- The item with an operation for a method. -/
def set (item : PathItem) (m : Method) (op : Operation) : PathItem :=
  ⟨fun n => if n = m then some op else item.operation? n⟩

/-- The operations with their methods, in the order of the methods. -/
def operations (item : PathItem) : List (Method × Operation) :=
  Method.all.filterMap fun m => (item.operation? m).map fun op => (m, op)

end PathItem

/-- What operations refer to, sorted by name. -/
structure Components where
  schemas : List (String × Schema) := []
  securitySchemes : List (String × SecurityScheme) := []

/-- A document; `servers` are addresses, and `paths` are sorted. -/
structure Document where
  openapi : String
  info : Info
  servers : List String
  paths : List (String × PathItem)
  components : Components

/-- The operations of a document with their methods and paths. -/
def Document.operations (d : Document) : List (Method × String × Operation) :=
  d.paths.flatMap fun (path, item) => item.operations.map fun (m, op) => (m, path, op)

end ServiceContract
