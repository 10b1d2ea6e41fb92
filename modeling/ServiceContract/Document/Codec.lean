import ServiceContract.Document.Model
import ServiceContract.Yaml.Printer
import ServiceContract.Json.Parser
import ServiceContract.Schema.Codec

/-! # Documents as JSON and YAML

The keys of each record are written in a fixed order. Absent values are not written, nor are
empty lists of tags, parameters and security, an operation that is not deprecated, and empty
components.
-/

namespace ServiceContract

open Json (fieldOf needed optional defaulted record? nullable)

/-- A list that is not written when it is empty. -/
def Json.listField {α : Type} (key : String) (write : α → Json) (items : List α) :
    List (String × Json) :=
  if items.isEmpty then [] else [(key, .arr (items.map write))]

/-- An object of values of one kind. -/
def Json.ofEntries {α : Type} (write : α → Json) (entries : List (String × α)) : Json :=
  .obj (entries.map fun (k, a) => (k, write a))

/-- An object that is not written when it is empty. -/
def Json.entriesField {α : Type} (key : String) (write : α → Json)
    (entries : List (String × α)) : List (String × Json) :=
  if entries.isEmpty then [] else [(key, Json.ofEntries write entries)]

namespace Info

def toJson (i : Info) : Json :=
  .obj ([("title", .str i.title), ("version", .str i.version)] ++
    fieldOf "description" .str i.description)

def ofJson? (v : Json) : Option Info := do
  let fields ← record? ["title", "version", "description"] 0 v
  return { title := ← needed "title" Json.string? fields
           version := ← needed "version" Json.string? fields
           description := ← optional "description" Json.string? fields }

end Info

namespace Parameter

def toJson (p : Parameter) : Json :=
  .obj ([("name", .str p.name), ("in", .str p.location), ("required", .bool p.required)] ++
    fieldOf "description" .str p.description ++ [("schema", p.schema.toJson)])

def ofJson? (v : Json) : Option Parameter := do
  let fields ← record? ["name", "in", "required", "description", "schema"] 0 v
  return { name := ← needed "name" Json.string? fields
           location := ← needed "in" Json.string? fields
           required := ← needed "required" Json.bool? fields
           description := ← optional "description" Json.string? fields
           schema := ← needed "schema" Schema.ofJson? fields }

end Parameter

namespace Content

def toJson (c : Content) : Json := Json.ofEntries (fun s => .obj [("schema", s.toJson)]) c

def mediaType? (v : Json) : Option Schema := do
  let fields ← record? ["schema"] 0 v
  needed "schema" Schema.ofJson? fields

def ofJson? (v : Json) : Option Content := Json.entries? mediaType? v

end Content

namespace RequestBody

def toJson (b : RequestBody) : Json :=
  .obj (fieldOf "description" .str b.description ++
    [("required", .bool b.required), ("content", Content.toJson b.content)])

def ofJson? (v : Json) : Option RequestBody := do
  let fields ← record? ["description", "required", "content"] 0 v
  return { description := ← optional "description" Json.string? fields
           required := ← needed "required" Json.bool? fields
           content := ← needed "content" Content.ofJson? fields }

end RequestBody

namespace Header

def toJson (h : Header) : Json :=
  .obj (fieldOf "description" .str h.description ++ [("schema", h.schema.toJson)])

def ofJson? (v : Json) : Option Header := do
  let fields ← record? ["description", "schema"] 0 v
  return { description := ← optional "description" Json.string? fields
           schema := ← needed "schema" Schema.ofJson? fields }

end Header

namespace Response

def toJson (r : Response) : Json :=
  .obj ([("description", .str r.description)] ++
    fieldOf "headers" (Json.ofEntries Header.toJson) r.headers ++
    fieldOf "content" Content.toJson r.content ++ r.extensions)

/-- The keys of a response that are no extensions. -/
def knownKeys : List String := ["description", "headers", "content"]

def ofJson? : Json → Option Response
  | .obj fields => do
    return { description := ← needed "description" Json.string? fields
             headers := ← optional "headers" (Json.entries? Header.ofJson?) fields
             content := ← optional "content" Content.ofJson? fields
             extensions := Json.extensions knownKeys fields }
  | _ => none

end Response

namespace SecurityScheme

def toJson (s : SecurityScheme) : Json :=
  .obj [("type", .str s.type), ("name", .str s.name), ("in", .str s.location)]

def ofJson? (v : Json) : Option SecurityScheme := do
  let fields ← record? ["type", "name", "in"] 0 v
  return { type := ← needed "type" Json.string? fields
           name := ← needed "name" Json.string? fields
           location := ← needed "in" Json.string? fields }

end SecurityScheme

namespace Operation

def toJson (o : Operation) : Json :=
  .obj (Json.listField "tags" .str o.tags ++ fieldOf "summary" .str o.summary ++
    fieldOf "description" .str o.description ++ [("operationId", .str o.operationId)] ++
    Json.listField "parameters" Parameter.toJson o.parameters ++
    fieldOf "requestBody" RequestBody.toJson o.requestBody ++
    [("responses", Json.ofEntries Response.toJson o.responses)] ++
    (if o.deprecated then [("deprecated", .bool true)] else []) ++
    Json.listField "security"
      (Json.ofEntries fun (scopes : List String) => .arr (scopes.map .str)) o.security)

def keys : List String :=
  ["tags", "summary", "description", "operationId", "parameters", "requestBody", "responses",
   "deprecated", "security"]

def ofJson? (v : Json) : Option Operation := do
  let fields ← record? keys 2 v
  return { tags := ← defaulted "tags" [] (Json.list? Json.string?) fields
           summary := ← optional "summary" Json.string? fields
           description := ← optional "description" Json.string? fields
           operationId := ← needed "operationId" Json.string? fields
           parameters := ← defaulted "parameters" [] (Json.list? Parameter.ofJson?) fields
           requestBody := ← optional "requestBody" RequestBody.ofJson? fields
           responses := ← needed "responses" (Json.sortedEntries? Response.ofJson?) fields
           deprecated := ← defaulted "deprecated" false Json.bool? fields
           security := ← defaulted "security" []
             (Json.list? (Json.sortedEntries? (Json.list? Json.string?))) fields }

end Operation

namespace PathItem

def toJson (item : PathItem) : Json :=
  .obj (item.operations.map fun (m, op) => (m.key, op.toJson))

/-- Reads the operations of some methods. -/
def ofFields? (fields : List (String × Json)) : List Method → Option PathItem
  | [] => some {}
  | m :: ms => do
    let op ← optional m.key Operation.ofJson? fields
    let item ← ofFields? fields ms
    match op with
    | some op => return item.set m op
    | none => return item

def ofJson? (v : Json) : Option PathItem := do
  let fields ← record? (Method.all.map Method.key) 0 v
  ofFields? fields Method.all

end PathItem

namespace Components

def toJson (c : Components) : Json :=
  .obj (Json.entriesField "schemas" Schema.toJson c.schemas ++
    Json.entriesField "securitySchemes" SecurityScheme.toJson c.securitySchemes)

def ofJson? (v : Json) : Option Components := do
  let fields ← record? ["schemas", "securitySchemes"] 2 v
  return { schemas := ← defaulted "schemas" [] (Json.sortedEntries? Schema.ofJson?) fields
           securitySchemes := ← defaulted "securitySchemes" []
             (Json.sortedEntries? SecurityScheme.ofJson?) fields }

end Components

namespace Document

def serverJson (url : String) : Json := .obj [("url", .str url)]

def server? (v : Json) : Option String := do
  let fields ← record? ["url"] 0 v
  needed "url" Json.string? fields

def toJson (d : Document) : Json :=
  .obj [("openapi", .str d.openapi), ("info", d.info.toJson),
    ("servers", .arr (d.servers.map serverJson)),
    ("paths", Json.ofEntries PathItem.toJson d.paths), ("components", d.components.toJson)]

def ofJson? (v : Json) : Option Document := do
  let fields ← record? ["openapi", "info", "servers", "paths", "components"] 0 v
  return { openapi := ← needed "openapi" Json.string? fields
           info := ← needed "info" Info.ofJson? fields
           servers := ← needed "servers" (Json.list? server?) fields
           paths := ← needed "paths" (Json.sortedEntries? PathItem.ofJson?) fields
           components := ← needed "components" Components.ofJson? fields }

/-- The text of a document as JSON. -/
def jsonText (d : Document) : String := d.toJson.pretty ++ "\n"

/-- Reads a document from its text as JSON. -/
def read? (text : String) : Option Document := (Json.parse? text).bind ofJson?

/-- The text of a document as YAML. -/
def yamlText (d : Document) : String := Yaml.document d.toJson

end Document

end ServiceContract
