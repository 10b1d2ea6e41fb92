import ServiceContract.Document.Model
import ServiceContract.Json.Parser
import ServiceContract.Operator.Fields
import ServiceContract.Response.BodyShape
import ServiceContract.Schema.OfType

/-! # What an operator reads from a request

Each located field becomes a parameter, the body, a property of a form, or a security scheme. The
first body field counts, and it goes before a form. All form fields of an operator make one form,
sent as the first of them says.
-/

namespace ServiceContract

/-- The form fields so far, with the media type of the first. -/
structure FormParts where
  media : String
  properties : List (String × Schema) := []
  required : List String := []

/-- What the fields so far read. -/
structure RequestParts where
  parameters : List Parameter := []
  security : List (String × SecurityScheme) := []
  body : Option RequestBody := none
  form : Option FormParts := none

namespace RequestParts

/-- The value of a default text: a number, a truth value or null as JSON writes them, or else the
text itself. -/
def defaultValue (raw : String) : Json :=
  match Json.parse? raw with
  | some (.arr _) | some (.obj _) | none => .str raw
  | some v => v

/-- The name of a field in the request. -/
def nameOf (site : LocatedField) (f : FieldSchema) : String := site.param.name.getD f.name

/-- Whether the attribute or else the type of a field demands a value. -/
def isRequired (site : LocatedField) (f : FieldSchema) : Bool := site.param.required.getD f.required

/-- The form with one more field. -/
def extendForm (name : String) (site : LocatedField) (f : FieldSchema) (form : FormParts) :
    FormParts :=
  let schema := (f.schema.withExtension Schema.locationKey (.str site.location.text)).settle
  { form with
    properties := setKey name schema form.properties
    required := if isRequired site f then form.required ++ [name] else form.required }

def addForm (media name : String) (site : LocatedField) (f : FieldSchema) (r : RequestParts) :
    RequestParts :=
  { r with form := some (extendForm name site f (r.form.getD { media })) }

def addBody (site : LocatedField) (f : FieldSchema) (r : RequestParts) : RequestParts :=
  if r.body.isSome then r
  else
    let body : RequestBody :=
      { description := f.schema.description
        required := isRequired site f
        content := [(site.param.contentType.getD MediaType.json,
          { f.schema with description := none })] }
    { r with body := some body }

/-- The schema of a parameter, without the description, which stands beside it. -/
def parameterSchema (name : String) (site : LocatedField) (s : Schema) : Schema :=
  let s := { s with description := none }
  let s := if site.param.name.isSome then s.withExtension Schema.nameKey (.str name) else s
  let s := match site.param.default with
    | some raw => { s with default := some (defaultValue raw) }
    | none => s
  s.settle

def addParameter (name : String) (site : LocatedField) (f : FieldSchema) (r : RequestParts) :
    RequestParts :=
  let parameter : Parameter :=
    { name
      location := site.location.text
      required := site.location == .path || isRequired site f
      description := f.schema.description
      schema := parameterSchema name site f.schema }
  { r with parameters := r.parameters ++ [parameter] }

def addField (r : RequestParts) (site : LocatedField) (f : FieldSchema) : RequestParts :=
  let name := nameOf site f
  match site.location.formMediaType? with
  | some media => r.addForm media name site f
  | none =>
    if site.location == .body then r.addBody site f
    else if site.param.security && site.location != .path then
      { r with security := r.security ++ [(name, .apiKey name site.location.text)] }
    else r.addParameter name site f

/-- The request body: the body field, or else the form. -/
def requestBody (r : RequestParts) : Option RequestBody :=
  match r.body, r.form with
  | some body, _ => some body
  | none, some form => some
    { required := !form.required.isEmpty
      content := [(form.media, Schema.object form.properties form.required)] }
  | none, none => none

/-- Compiles located fields one after the other. -/
def ofFields (p : Program) (r : RequestParts) : List LocatedField → Compile RequestParts
  | [] => return r
  | site :: rest => do
    let f ← p.compileMember site.field site.container site.module
    ofFields p (r.addField site f) rest

end RequestParts

end ServiceContract
