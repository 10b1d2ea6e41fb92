import ServiceContract.Http.Status
import ServiceContract.Operator.Basic
import ServiceContract.Response.BodyShape
import ServiceContract.Response.BuilderChain
import ServiceContract.Schema.OfType

/-! # The successful response of an operator

The attribute of the operator goes before what its output method builds, and that before the
declared return type of the method. An attachment goes before any other body.
-/

namespace ServiceContract

open Source

namespace SuccessResponse

/-- What the output method says: the rules of its chains, its body, and its module. -/
structure Output where
  rules : ChainRules := {}
  shape : BodyShape := .empty
  module : List String := []

/-- What an output method says, if there is one. -/
def Output.ofMethod (p : Program) : Option FnDecl → Output
  | some f => ⟨f.chainRules p, .ofReturnType f.returnType, f.module⟩
  | none => {}

/-- The header that names the file of an attachment. -/
def fileHeader (file : String) : String × Header :=
  ("Content-Disposition",
    { description := some ("attachment; filename=\"" ++ file ++ "\"")
      schema := Schema.typed "string" })

/-- The type and media type of a body that is no attachment. -/
def bodyType? (attr : OperatorAttr) (out : Output) : Option (TypeExpr × String) :=
  match (attr.response.bind parseType?).or out.rules.schema with
  | some t => some (t, MediaType.json)
  | none =>
    match out.shape with
    | .body t media => some (t, media)
    | .empty => none

/-- The schema and media type of the body. -/
def bodyOf (p : Program) (attr : OperatorAttr) (out : Output) :
    Compile (Option (String × Schema)) :=
  match out.rules.attachment with
  | some (_, media) => return some (media, Schema.binary)
  | none =>
    match bodyType? attr out with
    | some (t, media) => return some (media, ← p.compileType t out.module)
    | none => return none

/-- The response with such a body. -/
def assemble (attr : OperatorAttr) (out : Output) (body : Option (String × Schema)) :
    SuccessResponse :=
  let status := (attr.status.or out.rules.status).getD (if body.isSome then 200 else 204)
  { status
    response :=
      { description := reasonPhrase status
        headers := out.rules.attachment.map fun (file, _) => [fileHeader file]
        content := body.map fun (media, schema) =>
          [((attr.contentType.or out.rules.contentType).getD media, schema)] } }

def compile (p : Program) (attr : OperatorAttr) (method : Option FnDecl) :
    Compile SuccessResponse := do
  let out := Output.ofMethod p method
  return assemble attr out (← bodyOf p attr out)

end SuccessResponse

end ServiceContract
