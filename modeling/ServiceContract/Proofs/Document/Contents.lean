import ServiceContract.Document.Endpoint

/-! # The schemas in a document

Schemas stand in parameters, in bodies and in the headers and the content of responses. Operators,
endpoints and operations all hold these, and a document holds them and its components.
-/

namespace ServiceContract

def RequestBody.schemas (b : RequestBody) : List Schema := b.content.map Prod.snd

/-- The schemas of the headers and of the content of a response. -/
def Response.schemas (r : Response) : List Schema :=
  (r.headers.getD []).map (fun h => h.2.schema) ++ (r.content.getD []).map Prod.snd

/-- The schemas of parameters, a body and responses. -/
def contentsOf (parameters : List Parameter) (body : Option RequestBody)
    (responses : List Response) : List Schema :=
  parameters.map (·.schema) ++ body.toList.flatMap RequestBody.schemas ++
    responses.flatMap Response.schemas

/-- The schemas of everything that an operator takes and gives. -/
def Operator.schemas (op : Operator) : List Schema :=
  contentsOf op.parameters op.requestBody [op.response.response]

def Endpoint.schemas (e : Endpoint) : List Schema :=
  contentsOf e.parameters e.requestBody [e.leaf.response.response]

def Operation.schemas (op : Operation) : List Schema :=
  contentsOf op.parameters op.requestBody (op.responses.map Prod.snd)

/-- The schemas of the components and of all operations. -/
def Document.schemas (d : Document) : List Schema :=
  d.components.schemas.map Prod.snd ++ d.operations.flatMap fun o => o.2.2.schemas

variable {P : Schema → Prop} {parameters : List Parameter} {body : Option RequestBody}
  {responses : List Response}

theorem forall_mem_contentsOf : (∀ s ∈ contentsOf parameters body responses, P s) ↔
    (∀ x ∈ parameters, P x.schema) ∧ (∀ b ∈ body, ∀ s ∈ b.schemas, P s) ∧
      ∀ r ∈ responses, ∀ s ∈ r.schemas, P s := by
  simp only [contentsOf, List.forall_mem_append, List.forall_mem_map, List.forall_mem_flatMap,
    Option.mem_toList, Option.mem_def, and_assoc]

theorem Operator.schemas_group (path : String) : (Operator.group path).schemas = [] := rfl

end ServiceContract
