import ServiceContract.Document.Model
import ServiceContract.StatusError.Basic

/-! # Compiled operators

What an operator contributes to the operations of the routes that it stands on.
-/

namespace ServiceContract

/-- The response of an operator that succeeds. -/
structure SuccessResponse where
  status : Nat
  response : Response

/-- A compiled operator. -/
structure Operator where
  /-- The qualified name of its struct, or the path of a group. -/
  name : String
  id : String := ""
  /-- The request method, if one is declared. -/
  method : Option String := none
  path : String
  /-- It contributes also where it is not the end of a route. -/
  middleware : Bool := false
  tag : Option String := none
  summary : Option String := none
  description : Option String := none
  deprecated : Bool := false
  parameters : List Parameter := []
  requestBody : Option RequestBody := none
  response : SuccessResponse
  statusErrors : List StatusError := []
  /-- The schemes of its security fields by name. -/
  security : List (String × SecurityScheme) := []

/-- A group, which has a path and nothing else. -/
def Operator.group (path : String) : Operator :=
  { name := "Group(" ++ path ++ ")"
    path
    response := ⟨204, { description := "No Content" }⟩ }

end ServiceContract
