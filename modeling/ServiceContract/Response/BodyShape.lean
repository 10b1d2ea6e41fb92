import ServiceContract.Source.TypeExpr

/-! # Bodies by type

What a declared return type says about the body of a response: none for the unit type, else a
type and the media type that its values are sent as.
-/

namespace ServiceContract

/-- The media types that bodies are sent as. -/
def MediaType.json : String := "application/json"

def MediaType.text : String := "text/plain"

def MediaType.octets : String := "application/octet-stream"

/-- The body of a response. -/
inductive BodyShape
  | empty
  | body (type : TypeExpr) (media : String)
  deriving DecidableEq, Repr

namespace BodyShape

/-- Types whose first argument is what is sent. -/
def envelopes : List String := ["Result", "Json", "Response", "Box"]

/-- The type inside all envelopes. -/
def content : TypeExpr → TypeExpr
  | .path segments (a :: as) =>
    if envelopes.contains (segments.getLast?.getD "") then content a else .path segments (a :: as)
  | t => t

def withoutRef : TypeExpr → TypeExpr
  | .ref t => t
  | t => t

/-- The media type of types that are not sent as JSON. -/
def plainMedia? : TypeExpr → Option String
  | .path segments args =>
    match segments.getLast?.getD "" with
    | "String" | "str" => some MediaType.text
    | "Bytes" | "BytesMut" => some MediaType.octets
    | "Vec" =>
      if (args.head?.bind TypeExpr.name?) == some "u8" then some MediaType.octets else none
    | _ => none
  | _ => none

/-- The body that a return type describes. -/
def ofReturnType (t : TypeExpr) : BodyShape :=
  let inner := content t
  if inner.isUnit then .empty
  else
    match plainMedia? (withoutRef inner) with
    | some media => .body (withoutRef inner) media
    | none => .body inner MediaType.json

end BodyShape

end ServiceContract
