import ServiceContract.Json.Parser
import ServiceContract.Json.Printer
import ServiceContract.Schema.Basic

/-! # Schemas as JSON

The keys of a schema are written in a fixed order, absent ones not at all, and the extensions
after them. When a schema is read, a known key that is null counts as absent, and every unknown
key is an extension.
-/

namespace ServiceContract.Schema

open Json (fieldOf)

mutual

def toJson : Schema → Json
  | ⟨reference, type, format, description, properties, required, items, additional, values,
      allOf, oneOf, minItems, maxItems, uniqueItems, nullable, default, extensions⟩ =>
    .obj (fieldOf "$ref" .str reference ++ fieldOf "type" .str type ++
      fieldOf "format" .str format ++ fieldOf "description" .str description ++
      namedField "properties" properties ++
      fieldOf "required" (fun names => .arr (names.map .str)) required ++
      oneField "items" items ++ oneField "additionalProperties" additional ++
      fieldOf "enum" .arr values ++ manyField "allOf" allOf ++ manyField "oneOf" oneOf ++
      fieldOf "minItems" .ofNat minItems ++ fieldOf "maxItems" .ofNat maxItems ++
      fieldOf "uniqueItems" .bool uniqueItems ++ fieldOf "nullable" .bool nullable ++
      fieldOf "default" id default ++ extensions)

def oneField (key : String) : Option Schema → List (String × Json)
  | none => []
  | some s => [(key, toJson s)]

def namedField (key : String) : Option (List (String × Schema)) → List (String × Json)
  | none => []
  | some ps => [(key, .obj (toFields ps))]

def manyField (key : String) : Option (List Schema) → List (String × Json)
  | none => []
  | some ss => [(key, .arr (toItems ss))]

def toFields : List (String × Schema) → List (String × Json)
  | [] => []
  | (k, s) :: rest => (k, toJson s) :: toFields rest

def toItems : List Schema → List Json
  | [] => []
  | s :: rest => toJson s :: toItems rest

end

mutual

def ofJson? : Json → Option Schema
  | .obj fields => ofFields {} fields
  | _ => none

/-- A schema that may be null. -/
def one? : Json → Option (Option Schema)
  | .null => some none
  | .obj fields => (ofFields {} fields).map some
  | _ => none

/-- Schemas by name that may be null. -/
def named? : Json → Option (Option (List (String × Schema)))
  | .null => some none
  | .obj fields => (ofProperties fields).map some
  | _ => none

/-- A list of schemas that may be null. -/
def many? : Json → Option (Option (List Schema))
  | .null => some none
  | .arr items => (ofItems items).map some
  | _ => none

/-- Reads the fields of a schema one after the other. -/
def ofFields (s : Schema) : List (String × Json) → Option Schema
  | [] => some s
  | (key, v) :: rest =>
    let next := match key with
      | "$ref" => (Json.nullable Json.string? v).map fun x => { s with reference := x }
      | "type" => (Json.nullable Json.string? v).map fun x => { s with type := x }
      | "format" => (Json.nullable Json.string? v).map fun x => { s with format := x }
      | "description" =>
        (Json.nullable Json.string? v).map fun x => { s with description := x }
      | "properties" => (named? v).map fun x => { s with properties := x }
      | "required" =>
        (Json.nullable (Json.list? Json.string?) v).map fun x => { s with required := x }
      | "items" => (one? v).map fun x => { s with items := x }
      | "additionalProperties" => (one? v).map fun x => { s with additionalProperties := x }
      | "enum" => (Json.nullable (Json.list? some) v).map fun x => { s with values := x }
      | "allOf" => (many? v).map fun x => { s with allOf := x }
      | "oneOf" => (many? v).map fun x => { s with oneOf := x }
      | "minItems" => (Json.nullable Json.nat? v).map fun x => { s with minItems := x }
      | "maxItems" => (Json.nullable Json.nat? v).map fun x => { s with maxItems := x }
      | "uniqueItems" => (Json.nullable Json.bool? v).map fun x => { s with uniqueItems := x }
      | "nullable" => (Json.nullable Json.bool? v).map fun x => { s with nullable := x }
      | "default" => (Json.nullable some v).map fun x => { s with default := x }
      | _ => some (s.withExtension key v)
    next.bind fun s => ofFields s rest

def ofProperties : List (String × Json) → Option (List (String × Schema))
  | [] => some []
  | (k, v) :: rest => do
    let s ← ofJson? v
    let ss ← ofProperties rest
    return (k, s) :: ss

def ofItems : List Json → Option (List Schema)
  | [] => some []
  | v :: rest => do
    let s ← ofJson? v
    let ss ← ofItems rest
    return s :: ss

end

/-- The compact text of a schema's JSON. -/
def text (s : Schema) : String := s.toJson.compact

/-- Reads a schema from its text. -/
def read? (text : String) : Option Schema := (Json.parse? text).bind ofJson?

end ServiceContract.Schema
