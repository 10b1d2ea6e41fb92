import ServiceContract.Error
import ServiceContract.Program.Lookup

/-! # The located fields of an operator

The fields of an operator that have a location are what it reads from a request. A flattened
field stands for the fields of its struct. A public field without a location is an error, which
is found before anything is compiled.
-/

namespace ServiceContract

open Source

/-- A field with its location, and the struct that it stands in. -/
structure LocatedField where
  field : Field
  module : List String
  container : SerialAttrs
  param : ParamAttr
  location : ParamLocation

namespace LocatedField

/-- A search that visits each struct once; it stops at a field without a location. -/
abbrev Search := StateT (List String) (Except Error)

/-- The struct whose fields a flattened field stands for. -/
def flattened? (p : Program) (module : List String) (t : TypeExpr) :
    Option (Declared StructItem) :=
  t.peel.asPath?.bind fun path =>
    match p.findType path module with
    | some (.struct d) => some d
    | _ => none

/-- Whether a field is flattened into the operator. -/
def isFlattened (field : Field) : Bool :=
  (SerialAttrs.ofAttrs field.attrs).flatten || (ParamAttr.ofAttrs field.attrs).any (·.flatten)

/-- The located fields that one field stands for. `inner` searches another struct. -/
def ofField (p : Program) (operator : String)
    (inner : Declared StructItem → Search (List LocatedField)) (d : Declared StructItem)
    (field : Field) : Search (List LocatedField) :=
  if (SerialAttrs.ofAttrs field.attrs).skip then return []
  else if isFlattened field then
    match flattened? p d.module field.type with
    | some struct => inner struct
    | none => return []
  else
    match (ParamAttr.ofAttrs field.attrs).bind fun param => param.location.map (param, ·) with
    | some (param, location) =>
      return [{ field, module := d.module, container := .ofAttrs d.item.attrs, param, location }]
    | none =>
      if field.exported then throw (.missingLocation operator (field.name.getD "")) else return []

/-- The located fields of a struct that has not been visited. -/
def ofStruct (p : Program) (operator : String) :
    Nat → Declared StructItem → Search (List LocatedField)
  | 0, _ => return []
  | n + 1, d => do
    let name := qualify d.module d.item.name
    if (← get).contains name then return []
    else
      modify (name :: ·)
      match d.item.fields with
      | .named fields =>
        return (← fields.mapM (ofField p operator (ofStruct p operator n) d)).flatten
      | _ => return []

/-- The located fields of an operator. Each struct on the way down is a new one. -/
def all (p : Program) (operator : String) (d : Declared StructItem) :
    Except Error (List LocatedField) :=
  ((ofStruct p operator (p.structs.length + 1) d).run []).map (·.1)

end LocatedField

end ServiceContract
