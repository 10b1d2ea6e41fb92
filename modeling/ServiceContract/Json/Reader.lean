import ServiceContract.Json.Value

/-! # Reading values of JSON

Readers for the parts of a record. A reader has no answer where the value is not of its kind. A
record may be written as an object, whose unknown keys are passed over, or as the list of its
values in order, of which only those with a default may be left out at the end.
-/

namespace ServiceContract.Json

def string? : Json → Option String
  | .str s => some s
  | _ => none

def bool? : Json → Option Bool
  | .bool b => some b
  | _ => none

/-- A whole number that is not negative. -/
def nat? : Json → Option Nat
  | .num (.int n) => if 0 ≤ n then some n.toNat else none
  | _ => none

/-- A value that may be null. -/
def nullable {α : Type} (read : Json → Option α) : Json → Option (Option α)
  | .null => some none
  | v => (read v).map some

def list? {α : Type} (read : Json → Option α) : Json → Option (List α)
  | .arr items => items.mapM read
  | _ => none

/-- An object of values of one kind, in the order of its keys as written. -/
def entries? {α : Type} (read : Json → Option α) : Json → Option (List (String × α))
  | .obj fields => fields.mapM fun (k, v) => (read v).map (k, ·)
  | _ => none

/-- An object of values of one kind, sorted by key. -/
def sortedEntries? {α : Type} (read : Json → Option α) (v : Json) :
    Option (List (String × α)) :=
  (entries? read v).map fun es => es.foldl (fun acc (k, a) => insertSorted k a acc) []

/-- The fields of a record with these keys, of which the last `defaults` have a default. -/
def record? (keys : List String) (defaults : Nat) : Json → Option (List (String × Json))
  | .obj fields => some fields
  | .arr items =>
    if items.length ≤ keys.length && keys.length ≤ items.length + defaults then
      some (keys.zip items)
    else none
  | _ => none

/-- A field that has to be there. -/
def needed {α : Type} (key : String) (read : Json → Option α)
    (fields : List (String × Json)) : Option α :=
  (fields.lookup key).bind read

/-- A field that may be missing or null. -/
def optional {α : Type} (key : String) (read : Json → Option α)
    (fields : List (String × Json)) : Option (Option α) :=
  match fields.lookup key with
  | none => some none
  | some v => nullable read v

/-- A field that has a value of its own where it is missing. -/
def defaulted {α : Type} (key : String) (value : α) (read : Json → Option α)
    (fields : List (String × Json)) : Option α :=
  match fields.lookup key with
  | none => some value
  | some v => read v

/-- The fields whose keys are not known, sorted by key. -/
def extensions (known : List String) (fields : List (String × Json)) : List (String × Json) :=
  (fields.filter fun f => !known.contains f.1).foldl (fun acc (k, v) => insertSorted k v acc) []

/-- The field of an optional value: none where there is no value. -/
def fieldOf {α : Type} (key : String) (write : α → Json) : Option α → List (String × Json)
  | none => []
  | some a => [(key, write a)]

end ServiceContract.Json
