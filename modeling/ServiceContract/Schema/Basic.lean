import ServiceContract.Json.Reader
import ServiceContract.Text.Basic

/-! # Schemas

The description of the values of a type. A reference to a component stands alone: what is said
about it besides stands around it, in an `allOf` of the reference.
-/

namespace ServiceContract

/-- A schema; `extensions` are sorted by key. -/
structure Schema where
  reference : Option String := none
  type : Option String := none
  format : Option String := none
  description : Option String := none
  /-- The properties in declaration order. -/
  properties : Option (List (String × Schema)) := none
  required : Option (List String) := none
  items : Option Schema := none
  additionalProperties : Option Schema := none
  values : Option (List Json) := none
  allOf : Option (List Schema) := none
  oneOf : Option (List Schema) := none
  minItems : Option Nat := none
  maxItems : Option Nat := none
  uniqueItems : Option Bool := none
  nullable : Option Bool := none
  default : Option Json := none
  extensions : List (String × Json) := []

namespace Schema

instance : Inhabited Schema := ⟨{}⟩

mutual

def beq (a b : Schema) : Bool :=
  match a with
  | ⟨r, t, f, d, ps, rq, i, ap, vs, al, on, mi, ma, u, n, df, ex⟩ =>
    r == b.reference && t == b.type && f == b.format && d == b.description &&
      beqProperties ps b.properties && rq == b.required && beqOption i b.items &&
      beqOption ap b.additionalProperties && vs == b.values && beqLists al b.allOf &&
      beqLists on b.oneOf && mi == b.minItems && ma == b.maxItems && u == b.uniqueItems &&
      n == b.nullable && df == b.default && ex == b.extensions
termination_by structural a

def beqOption (a b : Option Schema) : Bool :=
  match a, b with
  | none, none => true
  | some a, some b => beq a b
  | _, _ => false
termination_by structural a

def beqProperties (a b : Option (List (String × Schema))) : Bool :=
  match a, b with
  | none, none => true
  | some a, some b => beqFields a b
  | _, _ => false
termination_by structural a

def beqLists (a b : Option (List Schema)) : Bool :=
  match a, b with
  | none, none => true
  | some a, some b => beqList a b
  | _, _ => false
termination_by structural a

def beqFields (a b : List (String × Schema)) : Bool :=
  match a, b with
  | [], [] => true
  | (k, a) :: as, (l, b) :: bs => k == l && beq a b && beqFields as bs
  | _, _ => false
termination_by structural a

def beqList (a b : List Schema) : Bool :=
  match a, b with
  | [], [] => true
  | a :: as, b :: bs => beq a b && beqList as bs
  | _, _ => false
termination_by structural a

end

instance : BEq Schema := ⟨beq⟩

/-- What stands before the name in a reference to a component. -/
def componentRoot : String := "#/components/schemas/"

/-- The declared name of the type of a component. -/
def typeKey : String := "x-rust-type"

/-- The name of a field where its serialized name is another. -/
def fieldKey : String := "x-rust-field-name"

/-- The number of pointers around the type of a field. -/
def pointerKey : String := "x-pointer-depth"

/-- The validation rules of a field. -/
def validateKey : String := "x-tag-validate"

/-- The name that a parameter attribute gives. -/
def nameKey : String := "x-tag-name"

/-- The location of a field of a form. -/
def locationKey : String := "x-tag-in"

/-- Labels of the values of an enumeration, in the order of the values. -/
def labelsKey : String := "x-enum-labels"

/-- The summaries of the errors of a response. -/
def errorsKey : String := "x-status-errors"

/-- The schema of one JSON type. -/
def typed (type : String) : Schema := { type := some type }

def withFormat (format : String) (s : Schema) : Schema := { s with format := some format }

/-- The schema with a description, if one is given. -/
def withDescription (description : Option String) (s : Schema) : Schema :=
  match description with
  | some text => { s with description := some text }
  | none => s

def withExtension (key : String) (value : Json) (s : Schema) : Schema :=
  { s with extensions := insertSorted key value s.extensions }

/-- The reference to a component. -/
def ref (name : String) : Schema := { reference := some (componentRoot ++ name) }

def array (items : Schema) : Schema := { type := some "array", items := some items }

/-- The schema of an object; an empty list of required properties is left out. -/
def object (properties : List (String × Schema)) (required : List String) : Schema :=
  { type := some "object"
    properties := some properties
    required := if required.isEmpty then none else some required }

def binary : Schema := (typed "string").withFormat "binary"

/-- A text that is one of the given values. -/
def oneText (value : String) : Schema := { typed "string" with values := some [.str value] }

/-- The name of the component that a reference points to. -/
def refName? (s : Schema) : Option String := s.reference.bind (Text.stripPrefix? componentRoot)

/-- Whether something is said about the schema that may not stand beside a reference. -/
def decorated (s : Schema) : Bool :=
  s.description.isSome || !s.extensions.isEmpty || s.default.isSome

/-- A reference with what is said about it around it; any other schema as it is. -/
def settle (s : Schema) : Schema :=
  if s.reference.isSome && s.decorated then
    { allOf := some [{ reference := s.reference }]
      description := s.description
      default := s.default
      extensions := s.extensions }
  else s

end Schema

end ServiceContract
