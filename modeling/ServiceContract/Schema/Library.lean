import ServiceContract.Schema.Basic

/-! # Schemas of types that need no declaration

Primitive types, and types of well-known libraries that are sent as texts.
-/

namespace ServiceContract.Schema

def integer (format : String) : Schema := (typed "integer").withFormat format

/-- The schema of a primitive type. -/
def ofPrimitive? (name : String) : Option Schema :=
  if name == "bool" then some (typed "boolean")
  else if ["i8", "i16", "i32", "u8", "u16"].contains name then some (integer "int32")
  else if ["u32", "i64", "u64", "i128", "u128", "isize", "usize"].contains name then
    some (integer "int64")
  else if name == "f32" then some ((typed "number").withFormat "float")
  else if name == "f64" then some ((typed "number").withFormat "double")
  else if ["String", "str", "char"].contains name then some (typed "string")
  else none

/-- The formats of library types that are sent as texts. -/
def textFormats : List (String × String) :=
  [("DateTime", "date-time"), ("NaiveDateTime", "date-time"), ("SystemTime", "date-time"),
   ("OffsetDateTime", "date-time"), ("PrimitiveDateTime", "date-time"), ("NaiveDate", "date"),
   ("NaiveTime", "time"), ("Uuid", "uuid"), ("Url", "uri"), ("Decimal", "decimal"),
   ("BigDecimal", "decimal"), ("Bytes", "binary"), ("BytesMut", "binary")]

/-- The schema of a library type. -/
def ofLibrary? (name : String) : Option Schema :=
  match textFormats.lookup name with
  | some format => some ((typed "string").withFormat format)
  | none => if name == "Value" || name == "RawValue" then some {} else none

/-- Whether a name has the form of a numeric primitive. -/
def looksNumeric (name : String) : Bool :=
  match name.toList with
  | c :: d :: rest => (c == 'i' || c == 'u' || c == 'f') && (d :: rest).all Char.isDigit
  | _ => false

end ServiceContract.Schema
