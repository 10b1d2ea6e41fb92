import ServiceContract.Schema.Basic

/-! # Status errors

A business error that a service declares, with a code whose leading digits are the status of the
response it is sent with. Two errors are the same if they have the same key and code.
-/

namespace ServiceContract

/-- A declared business error; `messages` are sorted by locale. -/
structure StatusError where
  key : String
  code : Int
  messages : List (String × String) := []
  description : Option String := none
  canBeTalk : Bool := false
  deriving DecidableEq, Repr

namespace StatusError

/-- The locale of a message without a tag. -/
def defaultLocale : String := "default"

/-- A number that is a status of a response. -/
def validStatus? (n : Int) : Option Nat := if 100 ≤ n && n ≤ 599 then some n.toNat else none

/-- The status of the response: the digits of a long code before the last six, or the code. -/
def status (e : StatusError) : Nat :=
  let n := if 1000000 ≤ e.code.natAbs then Int.tdiv e.code 1000000 else e.code
  (validStatus? n).getD 500

/-- The message of the default locale, or any other, or the key. -/
def message (e : StatusError) : String :=
  match e.messages.lookup defaultLocale with
  | some text => text
  | none =>
    match e.messages with
    | (_, text) :: _ => text
    | [] => e.key

/-- The error in one line. -/
def summary (e : StatusError) : String :=
  "@StatusErr[" ++ e.key ++ "][" ++ Text.integer e.code ++ "][" ++ e.message ++ "]" ++
    (if e.canBeTalk then "!" else "")

def identity (e : StatusError) : String × Int := (e.key, e.code)

/-- Appends an error unless it is there already. -/
def addNew (errors : List StatusError) (e : StatusError) : List StatusError :=
  if errors.any fun x => x.identity == e.identity then errors else errors ++ [e]

/-- Appends the errors that are not there yet. -/
def merge (errors found : List StatusError) : List StatusError := found.foldl addNew errors

def toJson (e : StatusError) : Json :=
  .obj
    [("key", .str e.key), ("code", .ofInt e.code),
     ("messages", .obj (e.messages.map fun (locale, text) => (locale, .str text))),
     ("description", .ofOption e.description), ("canBeTalk", .bool e.canBeTalk)]

/-- The record that errors are sent as when the service has none of its own. -/
def recordSchema : Schema :=
  let text := Schema.typed "string"
  Schema.object
    [("key", text), ("code", (Schema.typed "integer").withFormat "int64"), ("msg", text),
     ("desc", text), ("canBeTalkError", Schema.typed "boolean"), ("id", text),
     ("sources", Schema.array text),
     ("errorFields", Schema.array
       (Schema.object [("field", text), ("in", text), ("msg", text)] ["field", "in", "msg"]))]
    ["key", "code", "msg"]

end StatusError

end ServiceContract
