/-! # Request methods

The methods that an operation can answer to, in the order in which a document lists them.
-/

namespace ServiceContract

/-- A request method. -/
inductive Method
  | get
  | put
  | post
  | delete
  | options
  | head
  | patch
  | trace
  deriving DecidableEq, Repr

namespace Method

def all : List Method := [get, put, post, delete, options, head, patch, trace]

theorem mem_all (m : Method) : m ∈ all := by cases m <;> decide

theorem nodup_all : all.Nodup := by decide

def name : Method → String
  | get => "GET"
  | put => "PUT"
  | post => "POST"
  | delete => "DELETE"
  | options => "OPTIONS"
  | head => "HEAD"
  | patch => "PATCH"
  | trace => "TRACE"

/-- The key of the method in a document. -/
def key : Method → String
  | get => "get"
  | put => "put"
  | post => "post"
  | delete => "delete"
  | options => "options"
  | head => "head"
  | patch => "patch"
  | trace => "trace"

theorem nodup_map_key_all : (all.map key).Nodup := by decide

def ofName? (name : String) : Option Method := all.find? fun m => m.name == name

def isName (name : String) : Bool := (ofName? name).isSome

end Method

end ServiceContract
