import ServiceContract.Operator.Request
import ServiceContract.Operator.Success
import ServiceContract.Route.OperatorRef
import ServiceContract.StatusError.CallGraph

/-! # Compiling operators

Each operator is compiled once. An operator with a public field that has no location stays
failed; after any other failure it may be tried again.
-/

namespace ServiceContract

open Source

/-- What is known of an operator. -/
inductive OperatorEntry
  | inProgress
  | ready (operator : Operator)
  /-- The field without a location. -/
  | failed (field : String)

/-- The components, the errors of functions and the operators so far. -/
structure CompilerState where
  table : SchemaTable := {}
  memo : ErrorSearch.Memo := []
  operators : List (String × OperatorEntry) := []

/-- Work on operators. -/
abbrev OperatorCompile := Work CompilerState

namespace OperatorCompile

/-- Work on the components. -/
def onTable {α : Type} (work : Compile α) : OperatorCompile α := fun s =>
  let (r, table) := work.runOn s.table
  (r, { s with table })

/-- Work on the errors of functions. -/
def onMemo {α : Type} (work : StateM ErrorSearch.Memo α) : OperatorCompile α := fun s =>
  let (a, memo) := work.run s.memo
  (.ok a, { s with memo })

def setEntry (key : String) (entry : OperatorEntry) (s : CompilerState) : CompilerState :=
  { s with operators := setKey key entry s.operators }

def dropEntry (key : String) (s : CompilerState) : CompilerState :=
  { s with operators := s.operators.filter fun e => e.1 != key }

end OperatorCompile

namespace Operator

open OperatorCompile

/-- The name of the method whose body makes the response. -/
def outputMethod : String := "output"

/-- The name of the method that middleware has. -/
def middlewareMethod : String := "context_key"

/-- The constant text that a method without parameters returns. -/
def textOf (p : Program) (owner method : String) : Option String :=
  (p.zeroArgMethod owner method).bind fun f => (returned f.body).findSome? (f.scope p).evalStr

/-- The request method: of the attribute, or what the method says if it is one. -/
def methodOf (p : Program) (attr : OperatorAttr) (owner : String) : Option String :=
  match attr.method with
  | some m => some m
  | none => ((textOf p owner "method").map Unicode.toUpper).filter Method.isName

def pathOf (p : Program) (attr : OperatorAttr) (owner : String) : String :=
  (attr.path.or (textOf p owner "path")).getD ""

/-- The errors that the output method leads to. -/
def errorsOf (search : ErrorSearch) : Option FnDecl → OperatorCompile (List StatusError)
  | some f => onMemo (search.reachable f)
  | none => return []

/-- Compiles a struct under its qualified name. -/
def ofStruct (search : ErrorSearch) (d : Declared StructItem) (key : String) :
    OperatorCompile Operator := do
  let p := search.program
  let attr := OperatorAttr.ofAttrs d.item.attrs
  let docs := Docs.ofAttrs d.item.attrs
  let sites ← ExceptT.mk (pure (LocatedField.all p key d))
  let request ← onTable (RequestParts.ofFields p {} sites)
  let output := p.ownedMethod key outputMethod
  let response ← onTable (SuccessResponse.compile p attr output)
  let statusErrors ← errorsOf search output
  return { name := key
           id := attr.id.getD d.item.name
           method := methodOf p attr key
           path := pathOf p attr key
           middleware := (p.zeroArgMethod key middlewareMethod).isSome
           tag := attr.tag.or d.module.getLast?
           summary := attr.summary.or docs.summary
           description := docs.description
           deprecated := hasAttr d.item.attrs "deprecated"
           parameters := request.parameters
           requestBody := request.requestBody
           response
           statusErrors
           security := request.security }

/-- Compiles a declared struct, unless it is known. -/
def ofDeclared (search : ErrorSearch) (module : List String) (name : String) :
    OperatorCompile Operator := fun s =>
  let key := qualify module name
  match s.operators.lookup key with
  | some (.ready op) => (.ok op, s)
  | some (.failed field) => (.error (.missingLocation key field), s)
  | some .inProgress =>
    (.error (.invalidArgument
      ("operator `" ++ key ++ "` is compiled while already being compiled")), s)
  | none =>
    match search.program.findStruct module name with
    | none =>
      (.error (.invalidArgument ("operator `" ++ key ++ "` is not a declared struct")), s)
    | some d =>
      match (ofStruct search d key).runOn (setEntry key .inProgress s) with
      | (.ok op, s) => (.ok op, setEntry key (.ready op) s)
      | (.error (.missingLocation operator field), s) =>
        (.error (.missingLocation operator field), setEntry key (.failed field) s)
      | (.error e, s) => (.error e, dropEntry key s)

/-- Compiles an operator as it is registered. -/
def compile (search : ErrorSearch) : OperatorRef → OperatorCompile Operator
  | .group path => return .group path
  | .type module name => ofDeclared search module name

end Operator

end ServiceContract
