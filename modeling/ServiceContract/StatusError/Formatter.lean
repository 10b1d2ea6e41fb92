import ServiceContract.StatusError.Basic
import ServiceContract.Constant.Scope

/-! # Error formatters

A service may register a type of its own that errors are sent as. A method of that type without
parameters may give the statuses of some codes.
-/

namespace ServiceContract

open Source

/-- A registered formatter. -/
structure ErrorFormatter where
  /-- The type as written where it is registered. -/
  type : TypePath
  module : List String
  /-- The statuses of some codes, sorted by code. -/
  overrides : List (Int × Nat)

namespace ErrorFormatter

/-- The status of an error, overridden or its own. -/
def statusOf (f : ErrorFormatter) (e : StatusError) : Nat :=
  (f.overrides.lookup e.code).getD e.status

/-- The calls that register a formatter. -/
def registrations : List String := ["set_error_formatter", "with_error_formatter"]

/-- The formatter that an expression registers. -/
def registered? : Expr → Option Expr
  | .call f args =>
    match calleeName? f with
    | some name => if registrations.contains name then args.head? else none
    | none => none
  | .methodCall _ name _ _ args => if registrations.contains name then args.head? else none
  | _ => none

/-- The value that a statement binds. -/
def boundValue? : Stmt → Option Expr
  | .binding _ _ value _ => value
  | _ => none

/-- The expressions of a method that may be its map of statuses. -/
def mapCandidates (body : Block) : List Expr := returned body ++ body.filterMap boundValue?

/-- A table of statuses by code from its entries; of two entries of one code the later counts. -/
def tableOf (entries : List (Int × Nat)) : List (Int × Nat) :=
  entries.foldl (fun table (code, status) => insertSorted code status table) []

/-- The statuses of codes that the first map among the methods of a type gives. -/
def overridesOf (p : Program) (owner : String) : List (Int × Nat) :=
  let maps := ((p.methodsOf owner).filter fun f => f.arity == 0).flatMap fun f =>
    (mapCandidates f.body).filterMap (f.scope p).literalMap
  tableOf ((maps.head?.getD []).filterMap fun (code, status) =>
    (StatusError.validStatus? status).map fun n => (code, n))

/-- The formatter that the first registration of a declared type in a function registers. -/
def ofFunction? (p : Program) (f : FnDecl) : Option ErrorFormatter :=
  (((Walk.mk true false).stmts f.body).filterMap registered?).findSome? fun e =>
    (constructedType? e).bind fun type =>
      (p.findType type f.module).map fun d =>
        { type, module := f.module, overrides := overridesOf p d.qualifiedName }

/-- The formatter that a program registers. -/
def detect? (p : Program) : Option ErrorFormatter := p.fns.findSome? (ofFunction? p)

end ErrorFormatter

/-- Inserts a status into a table sorted by status, or changes its entry. -/
def updateStatus {α : Type} (status : Nat) (empty : α) (f : α → α) :
    List (Nat × α) → List (Nat × α)
  | [] => [(status, f empty)]
  | (n, a) :: rest =>
    if status < n then (status, f empty) :: (n, a) :: rest
    else if status = n then (n, f a) :: rest
    else (n, a) :: updateStatus status empty f rest

/-- Errors by status, sorted; the formatter may override statuses. -/
def bucketErrors (errors : List StatusError) (formatter : Option ErrorFormatter) :
    List (Nat × List StatusError) :=
  errors.foldl (fun buckets e =>
    let status := match formatter with
      | some f => f.statusOf e
      | none => e.status
    updateStatus status [] (fun es => StatusError.merge es [e]) buckets) []

end ServiceContract
