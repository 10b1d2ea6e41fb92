import ServiceContract.StatusError.Catalog

/-! # Errors along calls

A function raises the errors that its body mentions or wraps, and those of the functions that it
calls. The answers are remembered by function; while a function is being looked at, a call that
leads back to it adds nothing.
-/

namespace ServiceContract

open Source

/-- What the search for errors works on. -/
structure ErrorSearch where
  program : Program
  catalog : ErrorCatalog

namespace ErrorSearch

def ofProgram (p : Program) : ErrorSearch := ⟨p, .ofProgram p⟩

variable (s : ErrorSearch)

/-- The qualified name of the enum that a path means in a function. -/
def enumName? (f : FnDecl) (path : List String) : Option String :=
  if path.isEmpty then none
  else if path == ["Self"] then f.owner
  else
    match s.program.findType ⟨path, []⟩ f.module with
    | some (.enum d) => some (qualify d.module d.item.name)
    | _ => none

/-- The error that a path means in a function. -/
def mentioned? (f : FnDecl) (segments : List String) : Option StatusError :=
  segments.getLast?.bind fun variant =>
    (s.enumName? f segments.dropLast).bind fun enum => s.catalog.error? enum variant

/-- Whether a called path wraps another error in a status error. -/
def isWrap (segments : List String) : Bool :=
  match segments.reverse with
  | "wrap" :: owner :: _ => owner == "StatusError" || owner == "status_error"
  | name :: _ => name == "wrap_status"
  | [] => false

/-- The error that a wrapping call makes, if its code and key are constant. -/
def wrapped? (scope : Scope) (args : List Expr) : Option StatusError := do
  let code ← args[1]?.bind scope.evalInt
  let key ← args[2]?.bind scope.evalStr
  let message := (args[3]?.bind scope.evalStr).getD key
  return { key
           code
           messages := [(StatusError.defaultLocale, message)]
           description := args[4]?.bind scope.evalStr }

/-- The error that an expression of a function raises by itself. -/
def errorOf? (f : FnDecl) : Expr → Option StatusError
  | .path p _ => s.mentioned? f p.segments
  | .call g args =>
    match calleePath? g with
    | some segments => if isWrap segments then wrapped? (f.scope s.program) args else none
    | none => none
  | _ => none

/-- The function that an expression of a function calls. -/
def calleeOf? (f : FnDecl) : Expr → Option FnDecl
  | .call g _ =>
    match calleePath? g with
    | some segments =>
      if isWrap segments then none else s.program.resolveCall segments f.module f.owner
    | none => none
  | .methodCall e name _ _ _ =>
    if isSelf e then f.owner.bind fun owner => s.program.ownedMethod owner name
    else s.program.uniqueMethod name
  | _ => none

/-- The expressions of a function's body, also those in closures and in arguments of macros. -/
def expressions (f : FnDecl) : List Expr := (Walk.mk true true).stmts f.body

/-- The errors that a function raises by itself. -/
def direct (f : FnDecl) : List StatusError := (expressions f).filterMap (s.errorOf? f)

/-- Each function once, at its first place. -/
def firstByKey (fs : List FnDecl) : List FnDecl :=
  fs.foldl (fun seen f => if seen.any fun g => g.key == f.key then seen else seen ++ [f]) []

/-- The functions that a function calls. -/
def callees (f : FnDecl) : List FnDecl := firstByKey ((expressions f).filterMap (s.calleeOf? f))

/-- The errors of the functions that have been looked at, by key. -/
abbrev Memo := List (String × List StatusError)

/-- The errors that a function can raise. Each function on a chain of calls is new to the memo,
so a chain is no longer than there are functions. -/
def search : Nat → FnDecl → StateM Memo (List StatusError)
  | 0, _ => return []
  | n + 1, f => do
    match (← get).lookup f.key with
    | some known => return known
    | none =>
      modify (setKey f.key [])
      let found ← (s.callees f).foldlM (fun found g => do
        return StatusError.merge found (← search n g))
        (StatusError.merge [] (s.direct f))
      modify (setKey f.key found)
      return found

/-- The errors that a function can raise, with the memo after the search. -/
def reachable (f : FnDecl) : StateM Memo (List StatusError) :=
  s.search (s.program.fns.length + 1) f

end ErrorSearch

end ServiceContract
