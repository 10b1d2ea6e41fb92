import ServiceContract.Association
import ServiceContract.Route.Forest

/-! # What bodies do

A body is read as a script. A constructor makes a scope, bindings name scopes, and calls of methods
register, attach and serve them; calls of functions and names of statics ask for the scopes that
other bodies give. Which scopes these are is left to whoever carries the script out.
-/

namespace ServiceContract

open Source

/-- The scopes that names stand for in a body. -/
abbrev Locals := List (String × ScopeId)

/-- What is to be done, step after step, until there is a result. -/
inductive Script (α : Type)
  | done (result : α)
  /-- Makes a scope. -/
  | make (operators : List OperatorRef) (next : ScopeId → Script α)
  /-- Registers a scope under another one. -/
  | link (parent child : ScopeId) (next : Script α)
  /-- Adds operators to a scope. -/
  | attach (id : ScopeId) (operators : List OperatorRef) (next : Script α)
  /-- Serves a scope. -/
  | serve (id : ScopeId) (next : Script α)
  /-- Asks for the scope of a static. -/
  | static (name : String) (next : Option ScopeId → Script α)
  /-- Calls a function with arguments, of which some are scopes. -/
  | call (f : FnDecl) (args : List (Option ScopeId)) (next : Option ScopeId → Script α)

namespace Script

/-- Goes on with another script where one ends. -/
def bind {α β : Type} : Script α → (α → Script β) → Script β
  | done a, f => f a
  | make operators next, f => make operators fun id => (next id).bind f
  | link parent child next, f => link parent child (next.bind f)
  | attach id operators next, f => attach id operators (next.bind f)
  | serve id next, f => serve id (next.bind f)
  | static name next, f => static name fun scope => (next scope).bind f
  | call g args next, f => call g args fun scope => (next scope).bind f

instance : Monad Script where
  pure := done
  bind := bind

end Script

/-- What the names in a body mean. -/
structure Names where
  /-- The operators that expressions register. -/
  operators : List Expr → List OperatorRef
  /-- The function that a called path means. -/
  function? : List String → Option FnDecl
  /-- The function that a method called on `self` means. -/
  method? : String → Option FnDecl

/-- What names mean in a scope, inside an implementation block of the type named by `owner`. -/
def Names.within (s : Scope) (owner : Option String) : Names where
  operators := OperatorRef.ofExprs s
  function? segments := s.program.resolveCall segments s.module owner
  method? name := owner.bind fun o => s.program.ownedMethod o name

/-- A script that names scopes on its way. -/
abbrev BodyScript := StateT Locals Script

namespace Body

/-- Whether a called path makes a router. -/
def makesRouter (segments : List String) : Bool :=
  match segments.reverse with
  | name :: owner :: _ => owner == "Router" && (name == "new" || name == "default")
  | _ => false

/-- The names of serving calls. -/
def isServe (name : String) : Bool := name == "serve" || name == "run"

/-- Methods that give the scope they are called on. -/
def keepingMethods : List String :=
  ["clone", "into", "as_ref", "as_mut", "borrow", "borrow_mut", "lock", "read", "write", "unwrap"]

def newScope (operators : List OperatorRef) : BodyScript (Option ScopeId) :=
  fun locals => .make operators fun id => .done (some id, locals)

/-- Registers scopes one after the other; what is no scope is passed over. -/
def linkAll (parent : ScopeId) : List (Option ScopeId) → BodyScript Unit
  | [] => return
  | some child :: rest => fun locals => .link parent child (linkAll parent rest locals)
  | none :: rest => linkAll parent rest

def attach (id : ScopeId) (operators : List OperatorRef) : BodyScript Unit :=
  fun locals => .attach id operators (.done ((), locals))

/-- Serves a scope, if it is one. -/
def serve : Option ScopeId → BodyScript Unit
  | some id => fun locals => .serve id (.done ((), locals))
  | none => return

def static (name : String) : BodyScript (Option ScopeId) :=
  fun locals => .static name fun scope => .done (scope, locals)

def call (f : FnDecl) (args : List (Option ScopeId)) : BodyScript (Option ScopeId) :=
  fun locals => .call f args fun scope => .done (scope, locals)

/-- The scope that a path stands for: a local name, or else a static. -/
def ofPath (p : Path) : BodyScript (Option ScopeId) := fun locals =>
  match p.ident?.bind fun name => List.lookup name locals, p.last? with
  | some id, _ => .done (some id, locals)
  | none, some name => static name locals
  | none, none => .done (none, locals)

/-- The name that is assigned to. -/
def assignedName? : Expr → Option String
  | .path p _ => p.ident?
  | _ => none

/-- Gives a name a scope, if there is one. -/
def bindName (name : Option String) (scope : Option ScopeId) : BodyScript Unit :=
  match name, scope with
  | some n, some id => modify (setKey n id)
  | _, _ => return

variable (names : Names)

mutual

/-- What an expression does; the result is the scope that it stands for, if any. -/
def expr : Expr → BodyScript (Option ScopeId)
  | .ref e => expr e
  | .paren e => expr e
  | .unary _ e => expr e
  | .attempt e => expr e
  | .await e => expr e
  | .closure _ _ e => expr e
  | .block b => block none b
  | .uncheckedBlock b => block none b
  | .returns (some e) => expr e
  | .ifThen c b otherwise => do
    let _ ← expr c
    let _ ← block none b
    match otherwise with
    | some e =>
      let _ ← expr e
      return none
    | none => return none
  | .matchOn e as => do
    let _ ← expr e
    arms as
    return none
  | .forLoop _ _ _ b => do
    let _ ← block none b
    return none
  | .whileLoop _ b => do
    let _ ← block none b
    return none
  | .loop b => do
    let _ ← block none b
    return none
  | .assign left e => do
    let scope ← expr e
    bindName (assignedName? left) scope
    return none
  | .path p _ => ofPath p
  | .macroCall m => macroCall m
  | .call g args =>
    match calleePath? g with
    | none => do
      let _ ← exprs args
      return none
    | some segments =>
      if makesRouter segments then newScope (names.operators args)
      else if segments.getLast?.any isServe then do
        serveAll args
        return none
      else
        match names.function? segments with
        | some f => do
          let scopes ← exprs args
          call f scopes
        | none => do
          match ← exprs args with
          | [scope] => return scope
          | _ => return none
  | .methodCall e name _ _ args =>
    if name == "register" then do
      let parent ← expr e
      let children ← exprs args
      match parent with
      | some id =>
        linkAll id children
        return parent
      | none => return none
    else if name == "attach" then do
      let target ← expr e
      match target with
      | some id =>
        attach id (names.operators args)
        return target
      | none => return none
    else if keepingMethods.contains name then expr e
    else if isServe name then do
      let scope ← expr e
      serve scope
      serveAll args
      return none
    else do
      let _ ← expr e
      match if isSelf e then names.method? name else none with
      | some f =>
        let scopes ← exprs args
        call f scopes
      | none =>
        let _ ← exprs args
        return none
  | .tuple es => do
    let _ ← exprs es
    return none
  | _ => return none

def exprs : List Expr → BodyScript (List (Option ScopeId))
  | [] => return []
  | e :: es => do
    let scope ← expr e
    return scope :: (← exprs es)

/-- What expressions do that are handed to a serving call. -/
def serveAll : List Expr → BodyScript Unit
  | [] => return
  | e :: es => do
    let scope ← expr e
    serve scope
    serveAll es

/-- A router macro makes a scope; the arguments of other macros are carried out. -/
def macroCall : MacroCall → BodyScript (Option ScopeId)
  | .mk path _ (some args) _ =>
    if path.last? == some "router" then newScope (names.operators args)
    else do
      let _ ← exprs args
      return none
  | .mk _ _ none _ => return none

def arms : List Arm → BodyScript Unit
  | [] => return
  | .mk _ _ _ body :: rest => do
    let _ ← expr body
    arms rest

/-- What statements do; the result is the scope that the last one stands for. -/
def block (last : Option ScopeId) : List Stmt → BodyScript (Option ScopeId)
  | [] => return last
  | s :: rest => do
    let last ← stmt s
    block last rest

def stmt : Stmt → BodyScript (Option ScopeId)
  | .binding pattern _ (some e) _ => do
    let scope ← expr e
    bindName pattern.whole? scope
    return none
  | .binding _ _ none _ => return none
  | .expr _ e terminated => do
    let scope ← expr e
    return if terminated then none else scope
  | .macroCall m => do
    let _ ← macroCall m
    return none
  | .item _ => return none

end

end Body

/-- What the body of a function does, with scopes bound to parameters. -/
def FnDecl.script (f : FnDecl) (p : Program) (bound : Locals) : Script (Option ScopeId) :=
  Prod.fst <$> (Body.block (.within (f.scope p) f.owner) none f.body).run bound

/-- What the value of a static does. -/
def Declared.script (d : Declared StaticItem) (p : Program) : Script (Option ScopeId) :=
  Prod.fst <$> (Body.expr (.within ⟨p, d.module, none⟩ none) d.item.value).run []

end ServiceContract
