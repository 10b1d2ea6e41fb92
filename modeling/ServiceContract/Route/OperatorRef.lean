import ServiceContract.Constant.Scope

/-! # Operators where they are registered

An operator is registered as a value of its struct, or as a group that only has a path. What is
neither is passed over.
-/

namespace ServiceContract

open Source

/-- An operator as it is registered. -/
inductive OperatorRef
  /-- A declared struct. -/
  | type (module : List String) (name : String)
  /-- A group: a path and nothing else. -/
  | group (path : String)
  deriving DecidableEq, Repr

namespace OperatorRef

def text : OperatorRef → String
  | type module name => qualify module name
  | group path => "Group(" ++ path ++ ")"

def isGroup : OperatorRef → Bool
  | group _ => true
  | type _ _ => false

/-- The names that a group is made with. -/
def groupNames : List String := ["Group", "BasePath"]

/-- Whether a called path makes a group. -/
def makesGroup (segments : List String) : Bool :=
  match segments.reverse with
  | "new" :: owner :: _ => groupNames.contains owner
  | name :: _ => groupNames.contains name
  | [] => false

/-- The path argument of an expression that makes a group. -/
def groupPath? : Expr → Option Expr
  | .call g [a] => if (calleePath? g).any makesGroup then some a else none
  | _ => none

/-- The operator that an expression without references around it registers. -/
def ofValue? (s : Scope) (e : Expr) : Option OperatorRef :=
  match groupPath? e with
  | some path => (s.evalStr path).map group
  | none =>
    (constructedType? e).bind fun path =>
      match s.program.findType path s.module with
      | some (.struct d) => some (type d.module d.item.name)
      | _ => none

mutual

/-- The operators that an expression registers: one, or those of a list. -/
def ofExpr (s : Scope) : Expr → List OperatorRef
  | .ref e => ofExpr s e
  | .paren e => ofExpr s e
  | .array es => ofExprs s es
  | .macroCall m => ofMacro s m
  | e => (ofValue? s e).toList

def ofExprs (s : Scope) : List Expr → List OperatorRef
  | [] => []
  | e :: es => ofExpr s e ++ ofExprs s es

def ofMacro (s : Scope) : MacroCall → List OperatorRef
  | .mk path _ (some args) _ => if path.last? == some "vec" then ofExprs s args else []
  | .mk _ _ none _ => []

end

end OperatorRef

end ServiceContract
