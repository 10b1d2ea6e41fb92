import ServiceContract.Constant.Basic
import ServiceContract.Http.Method
import ServiceContract.Http.Status
import ServiceContract.Program.Lookup

/-! # Folding expressions

An expression is folded in the scope of a module and, inside an implementation block, of a self
type. Literals, arithmetic, well-known names and declared constants are folded; anything else has
no value. Each step into an operand or a constant goes one level down, and folding ends at a
fixed depth, so a constant that refers to itself has no value.
-/

namespace ServiceContract

open Source

/-- Where an expression stands. -/
structure Scope where
  program : Program
  module : List String
  selfType : Option String := none

namespace Scope

/-- The levels of folding. -/
def maxLevels : Nat := 17

/-- The value of a well-known path. -/
def wellKnown? (segments : List String) : Option Constant :=
  match segments.reverse with
  | last :: owner :: _ =>
    if owner == "StatusCode" then (statusCode? last).map fun n => .int n
    else if owner == "Method" then
      let name := Unicode.toUpper last
      if Method.isName name then some (.str name) else none
    else none
  | _ => none

/-- The path with the name of the self type in place of `Self`. -/
def withSelf? (s : Scope) : List String → Option (List String)
  | "Self" :: rest => s.selfType.map (· :: rest)
  | segments => some segments

/-- The constant that a path means here. -/
def constant? (s : Scope) (segments : List String) : Option ConstDecl :=
  (s.withSelf? segments).bind fun path => s.program.findConst path s.module

/-- The scope of a constant's own expression. -/
def ofConst (s : Scope) (c : ConstDecl) : Scope :=
  { s with module := c.module, selfType := c.selfType }

/-- Methods and functions that leave a value as it is. -/
def keepingMethods : List String := ["to_string", "into", "to_owned"]

def keepingFunctions : List String := ["from", "from_u16", "new", "Some"]

/-- The value of an expression, if it has one within so many levels. -/
def evalWithin (s : Scope) : Nat → Expr → Option Constant
  | 0, _ => none
  | n + 1, e =>
    match e with
    | .lit v => Constant.ofLit v
    | .paren e => s.evalWithin n e
    | .ref e => s.evalWithin n e
    | .cast e _ _ => s.evalWithin n e
    | .block [.expr _ e false] => s.evalWithin n e
    | .unary op e => (s.evalWithin n e).bind (Constant.unary op)
    | .binary op l r =>
      (s.evalWithin n l).bind fun a => (s.evalWithin n r).bind fun b => Constant.binary op a b
    | .path p _ =>
      match wellKnown? p.segments with
      | some v => some v
      | none => (s.constant? p.segments).bind fun c => (s.ofConst c).evalWithin n c.item.value
    | .methodCall e name _ _ [] =>
      if keepingMethods.contains name then s.evalWithin n e else none
    | .call f [a] =>
      (calleeName? f).bind fun name =>
        if keepingFunctions.contains name then s.evalWithin n a else none
    | _ => none

/-- The value of an expression. -/
def eval (s : Scope) (e : Expr) : Option Constant := s.evalWithin maxLevels e

def evalStr (s : Scope) (e : Expr) : Option String := (s.eval e).bind Constant.asStr?

def evalInt (s : Scope) (e : Expr) : Option Int := (s.eval e).bind Constant.asInt?

/-- A pair of whole numbers. -/
def pair (s : Scope) : Expr → Option (Int × Int)
  | .tuple [a, b] => (s.evalInt a).bind fun k => (s.evalInt b).map fun v => (k, v)
  | _ => none

/-- A list of pairs of whole numbers. -/
def literalPairs (s : Scope) : Expr → Option (List (Int × Int))
  | .array items => items.mapM s.pair
  | .ref e => s.literalPairs e
  | .macroCall m => if m.path.isIdent "vec" then m.args.bind (·.mapM s.pair) else none
  | _ => none

mutual

/-- The entries of a literal map: pairs handed to a constructor, pairs that are collected, or
the entries of a macro call. -/
def literalMap (s : Scope) : Expr → Option (List (Int × Int))
  | .call f [a] =>
    match calleeName? f with
    | some name => if name == "from" || name == "from_iter" then s.literalPairs a else none
    | none => none
  | .methodCall e name _ _ _ =>
    if name == "collect" || name == "into_iter" || name == "into" then
      match s.literalMap e with
      | some entries => some entries
      | none => s.literalPairs e
    else none
  | .macroCall m =>
    m.entries.bind (·.mapM fun (k, v) =>
      (s.evalInt k).bind fun a => (s.evalInt v).map fun b => (a, b))
  | .paren e => s.literalMap e
  | .block body => s.literalMapTail body
  | _ => none

def literalMapTail (s : Scope) : List Stmt → Option (List (Int × Int))
  | [] => none
  | [.expr _ e false] => s.literalMap e
  | _ :: rest => s.literalMapTail rest

end

end Scope

/-- The scope of a function's body. -/
def FnDecl.scope (f : FnDecl) (p : Program) : Scope := ⟨p, f.module, f.selfType⟩

/-- The type that an expression constructs: `T`, a literal of a struct `T`, `T::default()`, and
these behind references, parentheses, conversions and smart pointers. -/
def constructedType? : Expr → Option TypePath
  | .path p _ => if Program.startsUppercase (p.last?.getD "") then some p.toTypePath else none
  | .record p _ _ _ => some p.toTypePath
  | .ref e => constructedType? e
  | .paren e => constructedType? e
  | .methodCall e name _ _ _ =>
    if name == "into" || name == "clone" then constructedType? e else none
  | .call f args =>
    match f with
    | .path p _ =>
      match p.segments.reverse with
      | constructor :: owner :: outer =>
        let plain :=
          if Program.startsUppercase owner && !Program.startsUppercase constructor then
            some (TypePath.mk (owner :: outer).reverse [])
          else none
        match args with
        | [a] => if ["Box", "Arc", "Rc"].contains owner then constructedType? a else plain
        | _ => plain
      | _ => none
    | _ => none
  | _ => none

end ServiceContract
