import ServiceContract.Source.Syntax

/-! # All expressions of a tree

The expressions of a block or an expression in source order, each before those inside it.
A walk may stay outside closures, and may enter the arguments of macro calls.
-/

namespace ServiceContract.Source

/-- Where a walk goes. -/
structure Walk where
  closures : Bool
  macros : Bool

namespace Walk

variable (w : Walk)

mutual

/-- An expression and all expressions inside it. -/
def expr : Expr → List Expr
  | .lit v => [.lit v]
  | .path p inner => .path p inner :: exprs inner
  | .paren e => .paren e :: expr e
  | .ref e => .ref e :: expr e
  | .rawAddress e => .rawAddress e :: expr e
  | .unary op e => .unary op e :: expr e
  | .binary op l r => .binary op l r :: (expr l ++ expr r)
  | .assign l r => .assign l r :: (expr l ++ expr r)
  | .cast e t inner => .cast e t inner :: (expr e ++ exprs inner)
  | .call f args => .call f args :: (expr f ++ exprs args)
  | .methodCall e name types inner args =>
    .methodCall e name types inner args :: (expr e ++ exprs inner ++ exprs args)
  | .field e m => .field e m :: expr e
  | .index e i => .index e i :: (expr e ++ expr i)
  | .attempt e => .attempt e :: expr e
  | .await e => .await e :: expr e
  | .macroCall m => .macroCall m :: macroCall m
  | .record p inner fields rest =>
    .record p inner fields rest :: (exprs inner ++ fieldExprs fields ++ optional rest)
  | .tuple es => .tuple es :: exprs es
  | .array es => .array es :: exprs es
  | .repeated e n => .repeated e n :: (expr e ++ expr n)
  | .range l h => .range l h :: (optional l ++ optional h)
  | .block b => .block b :: stmts b
  | .uncheckedBlock b => .uncheckedBlock b :: stmts b
  | .constBlock b => .constBlock b :: stmts b
  | .asyncBlock b => .asyncBlock b :: stmts b
  | .tryBlock b => .tryBlock b :: stmts b
  | .ifThen c b o => .ifThen c b o :: (expr c ++ stmts b ++ optional o)
  | .matchOn e as => .matchOn e as :: (expr e ++ arms as)
  | .whileLoop c b => .whileLoop c b :: (expr c ++ stmts b)
  | .forLoop names inner e b => .forLoop names inner e b :: (exprs inner ++ expr e ++ stmts b)
  | .loop b => .loop b :: stmts b
  | .letCond names inner e => .letCond names inner e :: (exprs inner ++ expr e)
  | .closure names inner e =>
    .closure names inner e :: (if w.closures then exprs inner ++ expr e else [])
  | .returns e => .returns e :: optional e
  | .breaks e => .breaks e :: optional e
  | .yields e => .yields e :: optional e
  | .other => [.other]

def exprs : List Expr → List Expr
  | [] => []
  | e :: es => expr e ++ exprs es

def optional : Option Expr → List Expr
  | none => []
  | some e => expr e

def fieldExprs : List (String × Expr) → List Expr
  | [] => []
  | (_, e) :: fs => expr e ++ fieldExprs fs

def macroCall : MacroCall → List Expr
  | .mk _ _ (some args) _ => if w.macros then exprs args else []
  | .mk _ _ none _ => []

def arms : List Arm → List Expr
  | [] => []
  | .mk _ inner guard body :: as => exprs inner ++ optional guard ++ expr body ++ arms as

/-- All expressions of a block. -/
def stmts : List Stmt → List Expr
  | [] => []
  | s :: ss => stmt s ++ stmts ss

def stmt : Stmt → List Expr
  | .binding _ inner value otherwise =>
    exprs inner ++ optional value ++ (match otherwise with | some b => stmts b | none => [])
  | .expr attributes e _ => exprs attributes ++ expr e
  | .macroCall m => macroCall m
  | .item inner => exprs inner

end

end Walk

/-- The last segment of the called path. -/
def calleeName? : Expr → Option String
  | .path p _ => p.last?
  | _ => none

/-- The segments of the called path. -/
def calleePath? : Expr → Option (List String)
  | .path p _ => some p.segments
  | _ => none

/-- Whether an expression is the word `self`. -/
def isSelf : Expr → Bool
  | .path p _ => p.isIdent "self"
  | _ => false

/-- The expression that a block ends in. -/
def tail? : Block → Option Expr
  | [] => none
  | [.expr _ e false] => some e
  | _ :: rest => tail? rest

mutual

/-- The expressions that an expression can evaluate to, through blocks, branches, parentheses and
the wrappers of success. -/
def leaves : Expr → List Expr
  | .block b => tailLeaves b
  | .uncheckedBlock b => tailLeaves b
  | .ifThen _ b otherwise =>
    tailLeaves b ++ (match otherwise with | some e => leaves e | none => [])
  | .matchOn _ arms => armLeaves arms
  | .paren e => leaves e
  | .returns _ => []
  | .call f [a] =>
    if calleeName? f == some "Ok" || calleeName? f == some "Some" then leaves a else [.call f [a]]
  | e => [e]

def tailLeaves : List Stmt → List Expr
  | [] => []
  | [.expr _ e false] => leaves e
  | _ :: rest => tailLeaves rest

def armLeaves : List Arm → List Expr
  | [] => []
  | .mk _ _ _ body :: rest => leaves body ++ armLeaves rest

end

/-- The expressions that a block can evaluate to: those of its tail, then those of every `return`
in it outside closures. -/
def returned (b : Block) : List Expr :=
  tailLeaves b ++
    ((Walk.mk false false).stmts b).flatMap fun e => match e with
      | .returns (some v) => leaves v
      | _ => []

end ServiceContract.Source
