import ServiceContract.Source.Grammar.Expressions

/-! # The grammar of statements

A block is a sequence of bindings, declarations, macro calls and expressions. An expression needs
a semicolon unless it is the last one or ends in a block.
-/

namespace ServiceContract.Source.Grammar

open Tokens Source.Parser

variable (g : Grammar)

/-- Expressions that end in a closing brace, which no `else` can follow. -/
def endsInBrace : Expr → Bool
  | .asyncBlock _ => true
  | .block _ => true
  | .constBlock _ => true
  | .forLoop _ _ _ _ => true
  | .ifThen _ _ _ => true
  | .loop _ => true
  | .matchOn _ _ => true
  | .record _ _ _ _ => true
  | .tryBlock _ => true
  | .uncheckedBlock _ => true
  | .whileLoop _ _ => true
  | .assign _ e => endsInBrace e
  | .binary _ _ e => endsInBrace e
  | .breaks (some e) => endsInBrace e
  | .closure _ _ e => endsInBrace e
  | .letCond _ _ e => endsInBrace e
  | .macroCall (.mk _ braced _ _) => braced
  | .range _ (some e) => endsInBrace e
  | .rawAddress e => endsInBrace e
  | .ref e => endsInBrace e
  | .returns (some e) => endsInBrace e
  | .unary _ e => endsInBrace e
  | .yields (some e) => endsInBrace e
  | _ => false

/-- A binding after its attributes. -/
def binding (attrs : List Attr) : Parser Stmt := do
  word "let"
  let p ← g.pat
  let (pattern, inner) ← if ← punct? ":" then do
      let t ← g.type true
      pure (Pat.typed p.pattern, p.inner ++ t.inner)
    else pure (p.pattern, p.inner)
  let inner := attrExprs attrs ++ inner
  if ← punct? "=" then
    let value ← g.expr true
    if !endsInBrace value && (← peek (isWord "else")) then
      word "else"
      let otherwise ← g.block
      punct ";"
      return .binding pattern inner (some value) (some otherwise)
    else
      punct ";"
      return .binding pattern inner (some value) none
  else
    punct ";"
    return .binding pattern inner none none

/-- Whether a declaration comes next in a block. -/
def isItemStart (ts : List Token) : Bool :=
  let second := skip ts
  let third := skip second
  let w (s : String) := isWord s ts
  let w2 (s : String) := isWord s second
  let w3 (s : String) := isWord s third
  w "pub" || (w "crate" && !isPunct "::" second) || w "extern" || w "use" ||
    (w "static" && (w2 "mut" ||
      (isIdent second && !(w2 "async" && (w3 "move" || isPunct "|" third))))) ||
    (w "const" && !(isGroup .brace second || w2 "static" ||
      (w2 "async" && !(w3 "unsafe" || w3 "extern" || w3 "fn")) || w2 "move" ||
      isPunct "|" second)) ||
    (w "unsafe" && !isGroup .brace second) ||
    (w "async" && (w2 "unsafe" || w2 "extern" || w2 "fn")) ||
    w "fn" || w "mod" || w "type" || w "struct" || w "enum" || (w "union" && isIdent second) ||
    (w "auto" && w2 "trait") || w "trait" || (w "default" && (w2 "unsafe" || w2 "impl")) ||
    w "impl" || w "macro"

/-- What a macro call at the front of a statement is. -/
inductive MacroStart
  | item
  | braced (path : Path)
  | none

def macroStart (ts : List Token) : MacroStart :=
  match modPath ts with
  | some (path, rest) =>
    if isPunct "!" rest then
      let second := skip rest
      let third := skip second
      if isIdent second || isWord "try" second then .item
      else if isGroup .brace second && !(isDot third || isPunct "?" third) then .braced path
      else .none
    else .none
  | none => .none

/-- An expression used as a statement. -/
def exprStmt (attrs : List Attr) : Parser Stmt := do
  let e ← g.early
  let terminated ← punct? ";"
  let plain := Stmt.expr (attrExprs attrs) e terminated
  return match e with
    | .macroCall m => if terminated || m.braced then .macroCall m else plain
    | _ => plain

/-- One statement. -/
def stmt : Parser Stmt := do
  let start ← get
  let attrs ← g.outerAttrs
  let ts ← get
  match macroStart ts with
  | .braced path =>
    let _ ← modPath
    punct "!"
    let m ← g.macroRest path
    let _ ← punct? ";"
    return .macroCall m
  | .item => itemStmt start
  | .none =>
    if isWord "let" ts then g.binding attrs
    else if isItemStart ts then itemStmt start
    else g.exprStmt attrs
where
  itemStmt (start : List Token) : Parser Stmt := do
    set start
    let (_, inner) ← g.item
    return .item inner

/-- Whether a statement has to be followed by a semicolon. -/
def needsSemicolon : Stmt → Bool
  | .expr _ (.macroCall m) false => !m.braced
  | .expr _ e false => !isBlockLike e
  | _ => false

/-- The statements up to the last token. The number bounds them. -/
def stmtList : Nat → Parser Block
  | 0 => fun _ => none
  | n + 1 => do
    if ← peek List.isEmpty then return []
    else if ← punct? ";" then return .expr [] .other true :: (← stmtList n)
    else
      let s ← g.stmt
      guard fun ts => ts.isEmpty || !needsSemicolon s
      return s :: (← stmtList n)

def stmtsStep : Parser Block := fun ts => g.stmtList (ts.length + 1) ts

end ServiceContract.Source.Grammar
