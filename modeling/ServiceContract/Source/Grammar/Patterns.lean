import ServiceContract.Source.Grammar.Types

/-! # The grammar of patterns

Of a pattern the names it binds are kept and the expressions inside it: paths, literals, constants
and macro calls.
-/

namespace ServiceContract.Source.Grammar

open Tokens Source.Parser

variable (g : Grammar)

def namesOf (ps : List PatUse) : List String := ps.flatMap (·.pattern.names)

def innerOf (ps : List PatUse) : List Expr := (ps.map (·.inner)).flatten

/-- A pattern of these patterns. -/
def patOf (ps : List PatUse) : PatUse := { pattern := .other (namesOf ps), inner := innerOf ps }

/-- A pattern with alternatives, which may start with a bar. -/
def alternatives : Parser PatUse := do
  let bar (ts : List Token) : Bool := isPunct "|" ts && !isPunct "||" ts && !isPunct "|=" ts
  let leading ← punct? "|"
  let first ← g.pat
  let others ← manyWhile bar (do punct "|"; g.pat)
  if !leading && others.isEmpty then return first
  else return patOf (first :: others)

/-- Patterns between commas that use up all tokens. -/
def patList : Parser (List PatUse) := commaList g.alternatives

/-- Where the end of a range pattern cannot start. -/
def noBound (ts : List Token) : Bool :=
  ts.isEmpty || isPunct "|" ts || isPunct "=" ts || (isPunct ":" ts && !isPunct "::" ts) ||
    isPunct "," ts || isPunct ";" ts || isWord "if" ts

/-- One end of a range pattern. -/
def rangeBound : Parser (Option Expr) := do
  if ← peek noBound then return none
  else if ← peek isLit then return some (.lit (← lit))
  else if ← peek fun ts => isSegmentStart ts || isPunct "::" ts || isPunct "<" ts then
    let (p, _) ← g.pathWithBounds true
    return some (.path p.path p.inner)
  else
    word "const"
    let (_, stmts) ← g.body
    return some (.constBlock stmts)

/-- The marks of a range pattern: whether the upper end is required. -/
def rangeMark : Parser Bool := do
  if ← punct? "..=" then return true
  else if ← punct? "..." then return true
  else
    punct ".."
    return false

/-- A range pattern after its lower end. -/
def rangeFrom (low : Expr) : Parser PatUse := do
  let closed ← rangeMark
  let high ← g.rangeBound
  guard fun _ => !closed || high.isSome
  return { inner := low :: high.toList, halfOpen := high.isNone }

/-- A field of a record pattern. -/
def fieldPat : Parser PatUse := do
  let attrs ← g.outerAttrs
  let boxed ← word? "box"
  let byRef ← word? "ref"
  let mutable ← word? "mut"
  let marked := boxed || byRef || mutable
  if !marked && (← peek isLit) then
    guard fun ts => match lit? ts with
      | some (.int false _, _) => true
      | _ => false
    let _ ← lit
    punct ":"
    let p ← g.alternatives
    return { p with inner := attrExprs attrs ++ p.inner }
  else
    let name ← ident
    if !marked && (← peek (isPunct ":")) then
      punct ":"
      let p ← g.alternatives
      return { p with inner := attrExprs attrs ++ p.inner }
    else return { pattern := .name name, inner := attrExprs attrs }

/-- The fields of a record pattern, up to the last token. -/
def fieldPats : Nat → Parser (List PatUse)
  | 0 => fun _ => none
  | n + 1 => do
    if ← peek List.isEmpty then return []
    let restNext (ts : List Token) : Bool :=
      match outerAttrs g ts with
      | some (_, rest) => isPunct ".." rest
      | none => false
    if ← peek restNext then
      let attrs ← g.outerAttrs
      punct ".."
      return [{ inner := attrExprs attrs }]
    else
      let p ← g.fieldPat
      if ← peek List.isEmpty then return [p]
      punct ","
      return p :: (← fieldPats n)

/-- A pattern that starts with a path. -/
def pathPat : Parser PatUse := do
  let (p, qualified) ← g.pathWithBounds true
  if !qualified && p.path.plain && (← peek fun ts => isPunct "!" ts && !isPunct "!=" ts) then
    punct "!"
    return { inner := [.macroCall (← g.macroRest p.path)] }
  else if ← peek (isGroup .brace) then
    let fields ← within .brace (fun ts => g.fieldPats (ts.length + 1) ts)
    return { patOf fields with inner := p.inner ++ innerOf fields }
  else if ← peek (isGroup .paren) then
    let items ← within .paren g.patList
    return { patOf items with inner := p.inner ++ innerOf items }
  else if ← peek (isPunct "..") then g.rangeFrom (.path p.path p.inner)
  else return { inner := [.path p.path p.inner] }

/-- A pattern that binds a name. -/
def namePat : Parser PatUse := do
  let _ ← word? "ref"
  let _ ← word? "mut"
  let name ← if ← peek (isWord "self") then anyIdent else ident
  if ← punct? "@" then
    let p ← g.pat
    return { pattern := .named name p.pattern.names, inner := p.inner }
  else return { pattern := .name name }

/-- A pattern between parentheses, or a tuple of patterns. -/
def parenPat : Parser PatUse := do
  let content ← group .paren
  match all g.patList content with
  | none => fun _ => none
  | some items => return patOf items

/-- A pattern without alternatives. -/
def patStep : Parser PatUse := do
  let pathNext (ts : List Token) : Bool :=
    (isIdent ts &&
      (isPunct "::" (skip ts) || isPunct "!" (skip ts) || isGroup .brace (skip ts) ||
        isGroup .paren (skip ts) || isPunct ".." (skip ts))) ||
      (isWord "self" ts && isPunct "::" (skip ts)) || isPunct "::" ts || isPunct "<" ts ||
      isWord "Self" ts || isWord "super" ts || isWord "crate" ts
  if ← peek pathNext then g.pathPat
  else if ← word? "_" then return {}
  else if ← word? "box" then
    let p ← g.pat
    return { pattern := .other p.pattern.names }
  else if ← peek fun ts => isPunct "-" ts || isLit ts || isWord "const" ts then
    match ← g.rangeBound with
    | none => fun _ => none
    | some low =>
      if ← peek (isPunct "..") then g.rangeFrom low
      else return { inner := [low] }
  else if ← peek fun ts => isWord "ref" ts || isWord "mut" ts || isWord "self" ts || isIdent ts then
    g.namePat
  else if ← punct? "&" then
    let _ ← word? "mut"
    return patOf [← g.pat]
  else if ← peek (isGroup .paren) then g.parenPat
  else if ← peek (isGroup .bracket) then
    let items ← within .bracket g.patList
    guard fun _ => items.all fun p => !p.halfOpen
    return patOf items
  else
    guard fun ts => isPunct ".." ts && !isPunct "..." ts
    let closed ← punct? "..="
    if !closed then punct ".."
    match ← g.rangeBound with
    | some high => return { inner := [high], halfOpen := true }
    | none =>
      guard fun _ => !closed
      return { rest := true }

end ServiceContract.Source.Grammar
