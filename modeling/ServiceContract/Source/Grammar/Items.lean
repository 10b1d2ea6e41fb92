import ServiceContract.Source.Grammar.Statements

/-! # The grammar of declarations

A declaration is read together with the expressions inside it, in source order. Declarations that
no analysis asks for are read and forgotten.
-/

namespace ServiceContract.Source.Grammar

open Tokens Source.Parser

variable (g : Grammar)

/-- How far a declaration can be seen. -/
inductive Visibility
  | inherited
  | restricted
  | exported
  deriving DecidableEq, Repr

def visibility : Parser Visibility := fun ts =>
  if !isWord "pub" ts then some (.inherited, ts)
  else
    match ts.drop 1 with
    | .group .paren content :: rest =>
      let rootNext := isWord "crate" content || isWord "self" content || isWord "super" content
      if rootNext && content.length == 1 then some (.restricted, rest)
      else if !rootNext && isWord "in" content then
        match all modPath (content.drop 1) with
        | some _ => some (.restricted, rest)
        | none => none
      else some (.exported, ts.drop 1)
    | rest => some (.exported, rest)

/-- Whether a function comes next, after its qualifiers. -/
def isFn (safe : Bool) (ts : List Token) : Bool :=
  let qualifiers : Parser Unit := do
    let _ ← word? "const"
    let _ ← word? "async"
    if safe && (← peek (isWord "safe")) then
      let _ ← anyIdent
    else
      let _ ← word? "unsafe"
    abi?
  match qualifiers ts with
  | some (_, rest) => isWord "fn" rest
  | none => false

/-- What a function says besides its body. -/
structure Signature where
  name : String
  params : List Param
  paramParts : List String
  output : Option TypeExpr
  inner : List Expr

/-- A receiver: the expressions inside its type. -/
def receiver : Parser (List Expr) := do
  let byRef ← punct? "&"
  if byRef && (← peek isLifetime) then lifetime
  let _ ← word? "mut"
  word "self"
  if !byRef && (← punct? ":") then return (← g.type true).inner
  else return []

/-- The parameters of a function, up to the last token, with the names of parts of them and the
expressions inside them. -/
def params (receivers : Bool) : Nat → Parser (List Param × List String × List Expr)
  | 0 => fun _ => none
  | n + 1 => do
    if ← peek List.isEmpty then return ([], [], [])
    let attrs ← g.outerAttrs
    let own := attrExprs attrs
    if ← punct? "..." then
      let _ ← punct? ","
      guard List.isEmpty
      return ([], [], own)
    match ← attempt? g.receiver with
    | some inner =>
      guard fun _ => receivers
      more n .receiver [] (own ++ inner)
    | none =>
      if ← peek fun ts => isIdent ts && isPunct "<" (skip ts) then
        more n (.typed none) [] (own ++ (← g.type true).inner)
      else
        let p ← g.pat
        punct ":"
        if ← punct? "..." then
          let _ ← punct? ","
          guard List.isEmpty
          return ([], [], own ++ p.inner)
        let t ← g.type true
        more n (.typed p.pattern.whole?) p.pattern.parts (own ++ p.inner ++ t.inner)
where
  more (n : Nat) (param : Param) (parts : List String) (inner : List Expr) :
      Parser (List Param × List String × List Expr) := do
    if ← peek List.isEmpty then return ([param], parts, inner)
    punct ","
    let (others, names, rest) ← params false n
    return (param :: others, parts ++ names, inner ++ rest)

def signature (safe : Bool) : Parser Signature := do
  let _ ← word? "const"
  let _ ← word? "async"
  if safe && (← peek (isWord "safe")) then
    let _ ← anyIdent
  else
    let _ ← word? "unsafe"
  abi?
  word "fn"
  let name ← ident
  let (_, generic) ← g.generics
  let (ps, parts, inner) ← within .paren (fun ts => g.params true (ts.length + 1) ts)
  let output ← g.returnType true
  let wheres ← g.whereClause
  return { name, params := ps, paramParts := parts, output := output.map (·.shape)
           inner := generic ++ wheres ++ inner ++ ((output.map (·.inner)).getD []) }

/-- A function with its body; the attributes inside the body are its own. -/
def fnWithBody (attrs : List Attr) (sig : Signature) : Parser (FnItem × List Expr) := do
  let (more, stmts) ← g.body
  let attrs := attrs ++ more
  return (⟨attrs, sig.name, sig.params, sig.output, stmts, sig.paramParts⟩,
    attrExprs attrs ++ sig.inner ++ [.block stmts])

def field (named : Bool) : Parser (Field × List Expr) := do
  let attrs ← g.outerAttrs
  let vis ← visibility
  let name ← if named then do
      let name ← if ← peek (isWord "_") then anyIdent else ident
      punct ":"
      pure (some name)
    else pure none
  let t ← g.type true
  return (⟨attrs, vis = .exported, name, t.shape⟩, attrExprs attrs ++ t.inner)

def fieldsWithin (named : Bool) : Parser (Fields × List Expr) := do
  let found ← within (if named then .brace else .paren) (commaList (g.field named))
  let list := found.map (·.1)
  return (if named then .named list else .unnamed list, (found.map (·.2)).flatten)

def structItem (attrs : List Attr) : Parser (Item × List Expr) := do
  word "struct"
  let name ← ident
  let (typeParams, generic) ← g.generics
  let clause ← peek (isWord "where")
  let wheres ← g.whereClause
  if !clause && (← peek (isGroup .paren)) then
    let (fields, inner) ← g.fieldsWithin false
    let later ← g.whereClause
    punct ";"
    return (.struct ⟨attrs, name, typeParams, fields⟩, attrExprs attrs ++ generic ++ later ++ inner)
  else if ← peek (isGroup .brace) then
    let (fields, inner) ← g.fieldsWithin true
    return (.struct ⟨attrs, name, typeParams, fields⟩,
      attrExprs attrs ++ generic ++ wheres ++ inner)
  else
    punct ";"
    return (.struct ⟨attrs, name, typeParams, .unit⟩, attrExprs attrs ++ generic ++ wheres)

def variant : Parser (Variant × List Expr) := do
  let attrs ← g.outerAttrs
  let _ ← visibility
  let name ← ident
  let (fields, inner) ← if ← peek (isGroup .brace) then g.fieldsWithin true
    else if ← peek (isGroup .paren) then g.fieldsWithin false
    else pure (.unit, [])
  let discriminant ← if ← punct? "=" then do pure (some (← g.expr true)) else pure none
  return (⟨attrs, name, fields, discriminant⟩, attrExprs attrs ++ inner ++ discriminant.toList)

def enumItem (attrs : List Attr) : Parser (Item × List Expr) := do
  word "enum"
  let name ← ident
  let (typeParams, generic) ← g.generics
  let wheres ← g.whereClause
  let found ← within .brace (commaList g.variant)
  return (.enum ⟨attrs, name, typeParams, found.map (·.1)⟩,
    attrExprs attrs ++ generic ++ wheres ++ (found.map (·.2)).flatten)

/-- Bounds after a colon, up to a where clause, a definition or an end. -/
def optionalBounds (stop : List Token → Bool) : Parser (List Expr) := do
  let found ← separated "+" stop (g.anyBound true)
  return (found.map (·.2)).flatten

/-- A type declaration, with or without a definition. -/
def typeDecl (attrs : List Attr) (free defaults : Bool) : Parser (Item × List Expr) := do
  let _ ← visibility
  if defaults then
    let _ ← word? "default"
  word "type"
  let name ← ident
  let (typeParams, generic) ← g.generics
  let bounded ← punct? ":"
  let bounds ← if bounded then
      g.optionalBounds fun ts => isWord "where" ts || isPunct "=" ts || isPunct ";" ts
    else pure []
  let wheres ← if free then g.whereClause else pure []
  let target ← if ← punct? "=" then do pure (some (← g.type true)) else pure none
  let later ← if free then pure [] else g.whereClause
  punct ";"
  match target, bounded with
  | some t, false =>
    return (.typeAlias ⟨attrs, name, typeParams, t.shape⟩,
      attrExprs attrs ++ generic ++ wheres ++ later ++ t.inner)
  | some t, true => return (.other, if free then [] else generic ++ bounds ++ later ++ t.inner)
  | none, _ => return (.other, if free then [] else generic ++ bounds ++ later)

/-- A constant; one that has generics or no value is no constant of the program. -/
def constItem (attrs : List Attr) : Parser (Option ConstItem × List Expr) := do
  word "const"
  let name ← if ← peek (isWord "_") then anyIdent else ident
  let generic ← peek (isPunct "<")
  let _ ← g.generics
  punct ":"
  let t ← g.type true
  let value ← if ← punct? "=" then do pure (some (← g.expr true)) else pure none
  let clause ← peek (isWord "where")
  let _ ← g.whereClause
  punct ";"
  match value with
  | some e =>
    if generic || clause then return (none, [])
    else return (some ⟨attrs, name, t.shape, e⟩, attrExprs attrs ++ t.inner ++ [e])
  | none => return (none, if generic || clause then [] else attrExprs attrs ++ t.inner)

def staticItem (attrs : List Attr) : Parser (Item × List Expr) := do
  word "static"
  let _ ← word? "mut"
  let name ← ident
  if ← punct? "=" then
    let _ ← g.expr true
    punct ";"
    return (.other, [])
  else
    punct ":"
    let t ← g.type true
    if ← punct? ";" then return (.other, [])
    else
      punct "="
      let e ← g.expr true
      punct ";"
      return (.static ⟨name, e⟩, attrExprs attrs ++ t.inner ++ [e])

/-- A macro call that stands for declarations. -/
def macroItem (attrs : List Attr) : Parser (List Expr) := do
  let path ← modPath
  punct "!"
  if ← peek fun ts => isIdent ts || isWord "try" ts then
    let _ ← anyIdent
  let m ← g.macroRest path
  if !m.braced then punct ";"
  return attrExprs attrs ++ [.macroCall m]

def isMacroStart (ts : List Token) : Bool :=
  isIdent ts || isWord "self" ts || isWord "super" ts || isWord "crate" ts || isPunct "::" ts

/-- A member of an implementation block. -/
def implMember : Parser (Option Member × List Expr) := do
  let attrs ← g.outerAttrs
  let start ← get
  let vis ← visibility
  let defaults ← if ← peek fun ts => isWord "default" ts && !isPunct "!" (skip ts) then do
      word "default"
      pure true
    else pure false
  if ← peek (isFn false) then
    let sig ← g.signature false
    if ← punct? ";" then return (none, [])
    else
      let (f, inner) ← g.fnWithBody attrs sig
      return (some (.fn f), inner)
  else if ← peek (isWord "const") then
    let (c, inner) ← g.constItem attrs
    return (c.map .const, if c.isSome then inner else [])
  else if ← peek (isWord "type") then
    set start
    let (_, inner) ← g.typeDecl attrs false true
    return (none, inner)
  else
    guard fun ts => vis = .inherited && !defaults && isMacroStart ts
    return (none, ← g.macroItem attrs)

def impl (attrs : List Attr) : Parser (Item × List Expr) := do
  let vis ← visibility
  let _ ← word? "default"
  let _ ← word? "unsafe"
  word "impl"
  let generic ← if ← peek isGenericsStart then do pure (← g.generics).2 else pure []
  let constImpl ← peek fun ts => isWord "const" ts || (isPunct "?" ts && isWord "const" (skip ts))
  if constImpl then
    let _ ← punct? "?"
    word "const"
  let negative ← if ← peek fun ts => isPunct "!" ts && !isGroup .brace (skip ts) then punct? "!"
    else pure false
  let first ← g.type true
  let forTrait ← word? "for"
  guard fun _ => forTrait || !negative
  let isTrait := match first.kind with
    | .named _ => true
    | _ => false
  let target ← if forTrait then g.type true else pure first
  let wheres ← g.whereClause
  let found ← within .brace (do
    let more ← g.innerAttrs
    let members ← many g.implMember
    return (more, members))
  if vis != .inherited || constImpl || (forTrait && !isTrait) then return (.other, [])
  else
    let head := if forTrait then first.inner ++ target.inner else target.inner
    return (.impl target.shape (found.2.filterMap (·.1)),
      attrExprs (attrs ++ found.1) ++ generic ++ wheres ++ head ++ (found.2.map (·.2)).flatten)

/-- A member of a trait: the expressions inside it. -/
def traitMember : Parser (List Expr) := do
  let attrs ← g.outerAttrs
  let vis ← visibility
  let defaults ← word? "default"
  let plain := vis = .inherited && !defaults
  let inner ← if ← peek (isFn false) then do
      let sig ← g.signature false
      if ← peek (isGroup .brace) then pure (← g.fnWithBody attrs sig).2
      else
        punct ";"
        pure (attrExprs attrs ++ sig.inner)
    else if ← peek (isWord "const") then do pure (← g.constItem attrs).2
    else if ← peek (isWord "type") then do pure (← g.typeDecl attrs false false).2
    else do
      guard fun ts => plain && isMacroStart ts
      g.macroItem attrs
  return if plain then inner else []

def traitItem (attrs : List Attr) : Parser (Item × List Expr) := do
  let start ← get
  let _ ← word? "unsafe"
  let _ ← word? "auto"
  word "trait"
  let _ ← ident
  let (_, generic) ← g.generics
  let started ← peek fun ts => isPunct "=" ts
  if started && isWord "trait" start then
    punct "="
    let bounds ← g.optionalBounds fun ts => isWord "where" ts || isPunct ";" ts
    let wheres ← g.whereClause
    punct ";"
    return (.other, attrExprs attrs ++ generic ++ wheres ++ bounds)
  else
    let supers ← if ← punct? ":" then
        g.optionalBounds fun ts => isWord "where" ts || isGroup .brace ts
      else pure []
    let wheres ← g.whereClause
    let (more, members) ← within .brace (do
      let more ← g.innerAttrs
      let members ← many g.traitMember
      return (more, members))
    return (.other, attrExprs (attrs ++ more) ++ generic ++ wheres ++ supers ++ members.flatten)

/-- A member of a block of foreign declarations. -/
def foreignMember : Parser (List Expr) := do
  let attrs ← g.outerAttrs
  let start ← get
  let vis ← visibility
  if ← peek (isFn true) then
    let safe ← peek fun ts => isWord "safe" ts
    let sig ← g.signature true
    if ← peek (isGroup .brace) then
      let _ ← g.body
      return []
    else
      punct ";"
      return if safe then [] else attrExprs attrs ++ sig.inner
  else if ← peek fun ts => isWord "static" ts ||
      ((isWord "unsafe" ts || isWord "safe" ts) && isWord "static" (skip ts)) then
    if !(← word? "unsafe") then
      let _ ← word? "safe"
    word "static"
    let _ ← word? "mut"
    let _ ← ident
    punct ":"
    let t ← g.type true
    if ← punct? "=" then
      let _ ← g.expr true
      punct ";"
      return []
    else
      punct ";"
      return attrExprs attrs ++ t.inner
  else if ← peek (isWord "type") then
    set start
    let _ ← g.typeDecl attrs true false
    return []
  else
    guard fun ts => vis = .inherited && isMacroStart ts
    g.macroItem attrs

def foreignItem (attrs : List Attr) : Parser (Item × List Expr) := do
  let _ ← word? "unsafe"
  abi?
  let (more, members) ← within .brace (do
    let more ← g.innerAttrs
    let members ← many g.foreignMember
    return (more, members))
  return (.other, attrExprs (attrs ++ more) ++ members.flatten)

def externCrate : Parser Unit := do
  word "extern"
  word "crate"
  let _ ← if ← peek (isWord "self") then anyIdent else ident
  if ← word? "as" then
    if !(← word? "_") then
      let _ ← ident
  punct ";"

/-- A tree of imported names. The first number bounds its depth. -/
def useTree : Nat → Bool → Parser Unit
  | 0, _ => fun _ => none
  | n + 1, root => do
    if ← peek fun ts => isIdent ts || isWord "self" ts || isWord "super" ts || isWord "crate" ts ||
        isWord "try" ts then
      let _ ← anyIdent
      if ← punct? "::" then useTree n false
      else if ← word? "as" then
        if !(← word? "_") then
          let _ ← ident
    else if ← punct? "*" then pure ()
    else
      let _ ← within .brace (commaList (do
        let rooted ← if root then punct? "::" else pure false
        useTree n (root && !rooted)))

def useItem : Parser Unit := do
  word "use"
  let rooted ← punct? "::"
  fun ts => useTree (sizeOfTokens ts + 1) (!rooted) ts
  punct ";"

def moduleItem (attrs : List Attr) : Parser (Item × List Expr) := do
  let _ ← word? "unsafe"
  word "mod"
  let name ← if ← peek (isWord "try") then anyIdent else ident
  if ← punct? ";" then return (.module name none, attrExprs attrs)
  else
    let (more, found) ← within .brace (do
      let more ← g.innerAttrs
      let found ← many g.item
      return (more, found))
    return (.module name (some (found.map (·.1))),
      attrExprs (attrs ++ more) ++ (found.map (·.2)).flatten)

def unionItem (attrs : List Attr) : Parser (Item × List Expr) := do
  let _ ← anyIdent
  let _ ← ident
  let (_, generic) ← g.generics
  let wheres ← g.whereClause
  let (_, inner) ← g.fieldsWithin true
  return (.other, attrExprs attrs ++ generic ++ wheres ++ inner)

/-- A macro definition by the keyword. -/
def macroDefinition : Parser Unit := do
  word "macro"
  let _ ← ident
  if ← peek (isGroup .paren) then
    let _ ← group .paren
  let _ ← group .brace

/-- A declaration. -/
def itemStep : Parser (Item × List Expr) := do
  let attrs ← g.outerAttrs
  let start ← get
  let vis ← visibility
  let ts ← get
  let second := skip ts
  let w (s : String) := isWord s ts
  if isFn false ts then
    let sig ← g.signature false
    if ← punct? ";" then return (.other, [])
    else
      let (f, inner) ← g.fnWithBody attrs sig
      return (.fn f, inner)
  else if w "extern" then
    if isWord "crate" second then
      externCrate
      return (.other, attrExprs attrs)
    else foreignOf attrs vis
  else if w "use" then
    useItem
    return (.other, attrExprs attrs)
  else if w "static" then g.staticItem attrs
  else if w "const" then
    let (c, inner) ← g.constItem attrs
    match c with
    | some c => return (.const c, inner)
    | none => return (.other, [])
  else if w "unsafe" then
    if isWord "trait" second || (isWord "auto" second && isWord "trait" (skip second)) then
      g.traitItem attrs
    else if isWord "impl" second then
      set start
      g.impl attrs
    else if isWord "extern" second then foreignOf attrs vis
    else
      guard fun _ => isWord "mod" second
      g.moduleItem attrs
  else if w "mod" then g.moduleItem attrs
  else if w "type" then
    set start
    g.typeDecl attrs true false
  else if w "struct" then g.structItem attrs
  else if w "enum" then g.enumItem attrs
  else if w "union" && isIdent second then g.unionItem attrs
  else if w "trait" || (w "auto" && isWord "trait" second) then g.traitItem attrs
  else if w "impl" || (w "default" && !isPunct "!" second) then
    set start
    g.impl attrs
  else if w "macro" then
    macroDefinition
    return (.other, [])
  else
    guard fun ts => vis = .inherited && isMacroStart ts
    return (.other, ← g.macroItem attrs)
where
  foreignOf (attrs : List Attr) (vis : Visibility) : Parser (Item × List Expr) := do
    guard fun _ => vis = .inherited
    g.foreignItem attrs

end ServiceContract.Source.Grammar
