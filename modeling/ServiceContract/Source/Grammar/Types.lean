import ServiceContract.Source.Grammar.Basic

/-! # The grammar of types

Paths with generic arguments, bounds, types, and the generics of declarations.
-/

namespace ServiceContract.Source.Grammar

open Tokens Source.Parser

variable (g : Grammar)

/-- A constant given as a generic argument. -/
def constArgument : Parser (List Expr) := do
  if ← peek isLit then return [.lit (← lit)]
  else if ← peek isIdent then return [.path { segments := [← ident] } []]
  else
    let (attrs, stmts) ← g.body
    return attrExprs attrs ++ [.block stmts]

/-- Lifetimes and types bound by `for<..>`; what they are does not matter, so only the
expressions inside are kept. -/
def binders (param : Parser (List Expr)) : Parser (List Expr) := do
  if ← peek (isWord "for") then
    word "for"
    punct "<"
    let inner ← separated "," (isPunct ">") param
    punct ">"
    return inner.flatten
  else return []

/-- A generic argument: its type, if it is one, and the expressions inside it. -/
def genericArgument (bound : Parser (Bool × List Expr)) : Parser (Option TypeExpr × List Expr) := do
  if ← peek fun ts => isLifetime ts && !isPunct "+" (skip ts) then
    lifetime
    return (none, [])
  else if ← peek fun ts => isLit ts || isGroup .brace ts then
    return (none, ← g.constArgument)
  else
    let t ← g.type true
    let simple := match t.kind with
      | .named p => !p.rooted && p.segments.length == 1
      | _ => false
    if simple && (← peek (isPunct "=")) then
      punct "="
      if ← peek fun ts => isLit ts || isGroup .brace ts then
        return (none, t.inner ++ (← g.constArgument))
      else
        let value ← g.type true
        return (none, t.inner ++ value.inner)
    else if simple && (← peek (isPunct ":")) then
      punct ":"
      let bounds ← boundSum bound
      return (none, t.inner ++ bounds)
    else return (some t.shape, t.inner)
where
  boundSum (bound : Parser (Bool × List Expr)) : Parser (List Expr) := do
    let bs ← separated "+" (fun ts => !isPunct "+" ts && (isPunct "," ts || isPunct ">" ts)) bound
    return (bs.map (·.2)).flatten

/-- Generic arguments between angle brackets: the types among them, and the expressions inside. -/
def angleArgs (bound : Parser (Bool × List Expr)) : Parser (List TypeExpr × List Expr) := do
  punct "<"
  let args ← separated "," (isPunct ">") (g.genericArgument bound)
  punct ">"
  return (args.filterMap (·.1), (args.map (·.2)).flatten)

/-- A segment of a path: its name, whether it has arguments, its types and the expressions inside.
In an expression, arguments need `::` in front. -/
def segment (bound : Parser (Bool × List Expr)) (exprStyle : Bool) :
    Parser (String × Bool × List TypeExpr × List Expr) := do
  if ← peek fun ts =>
      isWord "super" ts || isWord "self" ts || isWord "crate" ts || isWord "try" ts then
    return (← anyIdent, false, [], [])
  else
    let name ← if ← peek (isWord "Self") then anyIdent else ident
    let argsNext (ts : List Token) : Bool :=
      (!exprStyle && isPunct "<" ts && !isPunct "<=" ts && !isPunct "<<=" ts) ||
        (isPunct "::" ts && isPunct "<" (skip (skip ts)))
    if ← peek argsNext then
      let _ ← punct? "::"
      let (types, inner) ← g.angleArgs bound
      return (name, true, types, inner)
    else return (name, false, [], [])

/-- Puts segments together. -/
def pathOf (rooted : Bool) (segments : List (String × Bool × List TypeExpr × List Expr)) :
    PathUse :=
  { path :=
      { rooted
        segments := segments.map (·.1)
        args := (segments.getLast?.map (·.2.2.1)).getD []
        plain := segments.all fun s => !s.2.1 }
    inner := (segments.map (·.2.2.2)).flatten
    bare := (segments.getLast?.map fun s => !s.2.1).getD true }

/-- More segments of a path; none starts where parenthesized arguments stand. -/
def moreSegments (bound : Parser (Bool × List Expr)) (exprStyle : Bool) :
    Parser (List (String × Bool × List TypeExpr × List Expr)) :=
  manyWhile (fun ts => isPunct "::" ts && !isGroup .paren (skip (skip ts)))
    (do punct "::"; g.segment bound exprStyle)

/-- A path. -/
def path (bound : Parser (Bool × List Expr)) (exprStyle : Bool) : Parser PathUse := do
  let rooted ← punct? "::"
  let first ← g.segment bound exprStyle
  let others ← g.moreSegments bound exprStyle
  return pathOf rooted (first :: others)

/-- A path that may start with a qualified self type, and whether it does. -/
def qualifiedPath (bound : Parser (Bool × List Expr)) (exprStyle : Bool) :
    Parser (PathUse × Bool) := do
  if ← peek (isPunct "<") then
    punct "<"
    let self ← g.type true
    let owner : Option PathUse ← if ← peek (isWord "as") then do
        word "as"
        pure (some (← g.path bound false))
      else pure none
    punct ">"
    punct "::"
    let first ← g.segment bound exprStyle
    let others ← manyWhile (isPunct "::") (do punct "::"; g.segment bound exprStyle)
    let rest := pathOf false (first :: others)
    match owner with
    | some o =>
      return ({ path :=
                  { rooted := o.path.rooted
                    segments := o.path.segments ++ rest.path.segments
                    args := rest.path.args
                    plain := o.path.plain && rest.path.plain }
                inner := self.inner ++ o.inner ++ rest.inner
                bare := rest.bare }, true)
    | none =>
      return ({ rest with path := { rest.path with rooted := true }
                          inner := self.inner ++ rest.inner },
        true)
  else return (← g.path bound exprStyle, false)

/-- What a function type or a parenthesized bound returns. -/
def returnType (plus : Bool) : Parser (Option TypeUse) := do
  if ← peek (isPunct "->") then
    punct "->"
    return some (← g.type plus)
  else return none

/-- Parenthesized arguments: the expressions inside, and what is returned. -/
def parenArgs : Parser (List Expr × Option TypeUse) := do
  let inputs ← within .paren (commaList (g.type true))
  let output ← g.returnType false
  return ((inputs.map (·.inner)).flatten ++ ((output.map (·.inner)).getD []), output)

/-- One bound: whether it names a trait, and the expressions inside. `depth` bounds the nesting
of the binders and arguments of bounds. -/
def bound (constant : Bool) : Nat → Parser (Bool × List Expr)
  | 0 => fun _ => none
  | depth + 1 => do
    let next := bound constant depth
    if ← peek isLifetime then
      lifetime
      return (false, [])
    else if ← peek (isWord "use") then
      word "use"
      punct "<"
      let _ ← separated "," (isPunct ">") (do
        if ← peek isLifetime then lifetime
        else
          let _ ← if ← peek (isWord "Self") then anyIdent else ident
          pure ())
      punct ">"
      return (false, [])
    else if ← peek (isGroup .paren) then within .paren (traitBound next)
    else traitBound next
where
  traitBound (next : Parser (Bool × List Expr)) : Parser (Bool × List Expr) := do
    let lifetimeParam : Parser (List Expr) := do
      let attrs ← g.outerAttrs
      if ← peek isLifetime then
        lifetime
        if ← punct? ":" then
          let _ ← separated "+" (fun ts => ts.isEmpty || isPunct "," ts || isPunct ">" ts) lifetime
      else
        let _ ← ident
      return attrExprs attrs
    let bound ← binders lifetimeParam
    if ← peek (isGroup .bracket) then
      within .bracket (word "const")
      guard fun _ => constant
    else if ← peek (isWord "const") then
      word "const"
      guard fun _ => constant
    else if ← peek (isPunct "~") then
      punct "~"
      word "const"
    let maybe ← punct? "?"
    let later ← if maybe then binders lifetimeParam else pure []
    let p ← g.path next false
    let paren ← if p.bare && (← peek fun ts => isGroup .paren ts ||
        (isPunct "::" ts && isGroup .paren (skip (skip ts)))) then do
        let _ ← punct? "::"
        pure (← g.parenArgs).1
      else pure []
    return (true, bound ++ later ++ p.inner ++ paren)

/-- One bound, its nesting bounded by the tokens that are left. -/
def anyBound (constant : Bool) : Parser (Bool × List Expr) := fun ts =>
  g.bound constant (sizeOfTokens ts + 1) ts

/-- A path where generic arguments may hold bounds of their own. -/
def pathWithBounds (exprStyle : Bool) : Parser (PathUse × Bool) :=
  g.qualifiedPath (g.anyBound true) exprStyle

/-- Bounds joined by `+`; at least one has to name a trait. The answer tells whether there is a
single one. -/
def bounds (plus constant : Bool) : Parser (Bool × List Expr) := do
  let first ← g.anyBound constant
  let goesOn (ts : List Token) : Bool :=
    isAnyIdent ts || isPunct "::" ts || isPunct "?" ts || isLifetime ts || isGroup .paren ts ||
      (constant && (isGroup .bracket ts || isWord "const" ts))
  let others ← if plus then
      manyWhile (isPunct "+") (do
        punct "+"
        if ← peek goesOn then pure (some (← g.anyBound constant)) else pure none)
    else pure []
  let all := first :: others.filterMap id
  if all.any (·.1) then return (others.isEmpty, (all.map (·.2)).flatten) else fun _ => none

/-- Bounds after a first one. -/
def moreBounds : Parser (List Expr) := do
  let found ← manyWhile (isPunct "+") (do punct "+"; g.anyBound false)
  return (found.map (·.2)).flatten

/-- A type between parentheses, or a tuple. -/
def parenType (plus : Bool) : Parser TypeUse := do
  let content ← group .paren
  if content.isEmpty then return { shape := .unit }
  else if isLifetime content then
    match all (g.bounds true false) content with
    | some (_, inner) => return { shape := .dynamic, inner, kind := .other }
    | none => fun _ => none
  else if isPunct "?" content then
    match all (g.anyBound false) content with
    | some (_, inner) =>
      let more ← g.moreBounds
      return { shape := .dynamic, inner := inner ++ more, kind := .bounds more.isEmpty }
    | none => fun _ => none
  else
    match g.type true content with
    | none => fun _ => none
    | some (first, []) =>
      let summand := match first.kind with
        | .named _ => true
        | .bounds single => single
        | _ => false
      if plus && summand && (← peek (isPunct "+")) then
        let more ← g.moreBounds
        return { shape := .dynamic, inner := first.inner ++ more, kind := .bounds false }
      else return { first with kind := .other }
    | some (first, rest) =>
      match all (do punct ","; commaList (g.type true)) rest with
      | some others =>
        let items := first :: others
        return { shape := .tuple (items.map (·.shape)), inner := (items.map (·.inner)).flatten }
      | none => fun _ => none

/-- A parameter of a function type. -/
def fnTypeParam (first : Bool) : Parser (List Expr) := do
  let attrs ← g.outerAttrs
  let variadic (ts : List Token) : Bool :=
    isPunct "..." ts ||
      ((isIdent ts || isWord "_" ts) && isPunct ":" (skip ts) && isPunct "..." (skip (skip ts)))
  if ← peek variadic then
    if !(← peek (isPunct "...")) then
      let _ ← anyIdent
      punct ":"
    punct "..."
    return attrExprs attrs
  else
    let mutSelf ← if first && (← peek fun ts => isWord "mut" ts && isWord "self" (skip ts)) then do
        word "mut"
        pure true
      else pure false
    let named (ts : List Token) : Bool :=
      (isIdent ts || isWord "_" ts || (first && isWord "self" ts)) && isPunct ":" (skip ts) &&
        !isPunct "::" (skip ts)
    if ← peek named then
      let _ ← anyIdent
      punct ":"
      return attrExprs attrs ++ (← g.type true).inner
    else if mutSelf then
      word "self"
      return attrExprs attrs
    else return attrExprs attrs ++ (← g.type true).inner

/-- The name of a calling convention, if one is given. -/
def abi? : Parser Unit := do
  if ← word? "extern" then
    if ← peek fun ts => (stringLit ts).isSome then
      let _ ← stringLit
      pure ()

/-- A function type. -/
def fnType : Parser TypeUse := do
  let _ ← word? "unsafe"
  abi?
  word "fn"
  let content ← group .paren
  let rec params (n : Nat) (first : Bool) (ts : List Token) : Option (List Expr) :=
    match n with
    | 0 => none
    | n + 1 =>
      if ts.isEmpty then some []
      else
        match g.fnTypeParam first ts with
        | none => none
        | some (inner, []) => some inner
        | some (inner, rest) =>
          match punct "," rest with
          | none => none
          | some (_, rest) => (params n false rest).map (inner ++ ·)
  match params (content.length + 1) true content with
  | none => fun _ => none
  | some inner =>
    let output ← g.returnType false
    return { shape := .unknown, inner := inner ++ ((output.map (·.inner)).getD []) }

/-- A type that starts with a path: a macro call, a sum of bounds, or a named type. -/
def namedType (plus binding : Bool) : Parser TypeUse := do
  let (p, qualified) ← g.pathWithBounds false
  if qualified then
    return { shape := .path p.path.segments p.path.args, inner := p.inner }
  else if p.path.plain && (← peek fun ts => isPunct "!" ts && !isPunct "!=" ts) then
    punct "!"
    return { shape := .unknown, inner := [.macroCall (← g.macroRest p.path)] }
  else if binding || (plus && (← peek (isPunct "+"))) then
    let goesOn (ts : List Token) : Bool :=
      isAnyIdent ts || isPunct "::" ts || isPunct "?" ts || isLifetime ts || isGroup .paren ts
    let others ← if plus then
        manyWhile (isPunct "+") (do
          punct "+"
          if ← peek goesOn then pure (some (← g.anyBound false)) else pure none)
      else pure []
    return { shape := .dynamic
             inner := p.inner ++ ((others.filterMap id).map (·.2)).flatten
             kind := .bounds others.isEmpty }
  else
    return { shape := .path p.path.segments p.path.args, inner := p.inner
             kind := .named p.path }

/-- The length of an array type that is a whole number of 64 bits. -/
def arrayLength : Expr → Option Nat
  | .lit (.int false n) => if n < UInt64.size then some n else none
  | _ => none

/-- A parser for the parameters that `for<..>` binds. -/
def binderParam : Parser (List Expr) := do
  let attrs ← g.outerAttrs
  if ← peek isLifetime then
    lifetime
    if ← punct? ":" then
      let _ ← separated "+" (fun ts => ts.isEmpty || isPunct "," ts || isPunct ">" ts) lifetime
  else
    let _ ← ident
  return attrExprs attrs

/-- A type; `plus` allows a sum of bounds. -/
def typeStep (plus : Bool) : Parser TypeUse := do
  let binding ← peek (isWord "for")
  let bound ← binders g.binderParam
  let starts (ts : List Token) : Bool :=
    (isIdent ts || isWord "fn" ts || isWord "unsafe" ts || isWord "extern" ts ||
      isWord "super" ts || isWord "self" ts || isWord "Self" ts || isWord "crate" ts) &&
      !isWord "dyn" ts
  guard fun ts => !binding || starts ts
  let found ← next binding
  return { found with inner := bound ++ found.inner }
where
  next (binding : Bool) : Parser TypeUse := do
    if ← peek (isGroup .paren) then g.parenType plus
    else if ← peek fun ts => isWord "fn" ts || isWord "unsafe" ts || isWord "extern" ts then
      g.fnType
    else if ← peek fun ts => isSegmentStart ts || isPunct "::" ts || isPunct "<" ts then
      g.namedType plus binding
    else if ← peek (isWord "dyn") then
      word "dyn"
      let star ← punct? "*"
      let (_, inner) ← g.bounds plus false
      return { shape := if star then .unknown else .dynamic, inner := if star then [] else inner }
    else if ← peek (isGroup .bracket) then
      within .bracket (do
        let item ← g.type true
        if ← punct? ";" then
          let length ← g.expr true
          return { shape := .array item.shape (arrayLength length)
                   inner := item.inner ++ [length] }
        else return { shape := .slice item.shape, inner := item.inner })
    else if ← punct? "*" then
      if !(← word? "const") then word "mut"
      let target ← g.type false
      return { shape := .ref target.shape, inner := target.inner }
    else if ← punct? "&" then
      if ← peek isLifetime then lifetime
      let _ ← word? "mut"
      let target ← g.type false
      return { shape := .ref target.shape, inner := target.inner }
    else if ← peek fun ts => isPunct "!" ts && !isPunct "=" ts then
      punct "!"
      return { shape := .unknown }
    else if ← word? "impl" then
      let (_, inner) ← g.bounds plus true
      return { shape := .dynamic, inner }
    else if ← word? "_" then return { shape := .unknown }
    else
      guard isLifetime
      let (single, inner) ← g.bounds true false
      return { shape := .dynamic, inner, kind := .bounds single }

/-- The type parameters of a declaration, and the expressions inside its generics. -/
def generics : Parser (List String × List Expr) := do
  if ← peek (isPunct "<") then
    punct "<"
    let params ← separated "," (isPunct ">") param
    punct ">"
    return (params.filterMap (·.1), (params.map (·.2)).flatten)
  else return ([], [])
where
  param : Parser (Option String × List Expr) := do
    let attrs ← g.outerAttrs
    let own := attrExprs attrs
    if ← peek isLifetime then
      lifetime
      if ← punct? ":" then
        let _ ← separated "+" (fun ts => ts.isEmpty || isPunct "," ts || isPunct ">" ts) lifetime
      return (none, own)
    else if ← word? "const" then
      let _ ← ident
      punct ":"
      let t ← g.type true
      let default ← if ← punct? "=" then g.constArgument else pure []
      return (none, own ++ t.inner ++ default)
    else if ← word? "_" then return (some "_", own)
    else
      let name ← ident
      let stop (ts : List Token) : Bool :=
        ts.isEmpty || isPunct "," ts || isPunct ">" ts || isPunct "=" ts
      let bounds ← if ← punct? ":" then boundsUntil stop else pure []
      let default ← if ← punct? "=" then do pure (← g.type true).inner else pure []
      return (some name, own ++ bounds ++ default)
  boundsUntil (stop : List Token → Bool) : Parser (List Expr) := do
    if ← peek stop then return []
    let first ← g.anyBound true
    let others ← manyWhile (isPunct "+") (do
      punct "+"
      if ← peek stop then pure (true, []) else g.anyBound true)
    return first.2 ++ (others.map (·.2)).flatten

/-- Where bounds end. -/
def isBoundsEnd (ts : List Token) : Bool :=
  ts.isEmpty || isGroup .brace ts || isPunct "," ts || isPunct ";" ts ||
    (isPunct ":" ts && !isPunct "::" ts) || isPunct "=" ts

/-- The expressions inside a where clause, if there is one. -/
def whereClause : Parser (List Expr) := do
  if ← word? "where" then
    let rec predicates (n : Nat) : Parser (List Expr) := match n with
      | 0 => fun _ => none
      | n + 1 => do
        if ← peek isBoundsEnd then return []
        let inner ← predicate
        if ← punct? "," then return inner ++ (← predicates n) else return inner
    fun ts => predicates (ts.length + 1) ts
  else return []
where
  predicate : Parser (List Expr) := do
    if ← peek fun ts => isLifetime ts && isPunct ":" (skip ts) then
      lifetime
      punct ":"
      let stop (ts : List Token) : Bool :=
        ts.isEmpty || isGroup .brace ts || isPunct "," ts || isPunct ";" ts || isPunct ":" ts ||
          isPunct "=" ts
      if !(← peek stop) then
        lifetime
        let _ ← manyWhile (isPunct "+") (do
          punct "+"
          if !(← peek stop) then lifetime)
      return []
    else
      let bound ← binders g.binderParam
      let t ← g.type true
      punct ":"
      let bs ← generics.boundsUntil g isBoundsEnd
      return bound ++ t.inner ++ bs

end ServiceContract.Source.Grammar
