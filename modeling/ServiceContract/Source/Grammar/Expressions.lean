import ServiceContract.Source.Grammar.Patterns

/-! # The grammar of expressions

Operands with their prefixes and suffixes, joined by binary operators of ten levels. A comparison
cannot be chained, nothing can follow a range but its end, and a cast has to be put between
parentheses before a suffix.
-/

namespace ServiceContract.Source.Grammar

open Tokens Source.Parser

variable (g : Grammar)

/-- How tightly an operator binds. -/
inductive Level
  | jump | assign | range | or | and | letIn | compare | bitOr | bitXor | bitAnd | shift | sum
  | product | cast
  deriving DecidableEq, Repr

def Level.rank : Level → Nat
  | .jump => 0 | .assign => 1 | .range => 2 | .or => 3 | .and => 4 | .letIn => 5 | .compare => 6
  | .bitOr => 7 | .bitXor => 8 | .bitAnd => 9 | .shift => 10 | .sum => 11 | .product => 12
  | .cast => 13

/-- The binary operators with their levels, longer ones first. -/
def operators : List (String × BinaryOp × Level) :=
  [("+=", .other, .assign), ("-=", .other, .assign), ("*=", .other, .assign),
    ("/=", .other, .assign), ("%=", .other, .assign), ("^=", .other, .assign),
    ("&=", .other, .assign), ("|=", .other, .assign), ("<<=", .other, .assign),
    (">>=", .other, .assign), ("&&", .other, .and), ("||", .other, .or), ("<<", .other, .shift),
    (">>", .other, .shift), ("==", .compare, .compare), ("<=", .compare, .compare),
    ("!=", .compare, .compare), (">=", .compare, .compare), ("+", .add, .sum), ("-", .sub, .sum),
    ("*", .mul, .product), ("/", .div, .product), ("%", .other, .product), ("^", .other, .bitXor),
    ("&", .other, .bitAnd), ("|", .other, .bitOr), ("<", .compare, .compare),
    (">", .compare, .compare)]

/-- The binary operator that comes next. -/
def operator? (ts : List Token) : Option (String × BinaryOp × Level) :=
  operators.find? fun (w, _) => isPunct w ts

def isAssign (ts : List Token) : Bool := isPunct "=" ts && !isPunct "=>" ts

/-- The level of what comes next; `jump` when it joins nothing. -/
def nextLevel (ts : List Token) : Level :=
  match operator? ts with
  | some (_, _, l) => l
  | none =>
    if isAssign ts then .assign
    else if isPunct ".." ts then .range
    else if isWord "as" ts then .cast
    else .jump

/-- Whether an expression can start here. -/
def isExprStart (ts : List Token) : Bool :=
  (isAnyIdent ts && !isWord "as" ts) || isGroup .paren ts || isGroup .bracket ts ||
    isGroup .brace ts || isLit ts || (isPunct "!" ts && !isPunct "!=" ts) ||
    (isPunct "-" ts && !isPunct "-=" ts && !isPunct "->" ts) ||
    (isPunct "*" ts && !isPunct "*=" ts) || (isPunct "|" ts && !isPunct "|=" ts) ||
    (isPunct "&" ts && !isPunct "&=" ts) || isPunct ".." ts ||
    (isPunct "<" ts && !isPunct "<=" ts && !isPunct "<<=" ts) || isPunct "::" ts ||
    isLifetime ts || isPunct "#" ts

def isDot (ts : List Token) : Bool := isPunct "." ts && !isPunct ".." ts

def isRange : Expr → Bool
  | .range _ _ => true
  | _ => false

def isComparison : Expr → Bool
  | .binary .compare _ _ => true
  | _ => false

/-- The mark of a range expression: whether the upper end is required. -/
def rangeLimits : Parser Bool := do
  if ← punct? "..=" then return true
  else
    guard fun ts => !isPunct "..." ts
    punct ".."
    return false

/-- Where a range without an upper end stops. -/
def endsRange (record : Bool) (ts : List Token) : Bool :=
  ts.isEmpty || isPunct "," ts || isPunct ";" ts || isDot ts || isPunct "?" ts || isPunct "=>" ts ||
    (!record && isGroup .brace ts) || isPunct "=" ts || isPunct "+" ts || isPunct "/" ts ||
    isPunct "%" ts || isPunct "^" ts || isPunct ">" ts || isPunct "<=" ts || isPunct "!=" ts ||
    isPunct "-=" ts || isPunct "*=" ts || isPunct "&=" ts || isPunct "|=" ts || isPunct "<<=" ts ||
    isWord "as" ts

/-- No suffix can follow a cast. -/
def castEnds (ts : List Token) : Bool :=
  !(isDot ts || isPunct "?" ts || isGroup .bracket ts || isGroup .paren ts)

mutual

/-- Operators of level `base` and above after a left operand. The number bounds the operators
that are read. -/
def joined (record : Bool) : Nat → Level → Expr → Parser Expr
  | 0, _, _ => fun _ => none
  | n + 1, base, left => do
    if isRange left then return left
    let ts ← get
    match operator? ts with
    | some (w, op, level) =>
      if level.rank < base.rank then return left
      else if level = .compare && isComparison left then fun _ => none
      else
        punct w
        let right ← rightOperand record n level
        joined record n base (.binary op left right)
    | none =>
      if base.rank ≤ Level.assign.rank && isAssign ts then
        punct "="
        let right ← rightOperand record n .assign
        joined record n base (.assign left right)
      else if base.rank ≤ Level.range.rank && isPunct ".." ts then
        let closed ← rangeLimits
        let high ← rangeEnd record n closed
        joined record n base (.range (some left) high)
      else if base.rank ≤ Level.cast.rank && isWord "as" ts then
        word "as"
        let t ← g.type false
        guard castEnds
        joined record n base (.cast left t.shape t.inner)
      else return left

/-- The right operand of an operator of the given level. -/
def rightOperand (record : Bool) : Nat → Level → Parser Expr
  | 0, _ => fun _ => none
  | n + 1, level => do
    let first ← g.unary record
    extended record n level first

/-- An operand with the operators after it that bind tighter than the given level. -/
def extended (record : Bool) : Nat → Level → Expr → Parser Expr
  | 0, _, _ => fun _ => none
  | n + 1, level, right => do
    let ts ← get
    let next := nextLevel ts
    if level.rank < next.rank || (next = .assign && level = .assign) then
      let more ← joined record n next right
      let rest ← get
      if rest.length == ts.length then return more else extended record n level more
    else return right

/-- The upper end of a range. -/
def rangeEnd (record : Bool) : Nat → Bool → Parser (Option Expr)
  | 0, _ => fun _ => none
  | n + 1, closed => do
    if !closed && (← peek (endsRange record)) then return none
    else return some (← rightOperand record n .range)

end

/-- Operators after a left operand. -/
def afterOperand (record : Bool) (base : Level) (left : Expr) : Parser Expr := fun ts =>
  g.joined record (4 * ts.length + 8) base left ts

/-- An expression; `record` allows a record literal at its front. -/
def exprStep (record : Bool) : Parser Expr := do
  let left ← g.unary record
  g.afterOperand record .jump left

/-- Positions joined by points, as in a number literal that follows a point. -/
def positions (e : Expr) : List (List Char) → Option Expr
  | [] => some e
  | p :: ps =>
    match Lit.position? p with
    | some n => positions (.field e (Text.decimal n)) ps
    | none => none

/-- A number literal with a point in it, after a point: the expression with the positions taken,
and whether a member has to follow. -/
def floatPositions (e : Expr) : Parser (Option (Expr × Bool))
  | .literal s :: ts =>
    match Lit.ofText s with
    | .float _ =>
      let open_ := s.toList.getLast? == some '.'
      let text := if open_ then s.toList.dropLast else s.toList
      (positions e (Text.pieces (· == '.') text)).map fun e => (some (e, open_), ts)
    | _ => some (none, .literal s :: ts)
  | ts => some (none, ts)

/-- The member after a point: its name, and whether it is no position. -/
def member : Parser (String × Bool)
  | .literal s :: ts =>
    (Lit.position? s.toList).map fun n => ((Text.decimal n, false), ts)
  | .ident s :: ts => if keywords.contains s then none else some ((s, true), ts)
  | _ => none

/-- Calls, members, positions and marks after an operand. -/
def trailing : Nat → Expr → Parser Expr
  | 0, _ => fun _ => none
  | n + 1, e => do
    let ts ← get
    if isGroup .paren ts then
      let args ← within .paren (commaList (g.expr true))
      trailing n (.call e args)
    else if isDot ts && !isRange e then
      punct "."
      match ← floatPositions e with
      | some (e, false) => trailing n e
      | some (e, true) => memberOf n e
      | none => memberOf n e
    else if isGroup .bracket ts then
      let position ← within .bracket (g.expr true)
      trailing n (.index e position)
    else if isPunct "?" ts && !isRange e then
      punct "?"
      trailing n (.attempt e)
    else return e
where
  memberOf (n : Nat) (e : Expr) : Parser Expr := do
    if ← word? "await" then trailing n (.await e)
    else
      let (name, named) ← member
      if named && (← peek fun ts => isPunct "::" ts || isGroup .paren ts) then
        let (types, inner) ← if ← punct? "::" then g.angleArgs (g.anyBound true) else pure ([], [])
        let args ← within .paren (commaList (g.expr true))
        trailing n (.methodCall e name types inner args)
      else trailing n (.field e name)

def withTrailing (e : Expr) : Parser Expr := fun ts => g.trailing (ts.length + 1) e ts

/-- The fields of a record literal, and the expression that gives the others. -/
def recordFields : Nat → Parser (List (String × Expr) × Option Expr)
  | 0 => fun _ => none
  | n + 1 => do
    if ← peek List.isEmpty then return ([], none)
    else if ← punct? ".." then
      if ← peek List.isEmpty then return ([], none)
      else return ([], some (← g.expr true))
    else
      let _ ← g.outerAttrs
      let (name, named) ← member
      let value ← if ← peek fun ts => isPunct ":" ts || !named then do
          punct ":"
          g.expr true
        else pure (.path { segments := [name] } [])
      if ← peek List.isEmpty then return ([(name, value)], none)
      punct ","
      let (others, rest) ← recordFields n
      return ((name, value) :: others, rest)

/-- A path, a macro call or a record literal. -/
def pathExpr (record : Bool) : Parser Expr := do
  let (p, qualified) ← g.pathWithBounds true
  if !qualified && p.path.plain && (← peek fun ts => isPunct "!" ts && !isPunct "!=" ts) then
    punct "!"
    return .macroCall (← g.macroRest p.path)
  else if record && (← peek (isGroup .brace)) then
    let (fields, rest) ← within .brace (fun ts => g.recordFields (ts.length + 1) ts)
    return .record p.path p.inner fields rest
  else return .path p.path p.inner

/-- An expression between parentheses, or a tuple. -/
def parenExpr : Parser Expr := do
  let content ← group .paren
  if content.isEmpty then return .tuple []
  else
    match g.expr true content with
    | none => fun _ => none
    | some (first, []) => return .paren first
    | some (first, rest) =>
      match all (do punct ","; commaList (g.expr true)) rest with
      | some others => return .tuple (first :: others)
      | none => fun _ => none

/-- An array, of listed items or of one item repeated. -/
def arrayExpr : Parser Expr := do
  let content ← group .bracket
  if content.isEmpty then return .array []
  else
    match g.expr true content with
    | none => fun _ => none
    | some (first, []) => return .array [first]
    | some (first, rest) =>
      match all (do punct ","; commaList (g.expr true)) rest with
      | some others => return .array (first :: others)
      | none =>
        match all (do punct ";"; g.expr true) rest with
        | some count => return .repeated first count
        | none => fun _ => none

/-- A parameter of a closure. -/
def closureParam : Parser PatUse := do
  let attrs ← g.outerAttrs
  let p ← g.pat
  let t ← if ← punct? ":" then do pure (← g.type true).inner else pure []
  return { p with inner := attrExprs attrs ++ p.inner ++ t }

def closure (record : Bool) : Parser Expr := do
  let bound ← binders g.binderParam
  let _ ← word? "const"
  let _ ← word? "static"
  let _ ← word? "async"
  let _ ← word? "move"
  punct "|"
  let params ← separated "," (isPunct "|") g.closureParam
  punct "|"
  if ← peek (isPunct "->") then
    punct "->"
    let t ← g.type true
    let stmts ← g.block
    return .closure (namesOf params) (bound ++ innerOf params ++ t.inner) (.block stmts)
  else
    let body ← g.expr record
    return .closure (namesOf params) (bound ++ innerOf params) body

/-- Conditions and branches. The number bounds the `else if`s. -/
def ifExpr : Nat → Parser Expr
  | 0 => fun _ => none
  | n + 1 => do
    word "if"
    let condition ← g.expr false
    let stmts ← g.block
    if ← word? "else" then
      if ← peek (isWord "if") then return .ifThen condition stmts (some (← ifExpr n))
      else return .ifThen condition stmts (some (.block (← g.block)))
    else return .ifThen condition stmts none

/-- Expressions that need no comma after them as the body of an arm. -/
def isBlockLike : Expr → Bool
  | .ifThen _ _ _ => true
  | .matchOn _ _ => true
  | .block _ => true
  | .uncheckedBlock _ => true
  | .whileLoop _ _ => true
  | .loop _ => true
  | .forLoop _ _ _ _ => true
  | .tryBlock _ => true
  | .constBlock _ => true
  | _ => false

def arm : Parser Arm := do
  let attrs ← g.outerAttrs
  let p ← g.alternatives
  let condition ← if ← word? "if" then do pure (some (← g.expr true)) else pure none
  punct "=>"
  let result ← g.early
  if !isBlockLike result && !(← peek List.isEmpty) then punct ","
  else
    let _ ← punct? ","
  return .mk p.pattern.names (attrExprs attrs ++ p.inner) condition result

def matchExpr : Parser Expr := do
  word "match"
  let e ← g.expr false
  let arms ← within .brace (do
    let _ ← g.innerAttrs
    many g.arm)
  return .matchOn e arms

def whileExpr : Parser Expr := do
  word "while"
  let condition ← g.expr false
  let (_, stmts) ← g.body
  return .whileLoop condition stmts

def forExpr : Parser Expr := do
  word "for"
  let p ← g.alternatives
  word "in"
  let e ← g.expr false
  let (_, stmts) ← g.body
  return .forLoop p.pattern.names p.inner e stmts

def loopExpr : Parser Expr := do
  word "loop"
  let (_, stmts) ← g.body
  return .loop stmts

/-- A loop or block after its label. -/
def labeled : Parser Expr := do
  label?
  if ← peek (isWord "while") then g.whileExpr
  else if ← peek (isWord "for") then g.forExpr
  else if ← peek (isWord "loop") then g.loopExpr
  else
    let (_, stmts) ← g.body
    return .block stmts

def breakExpr (record : Bool) : Parser Expr := do
  word "break"
  guard fun ts => !(isLifetime ts && isPunct ":" (skip ts))
  if ← peek isLifetime then lifetime
  if ← peek fun ts => isExprStart ts && (record || !isGroup .brace ts) then
    return .breaks (some (← g.expr record))
  else return .breaks none

/-- Whether generics rather than a qualified path come next. -/
def isGenericsStart (ts : List Token) : Bool :=
  let second := skip ts
  let third := skip second
  isPunct "<" ts &&
    (isPunct ">" second || isPunct "#" second ||
      ((isLifetime second || isIdent second) &&
        (isPunct ">" third || isPunct "," third || (isPunct ":" third && !isPunct "::" third) ||
          isPunct "=" third)) ||
      isWord "const" second)

/-- An operand without prefixes and suffixes. -/
def atom (record : Bool) : Parser Expr := do
  let ts ← get
  let second := skip ts
  let third := skip second
  if isLit ts then return .lit (← lit)
  else if isWord "async" ts &&
      (isGroup .brace second || (isWord "move" second && isGroup .brace third)) then
    word "async"
    let _ ← word? "move"
    return .asyncBlock (← g.block)
  else if isWord "try" ts && isGroup .brace second then
    word "try"
    return .tryBlock (← g.block)
  else if isPunct "|" ts || isWord "move" ts || (isWord "for" ts && isGenericsStart second) ||
      (isWord "const" ts && !isGroup .brace second) || isWord "static" ts ||
      (isWord "async" ts && (isPunct "|" second || isWord "move" second)) then
    g.closure record
  else if isWord "builtin" ts && isPunct "#" second then
    let _ ← anyIdent
    punct "#"
    let _ ← ident
    let _ ← group .paren
    return .other
  else if isSegmentStart ts || isPunct "::" ts || isPunct "<" ts ||
      (isWord "try" ts && (isPunct "!" second || isPunct "::" second)) then
    g.pathExpr record
  else if isGroup .paren ts then g.parenExpr
  else if isWord "break" ts then g.breakExpr record
  else if isWord "continue" ts then
    word "continue"
    if ← peek isLifetime then lifetime
    return .other
  else if isWord "return" ts then
    word "return"
    if ← peek isExprStart then return .returns (some (← g.expr record))
    else return .returns none
  else if isWord "become" ts then
    word "become"
    let _ ← g.expr true
    return .other
  else if isGroup .bracket ts then g.arrayExpr
  else if isWord "let" ts then
    word "let"
    let p ← g.alternatives
    punct "="
    let left ← g.unary record
    let e ← g.afterOperand record .compare left
    return .letCond p.pattern.names p.inner e
  else if isWord "if" ts then g.ifExpr (ts.length + 1)
  else if isWord "while" ts then g.whileExpr
  else if isWord "for" ts then g.forExpr
  else if isWord "loop" ts then g.loopExpr
  else if isWord "match" ts then g.matchExpr
  else if isWord "yield" ts then
    word "yield"
    if ← peek isExprStart then return .yields (some (← g.expr true))
    else return .yields none
  else if isWord "unsafe" ts then
    word "unsafe"
    let (_, stmts) ← g.body
    return .uncheckedBlock stmts
  else if isWord "const" ts then
    word "const"
    let (_, stmts) ← g.body
    return .constBlock stmts
  else if isGroup .brace ts then
    let (_, stmts) ← g.body
    return .block stmts
  else if isPunct ".." ts then
    let closed ← rangeLimits
    let high ← fun ts => g.rangeEnd record (4 * ts.length + 8) closed ts
    return .range none high
  else if isWord "_" ts then
    word "_"
    return .other
  else
    guard isLifetime
    g.labeled

/-- An operand with its prefixes and suffixes. -/
def unaryStep (record : Bool) : Parser Expr := do
  let attrs ← g.outerAttrs
  if ← punct? "&" then
    let rawNext (ts : List Token) : Bool :=
      isWord "raw" ts && (isWord "mut" (skip ts) || isWord "const" (skip ts))
    if ← peek rawNext then
      let _ ← anyIdent
      let _ ← anyIdent
      return .rawAddress (← g.unary record)
    else
      let _ ← word? "mut"
      return .ref (← g.unary record)
  else if ← punct? "*" then return .unary .deref (← g.unary record)
  else if ← punct? "!" then return .unary .not (← g.unary record)
  else if ← punct? "-" then return .unary .neg (← g.unary record)
  else
    let e ← g.atom record
    let e ← g.withTrailing e
    guard fun _ => attrs.isEmpty || !isRange e
    return e

/-- An expression that ends after a block unless a member or a mark follows. -/
def earlyStep : Parser Expr := do
  let _ ← g.outerAttrs
  let ts ← get
  let blockNext :=
    isWord "if" ts || isWord "while" ts || (isWord "for" ts && !isGenericsStart (skip ts)) ||
      isWord "loop" ts || isWord "match" ts || (isWord "try" ts && isGroup .brace (skip ts)) ||
      isWord "unsafe" ts || (isWord "const" ts && isGroup .brace (skip ts)) ||
      isGroup .brace ts || isLifetime ts
  if blockNext then
    let e ← g.atom true
    if ← peek fun ts => isDot ts || isPunct "?" ts then
      let e ← g.withTrailing e
      g.afterOperand true .jump e
    else return e
  else
    let left ← g.unary true
    g.afterOperand true .jump left

end ServiceContract.Source.Grammar
