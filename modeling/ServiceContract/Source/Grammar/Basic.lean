import ServiceContract.Source.Cursor

/-! # The grammar

The parsers for types, expressions, patterns, statements and items need one another. Each takes
the others as a `Grammar`, so that it can be written, and reasoned about, on its own; the knot is
tied in one place, by depth.
-/

namespace ServiceContract.Source

open Tokens Source.Parser

/-- What a parsed type is, besides its shape. -/
inductive TypeKind
  /-- A path without a qualified self type. -/
  | named (path : Path)
  /-- A list of bounds without `dyn`, and whether it is a single one. -/
  | bounds (single : Bool)
  | other

/-- A parsed type with the expressions inside it. -/
structure TypeUse where
  shape : TypeExpr
  inner : List Expr := []
  kind : TypeKind := .other

/-- A parsed pattern with the expressions inside it. -/
structure PatUse where
  pattern : Pat := .other []
  inner : List Expr := []
  /-- The pattern is `..`. -/
  rest : Bool := false
  /-- The pattern is a range that is open at one end. -/
  halfOpen : Bool := false

instance : Inhabited TypeUse := ⟨⟨.unknown, [], .other⟩⟩
instance : Inhabited PatUse := ⟨{}⟩

/-- The parsers that the others are built from. -/
structure Grammar where
  /-- A type; the flag allows a sum of bounds. -/
  type : Bool → Parser TypeUse
  /-- An expression; the flag allows a record literal at its front. -/
  expr : Bool → Parser Expr
  /-- An expression that ends after a block, as statements and arms do. -/
  early : Parser Expr
  /-- An operand with its prefix operators; the flag allows a record literal. -/
  unary : Bool → Parser Expr
  /-- A pattern without alternatives. -/
  pat : Parser PatUse
  /-- The statements of a block, up to the last token. -/
  stmts : Parser Block
  /-- A declaration and the expressions inside it. -/
  item : Parser (Item × List Expr)

/-- The grammar that accepts nothing. -/
def Grammar.empty : Grammar where
  type := fun _ _ => none
  expr := fun _ _ => none
  early := fun _ => none
  unary := fun _ _ => none
  pat := fun _ => none
  stmts := fun _ => none
  item := fun _ => none

/-- The value expressions of attributes. -/
def attrExprs (attrs : List Attr) : List Expr :=
  attrs.filterMap fun a => match a.content with
    | .value e => some e
    | _ => none

/-- Whether a segment of an argument-free path comes next. -/
def isSegmentStart (ts : List Token) : Bool :=
  isIdent ts || isWord "super" ts || isWord "self" ts || isWord "Self" ts || isWord "crate" ts

/-- A path of identifiers and path roots without arguments. -/
def modPath : Parser Path := do
  let segment : Parser String := do guard isSegmentStart; anyIdent
  let rooted ← punct? "::"
  let first ← segment
  let others ← manyWhile (isPunct "::") (do punct "::"; segment)
  return { rooted, segments := first :: others }

/-- A path and the expressions inside its arguments. -/
structure PathUse where
  path : Path
  inner : List Expr := []
  /-- The last segment has no arguments. -/
  bare : Bool := true

/-- A label or nothing. -/
def label? : Parser Unit := do
  if ← peek isLifetime then
    lifetime
    punct ":"

namespace Grammar

variable (g : Grammar)

/-- Reads the content of a macro call as expressions between commas. -/
def macroArgs (content : List Token) : Option (List Expr) :=
  all (commaList (g.expr true)) content

/-- Reads the content of a macro call as entries `key => value` between commas. -/
def macroEntries (content : List Token) : Option (List (Expr × Expr)) :=
  all (commaList (do
    let key ← g.expr true
    punct "=>"
    let value ← g.expr true
    return (key, value))) content

/-- The arguments of a macro call whose path and mark have been read. -/
def macroRest (path : Path) : Parser MacroCall := do
  let (braced, content) ← anyGroup
  return .mk path braced (g.macroArgs content) (g.macroEntries content)

/-- What stands between the brackets of an attribute. -/
def attrBody : Parser Attr := do
  let path ← if ← peek (isWord "unsafe") then do
      word "unsafe"
      pure { segments := ["unsafe"] }
    else modPath
  if ← peek isAnyGroup then
    let (_, content) ← anyGroup
    return ⟨path, .list content⟩
  else if ← peek (isPunct "=") then
    punct "="
    let alone (ts : List Token) : Bool := (lit? ts).any fun (_, rest) => rest.isEmpty
    if ← peek alone then
      return ⟨path, .value (.lit (← lit))⟩
    else
      guard fun ts => !(isPunct "#" ts && isGroup .bracket (skip ts))
      return ⟨path, .value (← g.expr true)⟩
  else return ⟨path, .word⟩

/-- The attributes in front of something. -/
def outerAttrs : Parser (List Attr) :=
  manyWhile (isPunct "#") (do punct "#"; within .bracket g.attrBody)

/-- The attributes of what is around them. -/
def innerAttrs : Parser (List Attr) :=
  manyWhile (fun ts => isPunct "#" ts && isPunct "!" (skip ts))
    (do punct "#"; punct "!"; within .bracket g.attrBody)

/-- The statements of a block that may start with attributes. -/
def body : Parser (List Attr × Block) :=
  within .brace (do
    let attrs ← g.innerAttrs
    let stmts ← g.stmts
    return (attrs, stmts))

/-- A block without attributes. -/
def block : Parser Block := within .brace g.stmts

end Grammar

end ServiceContract.Source
