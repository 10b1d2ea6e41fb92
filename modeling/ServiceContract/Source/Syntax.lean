import ServiceContract.Source.Literal
import ServiceContract.Source.TypeExpr

/-! # Syntax trees

The trees that source texts are read into. Expressions are kept whole. A type keeps its shape, a
pattern the names it binds, and an item inside a function nothing but its expressions; the
expressions that stand inside them (array lengths, constant arguments, paths in patterns, bodies
of inner functions) are listed in source order as `inner`. A macro call keeps its arguments read
as expressions and as `key => value` entries, whenever they can be read so.
-/

namespace ServiceContract.Source

/-- A path: its segments and the type arguments of the last one. -/
structure Path where
  /-- The path starts with `::`. -/
  rooted : Bool := false
  segments : List String
  args : List TypeExpr := []
  /-- No segment has arguments. -/
  plain : Bool := true
  deriving Repr, Inhabited

namespace Path

/-- The only segment of a path that is one bare identifier. -/
def ident? (p : Path) : Option String :=
  match p.rooted, p.plain, p.segments with
  | false, true, [s] => some s
  | _, _, _ => none

def isIdent (name : String) (p : Path) : Bool := p.ident? == some name

def last? (p : Path) : Option String := p.segments.getLast?

def toTypePath (p : Path) : TypePath := ⟨p.segments, p.args⟩

end Path

inductive UnaryOp
  | neg
  | not
  | deref
  deriving DecidableEq, Repr

inductive BinaryOp
  | add | sub | mul | div
  | compare
  | other
  deriving DecidableEq, Repr

/-- The names that a pattern binds. -/
inductive Pat
  /-- The whole value gets a name. -/
  | name (ident : String)
  /-- The whole value gets a name, and its parts get others. -/
  | named (ident : String) (parts : List String)
  | typed (pattern : Pat)
  /-- Parts of the value get names, if anything. -/
  | other (parts : List String)
  deriving DecidableEq, Repr

namespace Pat

instance : Inhabited Pat := ⟨.other []⟩

/-- The name of the whole value. -/
def whole? : Pat → Option String
  | name n | named n _ => some n
  | typed pattern => whole? pattern
  | other _ => none

/-- The names of parts of the value. -/
def parts : Pat → List String
  | name _ => []
  | named _ ns | other ns => ns
  | typed pattern => parts pattern

/-- All names. -/
def names (pattern : Pat) : List String := pattern.whole?.toList ++ pattern.parts

end Pat

mutual

/-- An expression. -/
inductive Expr
  | lit (value : Lit)
  | path (path : Path) (inner : List Expr)
  | paren (e : Expr)
  | ref (e : Expr)
  | rawAddress (e : Expr)
  | unary (op : UnaryOp) (e : Expr)
  | binary (op : BinaryOp) (left right : Expr)
  | assign (left right : Expr)
  | cast (e : Expr) (type : TypeExpr) (inner : List Expr)
  | call (function : Expr) (args : List Expr)
  | methodCall (receiver : Expr) (method : String) (types : List TypeExpr) (inner : List Expr)
      (args : List Expr)
  | field (e : Expr) (member : String)
  | index (e position : Expr)
  | attempt (e : Expr)
  | await (e : Expr)
  | macroCall (call : MacroCall)
  | record (path : Path) (inner : List Expr) (fields : List (String × Expr)) (rest : Option Expr)
  | tuple (items : List Expr)
  | array (items : List Expr)
  | repeated (item count : Expr)
  | range (low high : Option Expr)
  | block (body : List Stmt)
  | uncheckedBlock (body : List Stmt)
  | constBlock (body : List Stmt)
  | asyncBlock (body : List Stmt)
  | tryBlock (body : List Stmt)
  | ifThen (condition : Expr) (body : List Stmt) (otherwise : Option Expr)
  | matchOn (e : Expr) (arms : List Arm)
  | whileLoop (condition : Expr) (body : List Stmt)
  | forLoop (names : List String) (inner : List Expr) (e : Expr) (body : List Stmt)
  | loop (body : List Stmt)
  | letCond (names : List String) (inner : List Expr) (e : Expr)
  | closure (names : List String) (inner : List Expr) (body : Expr)
  | returns (e : Option Expr)
  | breaks (e : Option Expr)
  | yields (e : Option Expr)
  | other

/-- A macro call; `braced` tells whether its arguments stand between braces. -/
inductive MacroCall
  | mk (path : Path) (braced : Bool) (args : Option (List Expr))
      (entries : Option (List (Expr × Expr)))

/-- An arm of a match, with the names and the expressions of its pattern and its guard. -/
inductive Arm
  | mk (names : List String) (inner : List Expr) (guard : Option Expr) (body : Expr)

/-- A statement. -/
inductive Stmt
  | binding (pattern : Pat) (inner : List Expr) (value : Option Expr)
      (otherwise : Option (List Stmt))
  | expr (attributes : List Expr) (e : Expr) (terminated : Bool)
  | macroCall (call : MacroCall)
  | item (inner : List Expr)

end

instance : Inhabited Expr := ⟨.other⟩

/-- The statements of a block. -/
abbrev Block := List Stmt

namespace MacroCall

def path : MacroCall → Path
  | mk p _ _ _ => p

def braced : MacroCall → Bool
  | mk _ b _ _ => b

def args : MacroCall → Option (List Expr)
  | mk _ _ as _ => as

def entries : MacroCall → Option (List (Expr × Expr))
  | mk _ _ _ es => es

/-- The last segment of the path of a macro. -/
def name? (m : MacroCall) : Option String := m.path.last?

end MacroCall

/-- What an attribute says besides its path. -/
inductive Meta
  | word
  | list (tokens : List Token)
  | value (e : Expr)

/-- An attribute. -/
structure Attr where
  path : Path
  content : Meta

/-- A field of a struct or variant. -/
structure Field where
  attrs : List Attr
  exported : Bool
  name : Option String
  type : TypeExpr

/-- The fields of a struct or variant. -/
inductive Fields
  | unit
  | unnamed (fields : List Field)
  | named (fields : List Field)

def Fields.isUnit : Fields → Bool
  | .unit => true
  | _ => false

def Fields.toList : Fields → List Field
  | .unit => []
  | .unnamed fields => fields
  | .named fields => fields

/-- A struct declaration. -/
structure StructItem where
  attrs : List Attr
  name : String
  typeParams : List String
  fields : Fields

/-- A variant of an enum. -/
structure Variant where
  attrs : List Attr
  name : String
  fields : Fields
  discriminant : Option Expr

/-- An enum declaration. -/
structure EnumItem where
  attrs : List Attr
  name : String
  typeParams : List String
  variants : List Variant

/-- A type alias. -/
structure AliasItem where
  attrs : List Attr
  name : String
  typeParams : List String
  target : TypeExpr

/-- A constant, of a module or of a type. -/
structure ConstItem where
  attrs : List Attr
  name : String
  type : TypeExpr
  value : Expr

/-- A static. -/
structure StaticItem where
  name : String
  value : Expr

/-- A parameter of a function; a parameter that is no receiver may have a name. -/
inductive Param
  | receiver
  | typed (name : Option String)
  deriving DecidableEq, Repr

/-- A function or method with a body. -/
structure FnItem where
  attrs : List Attr
  name : String
  params : List Param
  output : Option TypeExpr
  body : Block
  /-- The names of parts of parameters. -/
  paramParts : List String := []

/-- A member of an implementation block. -/
inductive Member
  | fn (item : FnItem)
  | const (item : ConstItem)

/-- A declaration. -/
inductive Item
  | fn (item : FnItem)
  | struct (item : StructItem)
  | enum (item : EnumItem)
  | typeAlias (item : AliasItem)
  | const (item : ConstItem)
  | static (item : StaticItem)
  | impl (target : TypeExpr) (members : List Member)
  | module (name : String) (items : Option (List Item))
  | other

instance : Inhabited Item := ⟨.other⟩

end ServiceContract.Source
