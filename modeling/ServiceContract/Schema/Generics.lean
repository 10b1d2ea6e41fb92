import ServiceContract.Program.Lookup
import ServiceContract.Schema.Library
import ServiceContract.Text.WordCase

/-! # Generic types

A use of a generic declaration is its name with the arguments, which are written with the full
paths of declared types, so that they mean the same everywhere. Type parameters are replaced by
the arguments before a type is expanded.
-/

namespace ServiceContract

/-- The arguments of type parameters. -/
abbrev Substitution := List (String × TypeExpr)

namespace Substitution

/-- The parameters of a declaration with their arguments; the last one of a name counts. -/
def ofArgs (params : List String) (args : List TypeExpr) : Substitution :=
  (params.zip args).reverse

mutual

/-- The type with arguments in place of parameters. -/
def apply (σ : Substitution) : TypeExpr → TypeExpr
  | .path [name] [] => (σ.lookup name).getD (.path [name] [])
  | .path segments args => .path segments (applyAll σ args)
  | .ref t => .ref (apply σ t)
  | .slice t => .slice (apply σ t)
  | .array t n => .array (apply σ t) n
  | .tuple ts => .tuple (applyAll σ ts)
  | t => t

def applyAll (σ : Substitution) : List TypeExpr → List TypeExpr
  | [] => []
  | t :: ts => apply σ t :: applyAll σ ts

end

end Substitution

namespace TypeExpr

/-- Pointers that a label does not mention. -/
def pointers : List String := ["Box", "Rc", "Arc"]

mutual

/-- The label of an argument in the name of a component. -/
def label : TypeExpr → String
  | .path segments [] => WordCase.upperCamel (segments.getLast?.getD "")
  | .path segments (a :: as) =>
    if pointers.contains (segments.getLast?.getD "") then a.label
    else WordCase.upperCamel (segments.getLast?.getD "") ++ (a.label ++ labels as)
  | .ref t => t.label
  | .slice t | .array t _ => t.label ++ "List"
  | .tuple (t :: ts) => t.label ++ labels ts
  | .tuple [] | .dynamic | .unknown => "Any"

def labels : List TypeExpr → String
  | [] => ""
  | t :: ts => t.label ++ labels ts

end

mutual

/-- The number of parts of a type. -/
def size : TypeExpr → Nat
  | .path _ args => sizes args + 1
  | .ref t | .slice t | .array t _ => t.size + 1
  | .tuple ts => sizes ts + 1
  | .dynamic | .unknown => 1

def sizes : List TypeExpr → Nat
  | [] => 0
  | t :: ts => t.size + sizes ts

end

end TypeExpr

namespace Program

/-- The full path of the declared type that a path means in a module, or the path itself. -/
def fullPath (p : Program) (path : TypePath) (module : List String) : List String :=
  match p.findType path module with
  | some d =>
    if (Schema.ofPrimitive? path.name).isNone then "crate" :: d.module ++ [d.name]
    else path.segments
  | none => path.segments

mutual

/-- The type with full paths for declared types. -/
def canonical (p : Program) (module : List String) : TypeExpr → TypeExpr
  | .path segments args =>
    .path (p.fullPath ⟨segments, args⟩ module) (p.canonicalAll module args)
  | .ref t => .ref (p.canonical module t)
  | .slice t => .slice (p.canonical module t)
  | .array t n => .array (p.canonical module t) n
  | .tuple ts => .tuple (p.canonicalAll module ts)
  | t => t

def canonicalAll (p : Program) (module : List String) : List TypeExpr → List TypeExpr
  | [] => []
  | t :: ts => p.canonical module t :: p.canonicalAll module ts

end

/-- The types that are written in a declaration. -/
def writtenTypes : TypeDecl → List TypeExpr
  | .struct d => d.item.fields.toList.map (·.type)
  | .enum d => d.item.variants.flatMap fun v => v.fields.toList.map (·.type)
  | .typeAlias d => [d.item.target]

/-- The number of parts of all types in declarations. -/
def typeSize (p : Program) : Nat := TypeExpr.sizes (p.types.flatMap writtenTypes)

end Program

namespace TypeDecl

/-- The substitution that a use of the declaration with these arguments makes. -/
def substitution (d : TypeDecl) (args : List TypeExpr) : Substitution :=
  .ofArgs d.typeParams args

/-- The key of a use of the declaration with these arguments. -/
def key (d : TypeDecl) (args : List TypeExpr) : String :=
  if args.isEmpty then d.qualifiedName
  else d.qualifiedName ++ "<" ++ Text.join ", " (args.map TypeExpr.text) ++ ">"

/-- The name of the component of such a use, as long as it is free. -/
def componentName (d : TypeDecl) (args : List TypeExpr) : String :=
  d.name ++ TypeExpr.labels args

end TypeDecl

end ServiceContract
