import ServiceContract.Program.Attribute

/-! # Programs

A program is the table of the declarations in its source files, in source order, each with the
module it stands in. Inline modules are entered at any depth. A method belongs to the type that
its implementation block names, resolved from the module of the block.
-/

namespace ServiceContract

open Source

/-- A declaration and the module it stands in. -/
structure Declared (α : Type) where
  module : List String
  item : α

/-- The name of a declaration with its module in front. -/
def qualify (module : List String) (name : String) : String :=
  if module.isEmpty then name else Text.join "::" module ++ "::" ++ name

theorem qualify_eq_join (module : List String) (name : String) :
    qualify module name = Text.join "::" (module ++ [name]) := by
  unfold qualify Text.join
  cases module with
  | nil => simp
  | cons m ms =>
    rw [String.intercalate_append_of_ne_nil (by simp) (by simp), String.intercalate_singleton]
    rfl

/-- A declared type. -/
inductive TypeDecl
  | struct (decl : Declared StructItem)
  | enum (decl : Declared EnumItem)
  | typeAlias (decl : Declared AliasItem)

namespace TypeDecl

def name : TypeDecl → String
  | struct d => d.item.name
  | enum d => d.item.name
  | typeAlias d => d.item.name

def module : TypeDecl → List String
  | struct d => d.module
  | enum d => d.module
  | typeAlias d => d.module

def attrs : TypeDecl → List Attr
  | struct d => d.item.attrs
  | enum d => d.item.attrs
  | typeAlias d => d.item.attrs

/-- The names of the type parameters in declaration order. -/
def typeParams : TypeDecl → List String
  | struct d => d.item.typeParams
  | enum d => d.item.typeParams
  | typeAlias d => d.item.typeParams

def qualifiedName (d : TypeDecl) : String := qualify d.module d.name

end TypeDecl

/-- A free function, or a method of an implementation block. -/
structure FnDecl where
  /-- Module, self type and name, joined. -/
  key : String
  module : List String
  /-- The name of the self type of a method, as written. -/
  selfType : Option String
  /-- The qualified name of the type that a method belongs to. -/
  owner : Option String
  item : FnItem

namespace FnDecl

def name (f : FnDecl) : String := f.item.name

def body (f : FnDecl) : Block := f.item.body

/-- The names bound by the parameters besides the receiver. -/
def paramNames (f : FnDecl) : List (Option String) :=
  f.item.params.filterMap fun p => match p with
    | .receiver => none
    | .typed name => some name

/-- The number of parameters besides the receiver. -/
def arity (f : FnDecl) : Nat := f.paramNames.length

/-- The position of a named parameter, the receiver not counted. -/
def paramIndex? (f : FnDecl) (name : String) : Option Nat :=
  f.paramNames.findIdx? (· == some name)

/-- The name of the parameter at a position, the receiver not counted. -/
def paramName? (f : FnDecl) (position : Nat) : Option String :=
  (f.paramNames[position]?).join

def returnType (f : FnDecl) : TypeExpr := f.item.output.getD .unit

end FnDecl

/-- A constant of a module or of a type. -/
structure ConstDecl where
  module : List String
  /-- The name of the self type of an associated constant, as written. -/
  selfType : Option String
  item : ConstItem

namespace ConstDecl

def name (c : ConstDecl) : String := c.item.name

end ConstDecl

/-- The declarations of a program. -/
structure Program where
  structs : List (Declared StructItem) := []
  enums : List (Declared EnumItem) := []
  aliases : List (Declared AliasItem) := []
  consts : List ConstDecl := []
  statics : List (Declared StaticItem) := []
  fns : List FnDecl := []

/-- Whether a module path ends in a written qualifier. -/
def moduleMatches (module qualifier : List String) : Bool :=
  qualifier.reverse.isPrefixOf module.reverse

/-- The number of names that two module paths share from the start. -/
def sharedLength : List String → List String → Nat
  | a :: as, b :: bs => if a = b then sharedLength as bs + 1 else 0
  | _, _ => 0

/-- The first of the elements with the greatest score. -/
def firstMax {α : Type} (score : α → Nat) : List α → Option α
  | [] => none
  | a :: as =>
    match firstMax score as with
    | none => some a
    | some b => if score a < score b then some b else some a

/-- The candidate in the module itself, or the one whose module shares most with it; of several,
the first. -/
def pickClosest {α : Type} (moduleOf : α → List String) (module : List String)
    (candidates : List α) : Option α :=
  match candidates.find? fun c => moduleOf c == module with
  | some c => some c
  | none => firstMax (fun c => sharedLength (moduleOf c) module) candidates

/-- The declared type that a written path means in a module. -/
def resolveType (types : List TypeDecl) (path : TypePath) (module : List String) :
    Option TypeDecl :=
  pickClosest TypeDecl.module module
    (types.filter fun d => d.name == path.name && moduleMatches d.module path.qualifier)

namespace Program

mutual

/-- The declarations of an item, with those of the modules inside it. -/
def located (module : List String) : Item → List (Declared Item)
  | .module name (some items) => locatedAll (module ++ [name]) items
  | item => [⟨module, item⟩]

def locatedAll (module : List String) : List Item → List (Declared Item)
  | [] => []
  | item :: items => located module item ++ locatedAll module items

end

def structsOf : Declared Item → Option (Declared StructItem)
  | ⟨module, .struct s⟩ => some ⟨module, s⟩
  | _ => none

def enumsOf : Declared Item → Option (Declared EnumItem)
  | ⟨module, .enum e⟩ => some ⟨module, e⟩
  | _ => none

def aliasesOf : Declared Item → Option (Declared AliasItem)
  | ⟨module, .typeAlias a⟩ => some ⟨module, a⟩
  | _ => none

def staticsOf : Declared Item → Option (Declared StaticItem)
  | ⟨module, .static s⟩ => some ⟨module, s⟩
  | _ => none

/-- The constants of an item: of the module, or of the type of an implementation block. -/
def constsOf : Declared Item → List ConstDecl
  | ⟨module, .const c⟩ => [⟨module, none, c⟩]
  | ⟨module, .impl target members⟩ =>
    match target.name? with
    | none => []
    | some name => members.filterMap fun m => match m with
      | .const c => some ⟨module, some name, c⟩
      | .fn _ => none
  | _ => []

/-- The qualified name of the type that an implementation block belongs to. -/
def ownerName (types : List TypeDecl) (module : List String) (target : TypePath) : String :=
  match resolveType types target module with
  | some d => d.qualifiedName
  | none => qualify module target.name

/-- The functions of an item; only blocks of named types have methods. -/
def fnsOf (types : List TypeDecl) : Declared Item → List FnDecl
  | ⟨module, .fn f⟩ => [⟨qualify module f.name, module, none, none, f⟩]
  | ⟨module, .impl target members⟩ =>
    match target.asPath? with
    | none => []
    | some path => members.filterMap fun m => match m with
      | .fn f => some
          { key := qualify module path.name ++ "::" ++ f.name
            module
            selfType := some path.name
            owner := some (ownerName types module path)
            item := f }
      | .const _ => none
  | _ => []

/-- The declared types: structs, then enums, then aliases. -/
def types (p : Program) : List TypeDecl :=
  p.structs.map .struct ++ p.enums.map .enum ++ p.aliases.map .typeAlias

/-- The program of these declarations. -/
def ofDeclared (ds : List (Declared Item)) : Program :=
  let p : Program :=
    { structs := ds.filterMap structsOf
      enums := ds.filterMap enumsOf
      aliases := ds.filterMap aliasesOf
      consts := ds.flatMap constsOf
      statics := ds.filterMap staticsOf }
  { p with fns := ds.flatMap (fnsOf p.types) }

end Program

end ServiceContract
