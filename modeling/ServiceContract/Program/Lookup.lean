import ServiceContract.Program.Basic

/-! # Looking up declarations

A name is looked up by the last segment of its path. The segments before it narrow the modules
the declaration may stand in, and of several candidates the closest to the asking module is
meant.
-/

namespace ServiceContract.Program

open Source

variable (p : Program)

/-- The declared type that a written path means in a module. -/
def findType (path : TypePath) (module : List String) : Option TypeDecl :=
  resolveType p.types path module

def findTypeByName (name : String) (module : List String) : Option TypeDecl :=
  p.findType (.named name) module

/-- The struct declared under a name in exactly this module. -/
def findStruct (module : List String) (name : String) : Option (Declared StructItem) :=
  p.structs.find? fun d => d.module == module && d.item.name == name

/-- The function with a key. -/
def function (key : String) : Option FnDecl := p.fns.find? fun f => f.key == key

/-- The methods of the type with a qualified name. -/
def methodsOf (owner : String) : List FnDecl :=
  p.fns.filter fun f => f.owner == some owner

/-- A method of the type with a qualified name. -/
def ownedMethod (owner name : String) : Option FnDecl :=
  (p.methodsOf owner).find? fun f => f.name == name

/-- A method that has no parameter besides its receiver. -/
def zeroArgMethod (owner name : String) : Option FnDecl :=
  (p.methodsOf owner).find? fun f => f.name == name && f.arity == 0

/-- The path segments that narrow a lookup. -/
def narrowing (segments : List String) : List String :=
  segments.filter fun s => !pathRoots.contains s

/-- A method of the type that a written path means in a module. The type need not be declared:
implementation blocks of other types are found by the name they are written with. -/
def methodByPath (path : TypePath) (module : List String) (name : String) : Option FnDecl :=
  match p.findType path module with
  | some d => p.ownedMethod d.qualifiedName name
  | none =>
    pickClosest FnDecl.module module <| p.fns.filter fun f =>
      f.selfType == some path.name && f.name == name && moduleMatches f.module path.qualifier

/-- The free function that a path means in a module. -/
def freeFn (segments module : List String) : Option FnDecl :=
  match segments.getLast? with
  | none => none
  | some name =>
    pickClosest FnDecl.module module <| p.fns.filter fun f =>
      f.selfType.isNone && f.name == name &&
        moduleMatches f.module (narrowing segments.dropLast)

/-- Whether a name begins with a capital letter of the alphabet. -/
def startsUppercase (name : String) : Bool := name.toList.head?.any Char.isUpper

/-- The function that a called path means in a module: `f`, `module::f`, `Type::f`, or `Self::f`
in an implementation block of the type named by `owner`. -/
def resolveCall (segments module : List String) (owner : Option String) : Option FnDecl :=
  match segments.reverse with
  | [] => none
  | [name] => p.freeFn [name] module
  | name :: type :: outer =>
    if type == "Self" && outer.isEmpty then owner.bind fun o => p.ownedMethod o name
    else if startsUppercase type then
      p.methodByPath ⟨(type :: outer).reverse, []⟩ module name
    else p.freeFn segments module

/-- The method with this name, if only one type has such a method. -/
def uniqueMethod (name : String) : Option FnDecl :=
  match p.fns.filter fun f => f.selfType.isSome && f.name == name with
  | [f] => some f
  | _ => none

/-- The constant that a path means in a module: an associated constant of the type named before
it, or else a constant of a module. -/
def findConst (segments module : List String) : Option ConstDecl :=
  match segments.getLast? with
  | none => none
  | some name =>
    let qualifier := segments.dropLast
    let associated := qualifier.getLast?.bind fun owner =>
      p.consts.find? fun c => c.name == name && c.selfType == some owner
    match associated with
    | some c => some c
    | none =>
      pickClosest ConstDecl.module module <| p.consts.filter fun c =>
        c.selfType.isNone && c.name == name && moduleMatches c.module (narrowing qualifier)

/-- The constants whose written type has a name, or is `Self` in an implementation of it. -/
def constsOfType (name : String) : List ConstDecl :=
  p.consts.filter fun c => match c.item.type.name? with
    | some "Self" => c.selfType == some name
    | some n => n == name
    | none => false

end ServiceContract.Program
