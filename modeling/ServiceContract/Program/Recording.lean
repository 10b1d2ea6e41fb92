import ServiceContract.Program.Basic
import ServiceContract.Program.SourceFile

/-! # Recording programs

The declarations of source files are recorded in one walk, in source order. Which type a method
belongs to can be told only when all types are known. So the walk keeps the type that the block of
a method is written for, under the position of the method among the functions, and the owners are
entered after the walk.
-/

namespace ServiceContract

open Source

/-- A method of a block that is written for a type, before its owner is told. -/
def FnDecl.method (module : List String) (target : TypePath) (f : FnItem) : FnDecl where
  key := qualify module target.name ++ "::" ++ f.name
  module
  selfType := some target.name
  owner := none
  item := f

/-- A program that is being recorded. Its functions have no owners yet. -/
structure Recording where
  program : Program := {}
  /-- The positions of the methods, each with the type that its block is written for. -/
  targets : List (Nat × TypePath) := []

namespace Recording

def addFn (r : Recording) (f : FnDecl) : Recording :=
  { r with program.fns := r.program.fns ++ [f] }

def addMethod (r : Recording) (target : TypePath) (f : FnDecl) : Recording :=
  { r.addFn f with targets := r.targets ++ [(r.program.fns.length, target)] }

def addConst (r : Recording) (c : ConstDecl) : Recording :=
  { r with program.consts := r.program.consts ++ [c] }

/-- Records a member of an implementation block of a named type. -/
def member (module : List String) (target : TypePath) (r : Recording) : Member → Recording
  | .fn f => r.addMethod target (.method module target f)
  | .const c => r.addConst ⟨module, some target.name, c⟩

/-- Records a declaration. What a module declares is recorded item by item. -/
def declare (r : Recording) : Declared Item → Recording
  | ⟨module, .struct s⟩ => { r with program.structs := r.program.structs ++ [⟨module, s⟩] }
  | ⟨module, .enum e⟩ => { r with program.enums := r.program.enums ++ [⟨module, e⟩] }
  | ⟨module, .typeAlias a⟩ => { r with program.aliases := r.program.aliases ++ [⟨module, a⟩] }
  | ⟨module, .static s⟩ => { r with program.statics := r.program.statics ++ [⟨module, s⟩] }
  | ⟨module, .const c⟩ => r.addConst ⟨module, none, c⟩
  | ⟨module, .fn f⟩ => r.addFn ⟨qualify module f.name, module, none, none, f⟩
  | ⟨module, .impl target members⟩ =>
    match target.asPath? with
    | none => r
    | some path => members.foldl (member module path) r
  | ⟨_, .module _ _⟩ | ⟨_, .other⟩ => r

mutual

def item (r : Recording) (module : List String) : Item → Recording
  | .module name (some inner) => r.items (module ++ [name]) inner
  | i => r.declare ⟨module, i⟩

def items (r : Recording) (module : List String) : List Item → Recording
  | [] => r
  | i :: rest => (r.item module i).items module rest

end

/-- The owners of the methods, told from all types. -/
def owners (r : Recording) : List (Nat × String) :=
  r.targets.filterMap fun (position, target) =>
    r.program.fns[position]?.map fun f =>
      (position, Program.ownerName r.program.types f.module target)

/-- Enters the owner of the function at a position. -/
def enterOwner (fns : List FnDecl) (entry : Nat × String) : List FnDecl :=
  fns.modify entry.1 fun f => { f with owner := some entry.2 }

/-- The program with the owners of its methods. -/
def settle (r : Recording) : Program :=
  { r.program with fns := r.owners.foldl enterOwner r.program.fns }

end Recording

/-- The program that source files make up. -/
def Program.ofFiles (files : List SourceFile) : Program :=
  (files.foldl (fun r f => r.items f.module f.items) ({} : Recording)).settle

end ServiceContract
