import ServiceContract.Program.Recording
import Mathlib.Data.List.Basic

/-! # What the walk records

The walk passes the declarations in source order. At every moment the positions that it keeps are
those of the methods among the functions, and each is kept with the type that the block of its
method is written for. So every owner is entered at the method that it is told for, and the
recorded program is the one of the declarations that the walk has passed.
-/

namespace ServiceContract

open Source

/-- A function that the walk has found, and the type that its block is written for. -/
structure FoundFn where
  fn : FnDecl
  target : Option TypePath

namespace FoundFn

def owner? (types : List TypeDecl) (f : FoundFn) : Option String :=
  f.target.map (Program.ownerName types f.fn.module)

/-- The function with its owner, if it is a method. -/
def owned (types : List TypeDecl) (f : FoundFn) : FnDecl :=
  match f.owner? types with
  | none => f.fn
  | some owner => { f.fn with owner := some owner }

def ofMember (module : List String) (target : TypePath) : Member → Option FoundFn
  | .fn f => some ⟨.method module target f, some target⟩
  | .const _ => none

/-- The functions that the walk finds in a declaration. -/
def ofItem : Declared Item → List FoundFn
  | ⟨module, .fn f⟩ => [⟨⟨qualify module f.name, module, none, none, f⟩, none⟩]
  | ⟨module, .impl target members⟩ =>
    match target.asPath? with
    | none => []
    | some path => members.filterMap (ofMember module path)
  | _ => []

/-- The positions of the methods in a list of functions that starts at a position. -/
def targetsFrom (start : Nat) (fs : List FoundFn) : List (Nat × TypePath) :=
  (fs.zipIdx start).filterMap fun (f, position) => f.target.map (position, ·)

/-- The owners of the methods in a list of functions that starts at a position. -/
def ownersFrom (types : List TypeDecl) (start : Nat) (fs : List FoundFn) : List (Nat × String) :=
  (fs.zipIdx start).filterMap fun (f, position) => (f.owner? types).map (position, ·)

variable {types : List TypeDecl} {start : Nat} {f : FoundFn} {fs gs : List FoundFn}

@[simp] theorem targetsFrom_nil : targetsFrom start [] = [] := rfl

@[simp] theorem targetsFrom_free {f : FnDecl} : targetsFrom start [⟨f, none⟩] = [] := rfl

theorem targetsFrom_append :
    targetsFrom start (fs ++ gs) = targetsFrom start fs ++ targetsFrom (start + fs.length) gs := by
  rw [targetsFrom, List.zipIdx_append, List.filterMap_append]
  rfl

theorem ownersFrom_cons : ownersFrom types start (f :: fs) =
    ((f.owner? types).map (start, ·)).toList ++ ownersFrom types (start + 1) fs := by
  simp only [ownersFrom, List.zipIdx_cons, List.filterMap_eq_flatMap_toList, List.flatMap_cons]

theorem fnsOf_eq (d : Declared Item) : Program.fnsOf types d = (ofItem d).map (owned types) := by
  obtain ⟨module, item⟩ := d
  cases item with
  | fn f => rfl
  | impl target members =>
    rw [Program.fnsOf, ofItem]
    cases target.asPath? with
    | none => rfl
    | some path =>
      rw [List.map_filterMap]
      refine List.filterMap_congr fun m _ => ?_
      cases m <;> rfl
  | _ => rfl

end FoundFn

namespace Recording

open FoundFn Program

/-- The recording after a walk has passed some declarations. -/
def after (ds : List (Declared Item)) : Recording where
  program :=
    { structs := ds.filterMap structsOf
      enums := ds.filterMap enumsOf
      aliases := ds.filterMap aliasesOf
      consts := ds.flatMap constsOf
      statics := ds.filterMap staticsOf
      fns := (ds.flatMap ofItem).map FoundFn.fn }
  targets := targetsFrom 0 (ds.flatMap ofItem)

/-- The recording with functions and constants that are found next. -/
def extend (r : Recording) (fs : List FoundFn) (cs : List ConstDecl) : Recording where
  program :=
    { r.program with
      fns := r.program.fns ++ fs.map FoundFn.fn
      consts := r.program.consts ++ cs }
  targets := r.targets ++ targetsFrom r.program.fns.length fs

def constOfMember (module : List String) (target : TypePath) : Member → Option ConstDecl
  | .fn _ => none
  | .const c => some ⟨module, some target.name, c⟩

variable {r : Recording} {ds : List (Declared Item)} {module : List String} {path : TypePath}
  {fs gs : List FoundFn} {cs cs' : List ConstDecl}

theorem extend_nil : r.extend [] [] = r := by
  simp [extend]

theorem extend_extend : (r.extend fs cs).extend gs cs' = r.extend (fs ++ gs) (cs ++ cs') := by
  simp [extend, targetsFrom_append]

theorem member_eq (m : Member) : member module path r m =
    r.extend (ofMember module path m).toList (constOfMember module path m).toList := by
  cases m <;> simp [member, addMethod, addFn, addConst, extend, ofMember, constOfMember,
    targetsFrom]

theorem foldl_member (members : List Member) : members.foldl (member module path) r =
    r.extend (members.filterMap (ofMember module path))
      (members.filterMap (constOfMember module path)) := by
  induction members generalizing r with
  | nil => exact extend_nil.symm
  | cons m members ih =>
    rw [List.foldl_cons, ih, member_eq, extend_extend]
    simp only [List.filterMap_eq_flatMap_toList, List.flatMap_cons]

theorem constsOf_impl (target : TypeExpr) (members : List Member) :
    constsOf ⟨module, .impl target members⟩ =
      match target.asPath? with
      | none => []
      | some path => members.filterMap (constOfMember module path) := by
  cases target with
  | path segments args =>
    refine List.filterMap_congr fun m _ => ?_
    cases m <;> rfl
  | _ => rfl

/-- One step of the walk: the positions stay those of the methods. -/
theorem declare_after (d : Declared Item) : (after ds).declare d = after (ds ++ [d]) := by
  obtain ⟨module, item⟩ := d
  cases item with
  | impl target members =>
    rw [declare]
    cases h : target.asPath? with
    | none => simp [after, structsOf, enumsOf, aliasesOf, staticsOf, constsOf_impl, ofItem, h]
    | some path =>
      dsimp only
      rw [foldl_member]
      simp [extend, after, structsOf, enumsOf, aliasesOf, staticsOf, constsOf_impl, ofItem, h,
        targetsFrom_append]
  | _ =>
    simp [declare, addFn, addConst, after, structsOf, enumsOf, aliasesOf, staticsOf, constsOf,
      ofItem, targetsFrom_append]

/-- All steps of the walk. -/
theorem foldl_declare (passed ds : List (Declared Item)) :
    ds.foldl declare (after passed) = after (passed ++ ds) := by
  induction ds generalizing passed with
  | nil => rw [List.foldl_nil, List.append_nil]
  | cons d ds ih =>
    rw [List.foldl_cons, declare_after, ih, List.append_assoc, List.singleton_append]

mutual

theorem item_eq (r : Recording) (module : List String) :
    ∀ i : Item, r.item module i = (located module i).foldl declare r
  | .module name (some inner) => by rw [item, located, items_eq]
  | .module _ none | .fn _ | .struct _ | .enum _ | .typeAlias _ | .const _ | .static _
  | .impl _ _ | .other => rfl

/-- The walk goes from one declaration to the next, into modules and out of them. -/
theorem items_eq (r : Recording) (module : List String) :
    ∀ is : List Item, r.items module is = (locatedAll module is).foldl declare r
  | [] => rfl
  | i :: rest => by rw [items, locatedAll, List.foldl_append, item_eq r, items_eq]

end

/-- Every owner is entered at the method that it is told for. -/
theorem foldl_enterOwner (types : List TypeDecl) (before : List FnDecl) (fs : List FoundFn) :
    (ownersFrom types before.length fs).foldl enterOwner (before ++ fs.map FoundFn.fn) =
      before ++ fs.map (owned types) := by
  -- the functions before the next position have their owners already
  induction fs generalizing before with
  | nil => rfl
  | cons f fs ih =>
    have hnext (g : FnDecl) := ih (before ++ [g])
    simp only [List.length_append, List.length_singleton, List.append_assoc,
      List.singleton_append] at hnext
    rw [ownersFrom_cons, List.foldl_append, List.map_cons, List.map_cons, owned]
    cases f.owner? types with
    | none => exact hnext f.fn
    | some owner =>
      have henter : enterOwner (before ++ f.fn :: fs.map FoundFn.fn) (before.length, owner) =
          before ++ { f.fn with owner := some owner } :: fs.map FoundFn.fn :=
        List.modifyTailIdx_add _ 0 before _
      rw [Option.map_some, Option.toList_some, List.foldl_cons, henter]
      exact hnext _

/-- At every position that is kept stands the method, in the module that its owner is told from. -/
theorem owners_after : (after ds).owners =
    ownersFrom (Program.ofDeclared ds).types 0 (ds.flatMap ofItem) := by
  rw [owners, after, targetsFrom, List.filterMap_filterMap, ownersFrom]
  refine List.filterMap_congr fun ⟨f, position⟩ hf => ?_
  have hfn : ((ds.flatMap ofItem).map FoundFn.fn)[position]? = some f.fn := by
    rw [List.getElem?_map, List.mk_mem_zipIdx_iff_getElem?.mp hf, Option.map_some]
  cases htarget : f.target with
  | none => simp only [owner?, htarget, Option.map_none, Option.bind_none]
  | some target =>
    simp only [owner?, htarget, Option.map_some, Option.bind_some, hfn]
    rfl

theorem settle_after : (after ds).settle = Program.ofDeclared ds := by
  have hfns : (after ds).settle.fns = (Program.ofDeclared ds).fns := by
    calc (after ds).settle.fns
        = (ownersFrom (Program.ofDeclared ds).types 0 (ds.flatMap ofItem)).foldl enterOwner
            ((ds.flatMap ofItem).map FoundFn.fn) := by rw [settle, owners_after]; rfl
      _ = (ds.flatMap ofItem).map (owned (Program.ofDeclared ds).types) :=
        foldl_enterOwner _ [] _
      _ = (Program.ofDeclared ds).fns := by
        rw [List.map_flatMap]
        exact List.flatMap_congr fun d _ => (fnsOf_eq d).symm
  exact congrArg (fun fns => { Program.ofDeclared ds with fns }) hfns

end Recording

/-- The walk records the program of the declarations in the files. -/
theorem Program.ofFiles_eq (files : List SourceFile) : ofFiles files =
    ofDeclared (files.flatMap fun f => locatedAll f.module f.items) := by
  rw [ofFiles, ← Recording.settle_after, ← List.nil_append (List.flatMap _ _),
    ← Recording.foldl_declare, List.foldl_flatMap]
  simp only [Recording.items_eq]
  rfl

end ServiceContract
