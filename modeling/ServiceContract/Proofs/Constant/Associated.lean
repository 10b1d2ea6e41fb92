import ServiceContract.Operator.Compiler
import ServiceContract.Proofs.Program.Lookup

/-! # Constants of types

A method belongs to the declared type that its block is resolved to. A constant of a block is known
by the name that the type of the block is written with, and of several constants known under the
same names the first one in source order is meant.
-/

namespace ServiceContract

open Source

/-- A constant, with the declared type that its block is resolved to. -/
structure OwnedConst where
  owner : Option TypeDecl
  decl : ConstDecl

/-- The constant is known by its own name and that of a type. -/
def OwnedConst.isKnownAs (type name : String) (c : OwnedConst) : Bool :=
  c.decl.name == name && c.decl.selfType == some type

/-- The path stands for a constant of a type with a name: after `Self` in a block of such a type,
or after the name itself. -/
inductive Scope.Asks (s : Scope) (type name : String) : List String → Prop
  | self (h : s.selfType = some type) : s.Asks type name ["Self", name]
  | type (h : type ∉ ["Self", "StatusCode", "Method"]) : s.Asks type name [type, name]

namespace Program

/-- The constants of an item, each with the type it belongs to. -/
def ownedConstsOf (types : List TypeDecl) : Declared Item → List OwnedConst
  | ⟨module, .const c⟩ => [⟨none, module, none, c⟩]
  | ⟨module, .impl target members⟩ =>
    match target.asPath? with
    | none => []
    | some path => members.filterMap fun m => match m with
      | .const c => some ⟨resolveType types path module, module, some path.name, c⟩
      | .fn _ => none
  | _ => []

def ownedConsts (ds : List (Declared Item)) : List OwnedConst :=
  ds.flatMap (ownedConstsOf (ofDeclared ds).types)

variable {ds : List (Declared Item)} {types : List TypeDecl} {c : OwnedConst} {d : TypeDecl}
  {s : Scope} {type name : String} {segments : List String}

theorem map_decl_ownedConstsOf (item : Declared Item) :
    (ownedConstsOf types item).map OwnedConst.decl = constsOf item := by
  obtain ⟨module, item⟩ := item
  cases item with
  | impl target members =>
    cases target with
    | path segments args =>
      refine (List.map_filterMap ..).trans
        (congrArg (List.filterMap · members) (funext fun m => ?_))
      cases m <;> rfl
    | _ => rfl
  | _ => rfl

theorem map_decl_ownedConsts : (ownedConsts ds).map OwnedConst.decl = (ofDeclared ds).consts := by
  rw [ownedConsts, List.map_flatMap]
  exact congrArg (List.flatMap · ds) (funext map_decl_ownedConstsOf)

theorem name_of_resolveType {path : TypePath} {module : List String}
    (h : resolveType types path module = some d) : d.name = path.name := by
  have hd := List.of_mem_filter (mem_of_pickClosest h)
  simp only [Bool.and_eq_true, beq_iff_eq] at hd
  exact hd.1

/-- The type that a constant belongs to is the one that its block is resolved to. -/
theorem resolveType_of_owner (hc : c ∈ ownedConsts ds) (h : c.owner = some d) :
    ∃ path, resolveType (ofDeclared ds).types path c.decl.module = some d ∧
      c.decl.selfType = some path.name := by
  obtain ⟨item, -, hc⟩ := List.mem_flatMap.mp hc
  unfold ownedConstsOf at hc
  split at hc
  · obtain rfl := List.mem_singleton.mp hc
    cases h
  · split at hc
    · cases hc
    · next path _ =>
      obtain ⟨m, -, hm⟩ := List.mem_filterMap.mp hc
      cases m with
      | fn _ => cases hm
      | const _ =>
        cases hm
        exact ⟨path, h, rfl⟩
  · cases hc

/-- A constant of a declared type is known by the name of the type. -/
theorem selfType_of_owner (hc : c ∈ ownedConsts ds) (h : c.owner = some d) :
    c.decl.selfType = some d.name := by
  obtain ⟨path, hpath, hself⟩ := resolveType_of_owner hc h
  rw [hself, name_of_resolveType hpath]

theorem findConst_type (module : List String) :
    (ofDeclared ds).findConst [type, name] module =
      (((ownedConsts ds).find? (OwnedConst.isKnownAs type name)).map OwnedConst.decl).or
        (pickClosest ConstDecl.module module ((ofDeclared ds).consts.filter fun c =>
          c.selfType.isNone && c.name == name && moduleMatches c.module (narrowing [type]))) := by
  have hfind : (ofDeclared ds).consts.find? (fun c => c.name == name && c.selfType == some type) =
      ((ownedConsts ds).find? (OwnedConst.isKnownAs type name)).map OwnedConst.decl := by
    rw [← map_decl_ownedConsts, List.find?_map]
    rfl
  simp only [findConst, List.getLast?_cons_cons, List.getLast?_singleton, List.dropLast,
    Option.bind_some, hfind]
  cases (ownedConsts ds).find? (OwnedConst.isKnownAs type name) <;> rfl

end Program

namespace Scope

open Program

variable {ds : List (Declared Item)} {d : TypeDecl} {s : Scope} {type name : String}
  {segments : List String}

theorem Asks.withSelf? (h : s.Asks type name segments) :
    s.withSelf? segments = some [type, name] := by
  cases h with
  | self h => rw [Scope.withSelf?, h, Option.map_some]
  | type h =>
    unfold Scope.withSelf?
    split
    · next heq => simp [(List.cons.inj heq).1] at h
    · rfl

theorem Asks.wellKnown? (h : s.Asks type name segments) : wellKnown? segments = none := by
  cases h with
  | self h => rfl
  | type h =>
    simp only [List.mem_cons, List.not_mem_nil, or_false, not_or] at h
    simp [Scope.wellKnown?, h]

theorem constant?_eq (hs : s.program = ofDeclared ds) (h : s.Asks type name segments) :
    s.constant? segments =
      (((ownedConsts ds).find? (OwnedConst.isKnownAs type name)).map OwnedConst.decl).or
        (pickClosest ConstDecl.module s.module ((ofDeclared ds).consts.filter fun c =>
          c.selfType.isNone && c.name == name && moduleMatches c.module (narrowing [type]))) := by
  rw [constant?, h.withSelf?, Option.bind_some, hs, findConst_type]

/-- What is asked for has the value of the first constant that is known under both names, or else it
is no constant of a type. The first constant is the one of the type itself exactly if no earlier
block of a type of that name has a constant of the name. -/
theorem evalWithin_asks (hs : s.program = ofDeclared ds) (h : s.Asks d.name name segments) :
    (∀ c, (ownedConsts ds).find? (OwnedConst.isKnownAs d.name name) = some c →
      ∀ path inner k, path.segments = segments →
        s.evalWithin (k + 1) (.path path inner) =
          (s.ofConst c.decl).evalWithin k c.decl.item.value) ∧
    ((ownedConsts ds).find? (OwnedConst.isKnownAs d.name name) = none →
      ∀ c, s.constant? segments = some c → c.selfType = none) ∧
    ∀ before c after, ownedConsts ds = before ++ ⟨some d, c⟩ :: after → c.name = name →
      (∀ b ∈ before, b.owner = some d → b.decl.name ≠ name) →
      ((ownedConsts ds).find? (OwnedConst.isKnownAs d.name name) = some ⟨some d, c⟩ ↔
        ∀ b ∈ before, b.decl.selfType = some d.name → b.decl.name ≠ name) := by
  refine ⟨fun c hc path inner k hpath => ?_, fun hnone c hc => ?_,
    fun before c after heq hname hfirst => ?_⟩
  · rw [evalWithin, hpath, h.wellKnown?, constant?_eq hs h, hc]
    rfl
  · rw [constant?_eq hs h, hnone] at hc
    have hc := List.of_mem_filter (mem_of_pickClosest hc)
    simp only [Bool.and_eq_true, Option.isNone_iff_eq_none] at hc
    exact hc.1.1
  · have hown : OwnedConst.isKnownAs d.name name ⟨some d, c⟩ = true := by
      have hmem : (⟨some d, c⟩ : OwnedConst) ∈ ownedConsts ds := by simp [heq]
      have hself : c.selfType = some d.name := selfType_of_owner hmem rfl
      simp [OwnedConst.isKnownAs, hself, hname]
    rw [heq, List.find?_append, List.find?_cons_of_pos hown]
    constructor
    · intro hfind b hb hself hb'
      cases hfirst' : before.find? (OwnedConst.isKnownAs d.name name) with
      | none =>
        have := List.find?_eq_none.mp hfirst' b hb
        simp [OwnedConst.isKnownAs, hself, hb'] at this
      | some b' =>
        -- an earlier constant is found, so it is one of the type itself
        rw [hfirst', Option.some_or] at hfind
        cases hfind
        exact hfirst _ (List.mem_of_find?_eq_some hfirst') rfl hname
    · intro hnone
      have : before.find? (OwnedConst.isKnownAs d.name name) = none := by
        refine List.find?_eq_none.mpr fun b hb => ?_
        simpa [OwnedConst.isKnownAs, imp_not_comm] using hnone b hb
      rw [this, Option.none_or]

end Scope

section Programs

open Scope

/-- The type of an operator. -/
def createIn (module : String) : TypeDecl := .struct ⟨[module], ⟨[], "Create", [], .unit⟩⟩

/-- The path of an operator. -/
def pathItem (path : String) : ConstItem :=
  ⟨[], "PATH", .ref (.path ["str"] []), .lit (.str path)⟩

/-- An operator whose path is a constant of its type. -/
def creating (module path : String) : List (Declared Item) :=
  [⟨[module], .struct ⟨[], "Create", [], .unit⟩⟩,
   ⟨[module], .impl (.path ["Create"] [])
    [.const (pathItem path),
     .fn ⟨[], "path", [.receiver], none,
      [.expr [] (.path ⟨false, ["Self", "PATH"], [], true⟩ []) false], []⟩]⟩]

/-- Operators of one name in two modules. -/
def creators : List (Declared Item) := creating "users" "/users" ++ creating "orders" "/orders"

/-- In the module that comes first the constant is that of the type. -/
theorem evalWithin_asks_users :
    let s : Scope := ⟨Program.ofDeclared creators, ["users"], some "Create"⟩
    s.Asks (createIn "users").name "PATH" ["Self", "PATH"] ∧
    (Program.ownedConsts creators).find? (OwnedConst.isKnownAs "Create" "PATH") =
      some ⟨createIn "users", ["users"], some "Create", pathItem "/users"⟩ ∧
    s.evalWithin 2 (.path ⟨false, ["Self", "PATH"], [], true⟩ []) = some (.str "/users") := by
  intro s
  have hasks : s.Asks (createIn "users").name "PATH" ["Self", "PATH"] := .self rfl
  obtain ⟨heval, -, hown⟩ := evalWithin_asks rfl hasks
  have hfirst := (hown [] _ _ rfl rfl (by simp)).mpr (by simp)
  exact ⟨hasks, hfirst, heval _ hfirst ⟨false, ["Self", "PATH"], [], true⟩ [] 1 rfl⟩

/-- In the other module it is that of the namesake, and so is the path of the operator. -/
theorem eval_path_of_namesake :
    let p := Program.ofDeclared creators
    let s : Scope := ⟨p, ["orders"], some "Create"⟩
    ⟨createIn "orders", ["orders"], some "Create", pathItem "/orders"⟩ ∈
      Program.ownedConsts creators ∧
    s.eval (.path ⟨false, ["Self", "PATH"], [], true⟩ []) = some (.str "/users") ∧
    s.eval (.path ⟨false, ["Create", "PATH"], [], true⟩ []) = some (.str "/users") ∧
    Operator.pathOf p {} "orders::Create" = "/users" := by
  refine ⟨List.mem_of_getElem? (i := 1) rfl, ?_, ?_, ?_⟩ <;> decide +kernel

end Programs

end ServiceContract
