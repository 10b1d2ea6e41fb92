import ServiceContract.Program.Lookup
import ServiceContract.Schema.Basic
import ServiceContract.Text.WordCase
import ServiceContract.Work

/-! # The table of components

Every declared type that a schema mentions becomes a component, named by the type and its
arguments. The entry of a component is made before the type is expanded, so that a type that
mentions itself ends in a reference. No two components have one name.
-/

namespace ServiceContract

/-- A component; it has no schema while its type is being expanded. -/
structure Definition where
  name : String
  schema : Option Schema

/-- The components so far. -/
structure SchemaTable where
  /-- The components by type key. -/
  definitions : List (String × Definition) := []
  /-- The type keys by component name. -/
  names : List (String × String) := []
  /-- The keys of the types that are being expanded, the innermost first. -/
  stack : List String := []

namespace SchemaTable

def definition? (t : SchemaTable) (key : String) : Option Definition := t.definitions.lookup key

def isTaken (t : SchemaTable) (name : String) : Bool := (t.names.lookup name).isSome

/-- Enters a component under a new name. -/
def enter (t : SchemaTable) (key name : String) (schema : Option Schema) : SchemaTable :=
  { t with names := setKey name key t.names
           definitions := setKey key ⟨name, schema⟩ t.definitions }

/-- Gives a component its schema. -/
def resolve (t : SchemaTable) (key : String) (schema : Schema) : SchemaTable :=
  match t.definition? key with
  | some d => { t with definitions := setKey key { d with schema := some schema } t.definitions }
  | none => t

/-- The table while the type of a key is being expanded. -/
def push (t : SchemaTable) (key : String) : SchemaTable := { t with stack := key :: t.stack }

def pop (t : SchemaTable) : SchemaTable := { t with stack := t.stack.tail }

section Definitions

variable {t : SchemaTable} {key other name : String} {schema : Option Schema} {s : Schema}
  {d : Definition}

theorem definition?_enter : (t.enter key name schema).definition? other =
    if other = key then some ⟨name, schema⟩ else t.definition? other :=
  lookup_setKey

theorem definition?_resolve (h : t.definition? key = some d) :
    (t.resolve key s).definition? other =
      if other = key then some { d with schema := some s } else t.definition? other := by
  unfold resolve
  rw [h]
  exact lookup_setKey

end Definitions

/-- The name with the first number from two on that makes a free name. -/
def numbered (t : SchemaTable) (name : String) : String :=
  (((List.range' 2 (t.names.length + 1)).map fun n => name ++ Text.decimal n).find?
    fun c => !t.isTaken c).getD name

/-- The first free name that modules in front make, or the name with all of them. -/
def withModules (t : SchemaTable) : List String → String → String × Bool
  | [], name => (name, false)
  | m :: outer, name =>
    let candidate := WordCase.upperCamel m ++ name
    if t.isTaken candidate then t.withModules outer candidate else (candidate, true)

/-- A free name for a type declared in a module: the name itself, else with the modules around it
in front, the nearest first, else numbered. -/
def freeName (t : SchemaTable) (module : List String) (base : String) : String :=
  if t.isTaken base then
    match t.withModules module.reverse base with
    | (name, true) => name
    | (name, false) => t.numbered name
  else base

/-- The key of a component that no declaration stands for. -/
def builtinKey (name : String) : String := "<builtin>::" ++ name

/-- Makes a component of a schema that no declaration stands for. -/
def registerBuiltin (name : String) (schema : Schema) (t : SchemaTable) : Schema × SchemaTable :=
  let key := builtinKey name
  match t.definition? key with
  | some d => (.ref d.name, t)
  | none =>
    let assigned := if t.isTaken name then t.numbered name else name
    (.ref assigned, t.enter key assigned (some schema))

/-- The finished components, sorted by name. -/
def components (t : SchemaTable) : List (String × Schema) :=
  t.definitions.foldl (fun acc (_, d) =>
    match d.schema with
    | some s => insertSorted d.name s acc
    | none => acc) []

end SchemaTable

/-- Work on the table. -/
abbrev Compile := Work SchemaTable

namespace Compile

/-- Runs work while a type is being expanded. -/
def expanding {α : Type} (key : String) (work : Compile α) : Compile α := fun t =>
  let (r, t) := work.runOn (t.push key)
  (r, t.pop)

@[simp] theorem runOn_expanding {α : Type} (key : String) (work : Compile α) (t : SchemaTable) :
    (expanding key work).runOn t = ((work.runOn (t.push key)).1, (work.runOn (t.push key)).2.pop) :=
  rfl

/-- The type that an error is found in: the innermost one that is being expanded, or the type as
written outside all. -/
def context (written : TypeExpr) : Compile String := do
  return ((← get).stack.head?).getD written.text

end Compile

end ServiceContract
