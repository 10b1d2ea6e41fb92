import ServiceContract.Schema.Enumeration
import ServiceContract.Schema.Generics
import ServiceContract.Schema.Table

/-! # Schemas of types

A declared struct or enum becomes a component and its uses references to it; any other type is
described in place. The rules are written over a compiler for the types inside, and tied into a
knot by levels of expansion.
-/

namespace ServiceContract

open Source

/-- The schema of a field's type, before it is attached to a property. -/
structure FieldType where
  schema : Schema
  /-- The type is wrapped as optional. -/
  optional : Bool
  pointers : Nat

/-- The schema with the number of pointers. -/
def FieldType.settled (f : FieldType) : Schema :=
  (if f.pointers = 0 then f.schema
    else f.schema.withExtension Schema.pointerKey (.ofNat f.pointers)).settle

/-- A named field with its schema. -/
structure FieldSchema where
  /-- The name as written. -/
  ident : String
  /-- The serialized name. -/
  name : String
  schema : Schema
  required : Bool

/-- The property of a named field with its compiled type. -/
def FieldSchema.ofField (field : Field) (container : SerialAttrs) (type : FieldType) :
    FieldSchema :=
  let serial := SerialAttrs.ofAttrs field.attrs
  let ident := Text.trimStartMatches "r#" (field.name.getD "")
  let name := serial.rename.getD (container.renamed ident)
  let validate := validateTag field.attrs
  let required := validate.any validateRequires ||
    (!type.optional && !serial.default && !container.default)
  let schema := type.settled.withDescription (Docs.ofAttrs field.attrs).text
  let schema := if name == ident then schema else schema.withExtension Schema.fieldKey (.str ident)
  let schema := match validate with
    | some tag => schema.withExtension Schema.validateKey (.str tag)
    | none => schema
  { ident, name, schema := schema.settle, required }

/-- The schemas without repetitions. -/
def Schema.distinct (ss : List Schema) : List Schema :=
  ss.foldl (fun seen s => if seen.contains s then seen else seen ++ [s]) []

/-- A list of fixed length whose items have one of several schemas. -/
def Schema.tuple (items : List Schema) : Schema :=
  let item : Schema := match Schema.distinct items with
    | [s] => s
    | ss => { oneOf := some ss }
  { Schema.array item with minItems := some items.length, maxItems := some items.length }

/-- A type without the wrappers and pointers around it. -/
structure Layers where
  type : TypeExpr
  optional : Bool := false
  pointers : Nat := 0

namespace Layers

def addPointer (l : Layers) : Layers := { l with pointers := l.pointers + 1 }

/-- Wrappers that leave no trace. -/
def transparent : List String := ["Cow", "Cell", "RefCell", "Mutex", "RwLock"]

def ofType : TypeExpr → Layers
  | .ref t => if t.name? == some "str" then ofType t else (ofType t).addPointer
  | .path segments (a :: as) =>
    let name := segments.getLast?.getD ""
    if TypeExpr.pointers.contains name then (ofType a).addPointer
    else if name == "Option" && as.isEmpty then { ofType a with optional := true }
    else if transparent.contains name then ofType a
    else { type := .path segments (a :: as) }
  | t => { type := t }

end Layers

/-- A compiler for types as written in a module. -/
abbrev TypeCompiler := TypeExpr → List String → Compile FieldType

namespace TypeCompiler

variable (p : Program) (inner : TypeCompiler)

/-- The schema of a type on its own. -/
def schemaOf (t : TypeExpr) (module : List String) : Compile Schema :=
  return (← inner t module).settled

/-- Whether values of a type are texts when serialized, as the keys of a map have to be. A chain
of declarations that is longer than there are types leads back to itself and is no text. -/
def isTextKey : Nat → TypeExpr → List String → Bool
  | 0, _, _ => false
  | n + 1, t, module =>
    match t.peel.asPath? with
    | none => false
    | some path =>
      if ["String", "str", "char", "Uuid"].contains path.name then true
      else
        match p.findType path module with
        | some (.enum d) => d.item.variants.all fun v => v.fields.isUnit
        | some (.struct d) =>
          match d.item.fields with
          | .unnamed [f] => isTextKey n f.type d.module
          | _ => false
        | some (.typeAlias d) => isTextKey n d.item.target d.module
        | none => false

def tupleOf (types : List TypeExpr) (module : List String) : Compile Schema :=
  return .tuple (← types.mapM fun t => inner.schemaOf t module)

/-- A named field of a struct or variant. -/
def fieldOf (field : Field) (t : TypeExpr) (container : SerialAttrs) (module : List String) :
    Compile FieldSchema :=
  return .ofField field container (← inner t module)

/-- Whether a flattened type is raw data. -/
def isBytes (t : TypeExpr) : Bool :=
  match t.peel.name? with
  | some name => name == "Bytes" || name == "BytesMut"
  | none => false

/-- The parts of an object, gathered field by field. -/
structure ObjectParts where
  properties : List (String × Schema) := []
  required : List String := []
  flattened : List Schema := []

namespace ObjectParts

def addField (o : ObjectParts) (f : FieldSchema) : ObjectParts :=
  { o with properties := setKey f.name f.schema o.properties
           required := if f.required then o.required ++ [f.name] else o.required }

def schema (o : ObjectParts) : Schema :=
  let object := Schema.object o.properties o.required
  if o.flattened.isEmpty then object else { allOf := some (o.flattened ++ [object]) }

end ObjectParts

/-- The object that named fields make up; flattened raw data takes the place of all of it. -/
def objectOf (σ : Substitution) (container : SerialAttrs) (module : List String) (o : ObjectParts) :
    List Field → Compile Schema
  | [] => return o.schema
  | field :: rest => do
    let serial := SerialAttrs.ofAttrs field.attrs
    let t := σ.apply field.type
    if serial.skip then objectOf σ container module o rest
    else if serial.flatten then
      if isBytes t then return Schema.binary
      else
        let part ← inner.schemaOf t module
        objectOf σ container module { o with flattened := o.flattened ++ [part] } rest
    else
      let f ← inner.fieldOf field t container module
      objectOf σ container module (o.addField f) rest

/-- The schema of unnamed fields: a single one stands for itself. -/
def unnamedOf (σ : Substitution) (module : List String) (fields : List Field) : Compile Schema :=
  match fields.map fun f => σ.apply f.type with
  | [t] => inner.schemaOf t module
  | ts => inner.tupleOf ts module

def structOf (σ : Substitution) (d : Declared StructItem) : Compile Schema :=
  match d.item.fields with
  | .unit => return Schema.object [] []
  | .unnamed fields => inner.unnamedOf σ d.module fields
  | .named fields => inner.objectOf σ (.ofAttrs d.item.attrs) d.module {} fields

/-- A variant whose name stands in a property of its own object. -/
def taggedVariant (tag name : String) (payload : Option Schema) : Schema :=
  let properties := [(tag, Schema.oneText name)]
  match payload with
  | none => Schema.object properties [tag]
  | some s =>
    match s.properties with
    | some fields =>
      Schema.object (fields.foldl (fun ps (k, v) => setKey k v ps) properties)
        (tag :: s.required.getD [])
    | none => { allOf := some [Schema.object properties [tag], s] }

/-- A variant of an enum whose variants are not all unit variants. -/
def variantSchema (tag : Option String) (name : String) (payload : Option Schema) : Schema :=
  match tag, payload with
  | none, none => Schema.oneText name
  | none, some s => Schema.object [(name, s)] [name]
  | some t, payload => taggedVariant t name payload

/-- What a variant holds besides its name. -/
def payloadOf (σ : Substitution) (module : List String) (v : Variant) : Compile (Option Schema) :=
  match v.fields with
  | .unit => return none
  | .unnamed fields => some <$> inner.unnamedOf σ module fields
  | .named fields => some <$> inner.objectOf σ (.ofAttrs v.attrs) module {} fields

def variantOf (σ : Substitution) (container : SerialAttrs) (module : List String) (v : Variant) :
    Compile Schema := do
  let payload ← inner.payloadOf σ module v
  let name := EnumMember.serializedName container v
  return (variantSchema container.tag name payload).withDescription (Docs.ofAttrs v.attrs).text

def enumOf (σ : Substitution) (d : Declared EnumItem) : Compile Schema := do
  match EnumMember.ofVariants ⟨p, d.module, some d.item.name⟩ d.item with
  | some members => return (Schema.typed "string").enumerate members
  | none =>
    let kept := d.item.variants.filter fun v => !(SerialAttrs.ofAttrs v.attrs).skip
    let variants ← kept.mapM (inner.variantOf σ (.ofAttrs d.item.attrs) d.module)
    return { oneOf := some variants }

/-- The schema with the documentation of its type in front of its description. -/
def documented (docs : Option String) (s : Schema) : Schema :=
  match docs with
  | some text => { s with description := some (match s.description with
      | some block => text ++ "\n\n" ++ block
      | none => text) }
  | none => s

/-- The schema with the values of the constants of its type, if nothing else describes its
values. -/
def withConstants (name : String) (s : Schema) : Schema :=
  if s.values.isNone && s.properties.isNone then
    match EnumMember.ofConstants p name with
    | some members => s.enumerate members
    | none => s
  else s

/-- The schema of a component: what its fields or variants say, its documentation, and the values
of the constants of its type. -/
def described (d : TypeDecl) (s : Schema) : Schema :=
  ((withConstants p d.name (documented (Docs.ofAttrs d.attrs).text s)).withExtension
    Schema.typeKey (.str d.name)).settle

/-- The component of a use of a declared struct or enum. -/
def componentOf (d : TypeDecl) (args : List TypeExpr) (expand : Compile Schema) :
    Compile Schema := do
  let key := d.key args
  let table ← get
  match table.definition? key with
  | some found => return .ref found.name
  | none =>
    let name := table.freeName d.module (d.componentName args)
    set (table.enter key name none)
    let s ← Compile.expanding key expand
    modify (·.resolve key (described p d s))
    return .ref name

/-- A use of a declared type. An alias means its target. -/
def declaredOf (d : TypeDecl) (args : List TypeExpr) (module : List String) : Compile Schema :=
  match d with
  | .typeAlias a => inner.schemaOf ((d.substitution args).apply a.item.target) a.module
  | .struct s =>
    let args := p.canonicalAll module args
    componentOf p d args (inner.structOf (d.substitution args) s)
  | .enum e =>
    let args := p.canonicalAll module args
    componentOf p d args (inner.enumOf p (d.substitution args) e)

/-- Collections that are lists, sets and maps. -/
def lists : List String := ["Vec", "VecDeque", "LinkedList", "BinaryHeap"]

def sets : List String := ["HashSet", "BTreeSet", "IndexSet"]

def maps : List String := ["HashMap", "BTreeMap", "IndexMap"]

/-- A type that is no collection: declared, of a library, or unknown. -/
def namedOf (path : TypePath) (module : List String) : Compile Schema :=
  match p.findType path module with
  | some d => inner.declaredOf p d path.args module
  | none =>
    match Schema.ofLibrary? path.name with
    | some s => return s
    | none => do
      if Schema.looksNumeric path.name then
        throw (.unknownPrimitive path.name (← Compile.context path.toType))
      else return Schema.withExtension Schema.typeKey (.str path.text) {}

def pathOf (path : TypePath) (module : List String) : Compile Schema :=
  match Schema.ofPrimitive? path.name with
  | some s => return s
  | none =>
    match path.args with
    | [] => inner.namedOf p path module
    | item :: rest =>
      if lists.contains path.name then
        return Schema.array (← inner.schemaOf item module)
      else if sets.contains path.name then do
        return { Schema.array (← inner.schemaOf item module) with uniqueItems := some true }
      else
        match rest with
        | value :: _ =>
          if maps.contains path.name then do
            if isTextKey p (p.types.length + 1) item module then
              return { Schema.typed "object" with
                additionalProperties := some (← inner.schemaOf value module) }
            else throw (.unsupportedMapKey item.text (← Compile.context path.toType))
          else inner.namedOf p path module
        | [] => inner.namedOf p path module

/-- The schema of a type without wrappers around it. -/
def shapeOf (t : TypeExpr) (module : List String) : Compile Schema :=
  match t with
  | .path segments args => inner.pathOf p ⟨segments, args⟩ module
  | .slice item => return Schema.array (← inner.schemaOf item module)
  | .array item n => do
    return { Schema.array (← inner.schemaOf item module) with minItems := n, maxItems := n }
  | .tuple (t :: ts) => inner.tupleOf (t :: ts) module
  | .tuple [] | .dynamic | .unknown => return {}
  | .ref t => inner.schemaOf t module

/-- One level of expansion. -/
def step : TypeCompiler := fun t module => do
  let l := Layers.ofType t
  return { schema := ← inner.shapeOf p l.type module
           optional := l.optional
           pointers := l.pointers }

/-- Expansion through a number of levels. -/
def within (p : Program) : Nat → TypeCompiler
  | 0 => fun t _ => throw (.endlessType t.text)
  | n + 1 => step p fun t module => within p n t module

end TypeCompiler

namespace Program

/-- The levels of expansion for a type. A type that has more of them is taken to have no end. -/
def levels (p : Program) (t : TypeExpr) : Nat := Nat.pow (p.typeSize + t.size + 2) 4

/-- Compiles the type of a field as written in a module. -/
def compileField (p : Program) : TypeCompiler := fun t module =>
  TypeCompiler.within p (p.levels t) t module

/-- Compiles a type as written in a module. -/
def compileType (p : Program) (t : TypeExpr) (module : List String) : Compile Schema :=
  TypeCompiler.schemaOf p.compileField t module

/-- Compiles a named field of a struct. -/
def compileMember (p : Program) (field : Field) (container : SerialAttrs) (module : List String) :
    Compile FieldSchema :=
  TypeCompiler.fieldOf p.compileField field field.type container module

end Program

end ServiceContract
