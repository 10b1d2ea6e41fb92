import ServiceContract.Proofs.Schema.Expansions
import ServiceContract.Proofs.Schema.Order
import ServiceContract.Proofs.Schema.Objects

/-! # What components are made of

The schema of a component is that of its fields or variants. Each of these compiles again in the
table that holds the component, so that a component is known from its declaration.
-/

namespace ServiceContract

open Source TypeCompiler Work

/-- Whether a field is a property of its own. -/
def isOwn (field : Field) : Bool :=
  let serial := SerialAttrs.ofAttrs field.attrs
  !serial.skip && !serial.flatten

/-- Whether the schema of a field's type is a part of the schema around it. -/
def isInlined (field : Field) : Bool :=
  let serial := SerialAttrs.ofAttrs field.attrs
  !serial.skip && serial.flatten

/-- The variants that are serialized. -/
def Source.EnumItem.kept (item : EnumItem) : List Variant :=
  item.variants.filter fun v => !(SerialAttrs.ofAttrs v.attrs).skip

namespace EnumMember

variable {scope : Scope} {item : EnumItem} {members : List EnumMember}

theorem map_fst_discriminants (n : Int) (vs : List Variant) :
    (discriminants scope n vs).map Prod.fst = vs := by
  induction vs generalizing n with
  | nil => rfl
  | cons v vs ih => simp [discriminants, ih]

theorem ofVariants_eq_none : ofVariants scope item = none ↔
    item.variants = [] ∨ ∃ v ∈ item.variants, v.fields.isUnit = false := by
  simp [ofVariants, or_iff_not_imp_left]

/-- Exactly the variants that are serialized are listed, by their serialized names. -/
theorem map_value_of_ofVariants (h : ofVariants scope item = some members) :
    members.map (·.value) =
      item.kept.map fun v => .str (serializedName (.ofAttrs item.attrs) v) := by
  unfold ofVariants at h
  dsimp only at h
  split at h
  · cases h
  · cases h
    have hkept : item.kept = ((discriminants scope 0 item.variants).filter fun x =>
        !(SerialAttrs.ofAttrs x.1.attrs).skip).map Prod.fst := by
      have hvariants : (discriminants scope 0 item.variants).map Prod.fst = item.variants :=
        map_fst_discriminants 0 item.variants
      rw [EnumItem.kept, ← hvariants, List.filter_map, hvariants]
      rfl
    rw [hkept, List.map_map, List.map_map]
    rfl

end EnumMember

/-- The fields of a variant that stand beside its name in one object. -/
def Source.Variant.Merges (v : Variant) (fields : List Field) : Prop :=
  v.fields = .named fields ∧ ∀ field ∈ fields, isInlined field = false

/-- The fields of a struct, or of each variant that is serialized. -/
def TypeDecl.bodies : TypeDecl → List Fields
  | .struct d => [d.item.fields]
  | .enum e => e.item.kept.map (·.fields)
  | .typeAlias _ => []

/-- Where the fields of a declaration are compiled. -/
structure Surroundings where
  program : Program
  depth : Nat
  table : SchemaTable
  σ : Substitution
  module : List String

namespace Surroundings

variable (x : Surroundings)

def inner : TypeCompiler := within x.program x.depth

/-- The fields with their compiled types, those that are properties of their own. -/
def Compiles (container : SerialAttrs) (fields : List Field) (fs : List FieldSchema) : Prop :=
  List.Forall₂ (fun field f =>
    (x.inner.fieldOf field (x.σ.apply field.type) container x.module).runOn x.table =
      (.ok f, x.table)) (fields.filter isOwn) fs

/-- The schemas of fields. -/
inductive Body (container : SerialAttrs) : Fields → Schema → Prop
  | newtype {field s} : s.Placed → Body container (.unnamed [field]) s
  | tuple {fields ss} : fields.length ≠ 1 → ss.length = fields.length → (∀ s ∈ ss, s.Placed) →
      Body container (.unnamed fields) (.tuple ss)
  | object {fields fs} : (∀ field ∈ fields, isInlined field = false) →
      x.Compiles container fields fs →
      Body container (.named fields) (.objectWith (fs.map FieldSchema.property))
  | combined {fields fs parts} : (∃ field ∈ fields, isInlined field = true) → parts ≠ [] →
      (∀ s ∈ parts, s.Placed) → x.Compiles container fields fs →
      Body container (.named fields)
        { allOf := some (parts ++ [.objectWith (fs.map FieldSchema.property)]) }
  | binary {fields} : (∃ field ∈ fields, isInlined field = true) →
      Body container (.named fields) .binary

/-- The schemas of what variants hold besides their names. -/
inductive Payload (v : Variant) : Option Schema → Prop
  | unit : v.fields = .unit → Payload v none
  | body {s} : x.Body (.ofAttrs v.attrs) v.fields s → Payload v (some s)

/-- The schemas of variants. -/
def Entry (container : SerialAttrs) (v : Variant) (s : Schema) : Prop :=
  ∃ payload, x.Payload v payload ∧
    s = Schema.withDescription (Docs.ofAttrs v.attrs).text
      (variantSchema container.tag (EnumMember.serializedName container v) payload)

/-- The schemas that components are descriptions of. -/
inductive Shape : TypeDecl → Schema → Prop
  | unit {d : Declared StructItem} : d.item.fields = .unit → Shape (.struct d) (.objectWith [])
  | struct {d : Declared StructItem} {s} : x.Body (.ofAttrs d.item.attrs) d.item.fields s →
      Shape (.struct d) s
  | values {e : Declared EnumItem} {members} :
      EnumMember.ofVariants ⟨x.program, e.module, some e.item.name⟩ e.item = some members →
      Shape (.enum e) ((Schema.typed "string").enumerate members)
  | variants {e : Declared EnumItem} {entries} :
      EnumMember.ofVariants ⟨x.program, e.module, some e.item.name⟩ e.item = none →
      List.Forall₂ (x.Entry (.ofAttrs e.item.attrs)) e.item.kept entries →
      Shape (.enum e) { oneOf := some entries }
  | typeAlias {a s} : s.Placed → Shape (.typeAlias a) s

/-- What a variant of an enum gives to an object. -/
inductive VariantGives (container : SerialAttrs) (v : Variant) :
    List Property → Prop
  | fields {fields fs} : v.fields = .named fields → x.Compiles (.ofAttrs v.attrs) fields fs →
      VariantGives container v (fs.map FieldSchema.property)
  | name {s} : container.tag = none → x.Payload v (some s) →
      VariantGives container v [⟨EnumMember.serializedName container v, s, true⟩]
  | tag {t} : container.tag = some t →
      VariantGives container v [⟨t, .oneText (EnumMember.serializedName container v), true⟩]
  | tagged {t fields fs} : container.tag = some t → v.fields = .named fields →
      x.Compiles (.ofAttrs v.attrs) fields fs → VariantGives container v
        (⟨t, .oneText (EnumMember.serializedName container v), true⟩ ::
          fs.map FieldSchema.property)

/-- What a declaration gives to an object. -/
inductive Gives : TypeDecl → List Property → Prop
  | unit {d : Declared StructItem} : d.item.fields = .unit → Gives (.struct d) []
  | fields {d : Declared StructItem} {fields fs} : d.item.fields = .named fields →
      x.Compiles (.ofAttrs d.item.attrs) fields fs →
      Gives (.struct d) (fs.map FieldSchema.property)
  | variant {e : Declared EnumItem} {v given} : v ∈ e.item.kept →
      x.VariantGives (.ofAttrs e.item.attrs) v given → Gives (.enum e) given

end Surroundings

namespace TypeCompiler

open Property

/-- What fields that are added one after the other make of an object. -/
theorem foldl_addField (fs : List FieldSchema) (o : ObjectParts) :
    fs.foldl ObjectParts.addField o =
      { properties := (fs.map fun f => (f.name, f.schema)).foldl (fun ps (k, s) => setKey k s ps)
          o.properties
        required := o.required ++ demanded (fs.map FieldSchema.property)
        flattened := o.flattened } := by
  induction fs generalizing o with
  | nil => simp [demanded]
  | cons f fs ih =>
    rw [List.foldl_cons, ih, List.map_cons, List.map_cons, demanded_cons]
    cases hf : f.required <;> simp [ObjectParts.addField, FieldSchema.property, hf]

theorem foldl_addField_nil (fs : List FieldSchema) :
    fs.foldl ObjectParts.addField {} =
      { properties := table (fs.map FieldSchema.property)
        required := demanded (fs.map FieldSchema.property) } := by
  rw [foldl_addField, table, List.map_map]
  rfl

end TypeCompiler

namespace Surroundings

variable {x : Surroundings} {container : SerialAttrs} {fields : List Field} {v : Variant}
  {s : Schema}

section Replays

theorem replays_schemaOf (type : TypeExpr) : Replays (x.inner.schemaOf type x.module) :=
  .bind (.within ..) fun _ => .pure _

theorem replays_fieldOf (field : Field) (type : TypeExpr) (container : SerialAttrs) :
    Replays (x.inner.fieldOf field type container x.module) :=
  .bind (.within ..) fun _ => .pure _

theorem replays_objectOf (container : SerialAttrs) (o : ObjectParts) (fields : List Field) :
    Replays (x.inner.objectOf x.σ container x.module o fields) :=
  .of_asks (.objectOf schemaCongruence_eq container (fun _ => ⟨List.forall₂_same.mpr fun _ _ =>
    ⟨rfl, rfl⟩, rfl, List.forall₂_same.mpr fun _ _ => rfl⟩) fun _ _ => trivial)

theorem replays_variantOf (container : SerialAttrs) (v : Variant) :
    Replays (x.inner.variantOf x.σ container x.module v) :=
  .bind (.of_asks (.payloadOf schemaCongruence_eq fun _ _ => trivial)) fun _ => .pure _

end Replays

theorem placed_of_runOn {type : TypeExpr}
    (hr : (x.inner.schemaOf type x.module).runOn x.table = (.ok s, x.table)) : s.Placed :=
  ((places_within x.program x.depth).schemaOf type).ok hr |>.2

/-- An object is raw data, or it has the properties that its fields make, beside those parts that
are inlined. -/
theorem objectOf_eq_ok {o : ObjectParts}
    (hr : (x.inner.objectOf x.σ container x.module o fields).runOn x.table = (.ok s, x.table)) :
    (s = .binary ∧ ∃ field ∈ fields, isInlined field = true) ∨
      ∃ fs parts, x.Compiles container fields fs ∧ (∀ s ∈ parts, s.Placed) ∧
        (parts = [] ↔ ∀ field ∈ fields, isInlined field = false) ∧
        s = { fs.foldl ObjectParts.addField o with flattened := o.flattened ++ parts }.schema := by
  induction fields generalizing o with
  | nil =>
    cases hr
    exact .inr ⟨[], [], .nil, by simp, by simp, by simp⟩
  | cons field rest ih =>
    unfold TypeCompiler.objectOf at hr
    dsimp only at hr
    by_cases hskip : (SerialAttrs.ofAttrs field.attrs).skip = true
    · have hown : isOwn field = false := by simp [isOwn, hskip]
      have hin : isInlined field = false := by simp [isInlined, hskip]
      rw [if_pos hskip] at hr
      simpa [Compiles, hown, hin] using ih hr
    · rw [if_neg hskip] at hr
      by_cases hflat : (SerialAttrs.ofAttrs field.attrs).flatten = true
      · have hown : isOwn field = false := by simp [isOwn, hflat]
        have hin : isInlined field = true := by simp [isInlined, hskip, hflat]
        rw [if_pos hflat] at hr
        split at hr
        · cases hr
          exact .inl ⟨rfl, field, List.mem_cons_self, hin⟩
        · obtain ⟨part, hp, hr⟩ := (replays_schemaOf _).runOn_bind
            (fun _ => replays_objectOf _ _ _) hr
          obtain ⟨rfl, f, hf, hin'⟩ | ⟨fs, parts, hfs, hparts, -, rfl⟩ := ih hr
          · exact .inl ⟨rfl, f, List.mem_cons_of_mem _ hf, hin'⟩
          · refine .inr ⟨fs, part :: parts, ?_, ?_, by simp [hin], ?_⟩
            · simpa [Compiles, hown] using hfs
            · exact List.forall_mem_cons.mpr ⟨placed_of_runOn hp, hparts⟩
            · simp [foldl_addField]
      · have hown : isOwn field = true := by simp [isOwn, hskip, hflat]
        have hin : isInlined field = false := by simp [isInlined, hflat]
        rw [if_neg hflat] at hr
        obtain ⟨f, hf, hr⟩ := (replays_fieldOf _ _ _).runOn_bind
          (fun _ => replays_objectOf _ _ _) hr
        obtain ⟨rfl, hin'⟩ | ⟨fs, parts, hfs, hparts, hnil, rfl⟩ := ih hr
        · exact .inl ⟨rfl, by simpa [hin] using hin'⟩
        · refine .inr ⟨f :: fs, parts, ?_, hparts, by simpa [hin] using hnil, ?_⟩
          · rw [Compiles, List.filter_cons_of_pos hown]
            exact .cons hf hfs
          · simp [foldl_addField, ObjectParts.addField]

theorem body_of_objectOf
    (hr : (x.inner.objectOf x.σ container x.module {} fields).runOn x.table = (.ok s, x.table)) :
    x.Body container (.named fields) s := by
  obtain ⟨rfl, hin⟩ | ⟨fs, parts, hfs, hparts, hnil, rfl⟩ := objectOf_eq_ok hr
  · exact .binary hin
  · rw [foldl_addField_nil]
    cases parts with
    | nil => exact .object (hnil.mp rfl) hfs
    | cons part parts =>
      refine .combined ?_ (List.cons_ne_nil _ _) hparts hfs
      simpa using mt hnil.mpr (List.cons_ne_nil _ _)

theorem body_of_unnamedOf
    (hr : (x.inner.unnamedOf x.σ x.module fields).runOn x.table = (.ok s, x.table)) :
    x.Body container (.unnamed fields) s := by
  match fields, hr with
  | [field], hr => exact .newtype (placed_of_runOn hr)
  | [], hr | _ :: _ :: _, hr =>
    obtain ⟨ss, rfl, hlength, hss⟩ := ((places_within x.program x.depth).tupleOf _).ok hr |>.2
    exact .tuple (by simp) (by simpa using hlength) hss

theorem payload_of_runOn {payload : Option Schema}
    (hr : (x.inner.payloadOf x.σ x.module v).runOn x.table = (.ok payload, x.table)) :
    x.Payload v payload := by
  unfold TypeCompiler.payloadOf at hr
  cases hv : v.fields with
  | unit =>
    rw [hv] at hr
    cases hr
    exact .unit hv
  | unnamed fields =>
    rw [hv] at hr
    obtain ⟨s, t, hs, hr⟩ := Work.runOn_bind_eq_ok.mp hr
    cases hr
    exact .body (hv ▸ body_of_unnamedOf hs)
  | named fields =>
    rw [hv] at hr
    obtain ⟨s, t, hs, hr⟩ := Work.runOn_bind_eq_ok.mp hr
    cases hr
    exact .body (hv ▸ body_of_objectOf hs)

theorem entry_of_variantOf
    (hr : (x.inner.variantOf x.σ container x.module v).runOn x.table = (.ok s, x.table)) :
    x.Entry container v s := by
  obtain ⟨payload, t, hp, hr⟩ := Work.runOn_bind_eq_ok.mp hr
  cases hr
  exact ⟨payload, payload_of_runOn hp, rfl⟩

end Surroundings

/-- Where the fields of a use of a declaration are compiled. -/
def TypeDecl.surroundings (d : TypeDecl) (p : Program) (n : Nat) (T : SchemaTable)
    (args : List TypeExpr) : Surroundings :=
  ⟨p, n, T, d.substitution args, d.module⟩

namespace Surroundings

variable {p : Program} {n : Nat} {T : SchemaTable} {d : TypeDecl} {args : List TypeExpr}
  {s : Schema}

theorem shape_of_runOn (hr : (expansionOf p (within p n) d args).runOn T = (.ok s, T)) :
    (d.surroundings p n T args).Shape d s := by
  cases d with
  | struct d =>
    unfold expansionOf TypeCompiler.structOf at hr
    cases hf : d.item.fields with
    | unit =>
      simp only [hf] at hr
      cases hr
      exact .unit hf
    | unnamed fields =>
      simp only [hf] at hr
      exact .struct (hf ▸ body_of_unnamedOf hr)
    | named fields =>
      simp only [hf] at hr
      exact .struct (hf ▸ body_of_objectOf hr)
  | enum e =>
    unfold expansionOf TypeCompiler.enumOf at hr
    cases hm : EnumMember.ofVariants ⟨p, e.module, some e.item.name⟩ e.item with
    | some members =>
      simp only [hm] at hr
      cases hr
      exact .values hm
    | none =>
      simp only [hm] at hr
      obtain ⟨entries, t, hes, hr⟩ := Work.runOn_bind_eq_ok.mp hr
      cases hr
      have hforall := forall₂_runOn_of_mapM
        (fun v _ => replays_variantOf (x := (TypeDecl.enum e).surroundings p n T args)
          (.ofAttrs e.item.attrs) v) hes (SchemaTable.Grows.refl T).coveredBy
      exact .variants hm (hforall.imp fun _ _ => entry_of_variantOf)
  | typeAlias a =>
    exact .typeAlias (placed_of_runOn (x := (TypeDecl.typeAlias a).surroundings p n T args) hr)

end Surroundings

namespace SchemaTable

/-- Whatever is compiled, a component is the description of the shape of a declaration. -/
theorem shape_of_component {p : Program} {calls : List SchemaCall} {key : String} {c : Definition}
    {s : Schema} (hc : (after p {} calls).definition? key = some c) (hs : c.schema = some s)
    (hkey : ∀ name, key ≠ builtinKey name) :
    ∃ d args n s₀, d ∈ p.types ∧ d.key args = key ∧ s = described p d s₀ ∧
      (d.surroundings p n (after p {} calls) args).Shape d s₀ := by
  obtain ⟨d, args, n, s₀, ⟨path, module, hd⟩, -, hdkey, hs₀, hr⟩ :=
    allExpanded_after p calls key c hc (by simp [hs]) hkey
  exact ⟨d, args, n, s₀, Program.mem_types_of_findType hd, hdkey,
    Option.some.inj (hs.symm.trans hs₀), Surroundings.shape_of_runOn hr⟩

end SchemaTable

end ServiceContract
