import ServiceContract.Proofs.Schema.Inside

/-! # Enums whose variants are named by a tag

The name of a variant stands under the tag in an object of its own, or among the fields of the
variant, where a field of this name takes its place. An enum of unit variants only is a list of
texts, with a tag or without.
-/

namespace ServiceContract

open Source TypeCompiler Schema Property

/-- The serialized name of a field. -/
def Source.Field.serializedName (field : Field) (container : SerialAttrs) : String :=
  (SerialAttrs.ofAttrs field.attrs).rename.getD
    (container.renamed (Text.trimStartMatches "r#" (field.name.getD "")))

/-- A field takes the place of a name that stands beside the fields of the variant. -/
def Source.Variant.Overwrites (v : Variant) (name : String) : Prop :=
  ∃ fields, v.Merges fields ∧
    ∃ field ∈ fields, isOwn field = true ∧ field.serializedName (.ofAttrs v.attrs) = name

namespace Schema

variable {s : Schema} {given : List Property} {g : Property}

/-- The schema is an object, or a list of parts that begins with it. -/
structure Begins (s o : Schema) : Prop where
  object : o.type = some "object"
  first : s = o ∨ ∃ parts, s.allOf = some (o :: parts)

/-- The schema begins with an object that requires a property and gives it a schema. -/
def Carries (s : Schema) (name : String) (value : Schema) : Prop :=
  ∃ o, s.Begins o ∧ name ∈ o.required.getD [] ∧ o.property? name = some value

theorem type_withDescription (text : Option String) : (s.withDescription text).type = s.type := by
  cases text <;> rfl

theorem allOf_withDescription (text : Option String) :
    (s.withDescription text).allOf = s.allOf := by
  cases text <;> rfl

/-- A property that stands first has its schema unless a later one has its name. -/
theorem Holds.property?_cons (h : s.Holds (g :: given)) :
    ∃ value, s.property? g.name = some value ∧
      ((∀ f ∈ given, f.name ≠ g.name) → value = g.schema) ∧
      ((∃ f ∈ given, f.name = g.name) → ∃ f ∈ given, value = f.schema) := by
  rw [h.property?, last?_cons, if_pos rfl]
  cases hl : last? given g.name with
  | none =>
    have hnone := last?_eq_none.mp hl
    exact ⟨_, rfl, fun _ => rfl, fun ⟨f, hf, hname⟩ => absurd hname (hnone f hf)⟩
  | some f =>
    obtain ⟨hf, hname⟩ := of_last? hl
    exact ⟨_, rfl, fun hnone => absurd hname (hnone f hf), fun _ => ⟨f, hf, rfl⟩⟩

/-- A schema carries what the first property of its object says, or no value if a later property
with a bare schema takes its place. -/
theorem Begins.carries {o : Schema} {Over : Prop} (hs : s.Begins o) (ho : o.Holds (g :: given))
    (hr : g.required = true) (hover : Over ↔ ∃ f ∈ given, f.name = g.name)
    (hbare : ∀ f ∈ given, Every Bare f.schema) :
    ∃ value, s.Carries g.name value ∧ (¬ Over → value = g.schema) ∧
      (Over → value.values = none) := by
  obtain ⟨value, hvalue, hname, hfield⟩ := ho.property?_cons
  refine ⟨value, ⟨o, hs, ?_, hvalue⟩, fun hnot => hname ?_, fun h => ?_⟩
  · rw [ho.getD_required, demanded_cons, if_pos hr]
    exact List.mem_cons_self
  · simpa [hover] using hnot
  · obtain ⟨f, hf, rfl⟩ := hfield (hover.mp h)
    exact (hbare f hf _ (.self _)).values

end Schema

namespace Surroundings

variable {x : Surroundings} {container : SerialAttrs} {v : Variant} {s : Schema} {tag : String}

/-- The properties that fields make have their serialized names. -/
theorem Compiles.exists_name {fields : List Field} {fs : List FieldSchema} {name : String}
    (h : x.Compiles container fields fs) :
    (∃ g ∈ fs.map FieldSchema.property, g.name = name) ↔
      ∃ field ∈ fields, isOwn field = true ∧ field.serializedName container = name := by
  have hnames : (fields.filter isOwn).map (·.serializedName container) = fs.map (·.name) := by
    rw [← List.forall₂_eq_eq_eq, List.forall₂_map_left_iff, List.forall₂_map_right_iff]
    refine h.imp fun field f hf => ?_
    obtain ⟨type, t, -, hr⟩ := Work.runOn_bind_eq_ok.mp hf
    cases hr
    rfl
  have hmem : name ∈ fs.map (·.name) ↔ ∃ g ∈ fs.map FieldSchema.property, g.name = name := by
    simp [FieldSchema.property]
  rw [← hmem, ← hnames]
  simp [and_assoc]

/-- An entry of a tagged enum begins with an object that requires the tag. Under the tag it lists
the name of the variant only, unless a field takes its place. -/
theorem Entry.begins (h : x.Entry container v s) (ht : container.tag = some tag) :
    ∃ value, s.Carries tag value ∧
      (¬ v.Overwrites tag → value = .oneText (EnumMember.serializedName container v)) ∧
      (v.Overwrites tag → value.values = none) := by
  have not_overwrites (h : ∀ fields, ¬ v.Merges fields) :
      v.Overwrites tag ↔ ∃ g ∈ ([] : List Property), g.name = tag :=
    ⟨fun ⟨fields, hm, _⟩ => absurd hm (h fields), fun ⟨_, hg, _⟩ => by cases hg⟩
  obtain ⟨s', rfl, hs⟩ := h.tagged ht
  rcases hs with ⟨hunit, rfl⟩ | ⟨payload, -, hnot, rfl⟩ | ⟨fields, fs, hm, hfs, rfl⟩
  · have hnot : ∀ fields, ¬ v.Merges fields := fun _ hm => by cases hunit.symm.trans hm.1
    exact Begins.carries ⟨type_withDescription _, .inl rfl⟩
      ((holds_objectWith _).withDescription _) rfl (not_overwrites hnot) (by simp)
  · exact Begins.carries (g := ⟨tag, .oneText (EnumMember.serializedName container v), true⟩)
      ⟨rfl, .inr ⟨_, allOf_withDescription _⟩⟩ (holds_objectWith _) rfl (not_overwrites hnot)
      (by simp)
  · refine Begins.carries ⟨type_withDescription _, .inl rfl⟩
      ((holds_objectWith _).withDescription _) rfl ?_ hfs.every_bare
    rw [hfs.exists_name]
    exact ⟨fun ⟨_, hm', h⟩ => Fields.named.inj (hm'.1.symm.trans hm.1) ▸ h, fun h => ⟨_, hm, h⟩⟩

end Surroundings

namespace SchemaTable

variable {p : Program} {calls : List SchemaCall} {key : String} {c : Definition} {s : Schema}

/-- The component of a tagged enum that has other variants than unit variants lists one entry for
each variant that is serialized, in their order. Each begins with an object that requires the tag,
and lists the name of the variant under it unless a field of the variant takes its place. If there
are unit variants only, the component is a list of texts instead, without the tag. -/
theorem tagged_variants (hc : (after p {} calls).definition? key = some c)
    (hs : c.schema = some s) (hkey : ∀ name, key ≠ builtinKey name) :
    ∃ d args, d ∈ p.types ∧ d.key args = key ∧ ∀ e tag, d = .enum e →
      let container := SerialAttrs.ofAttrs e.item.attrs
      container.tag = some tag → e.item.kept ≠ [] →
        ((∃ v ∈ e.item.variants, v.fields.isUnit = false) → ∃ entries, s.oneOf = some entries ∧
          List.Forall₂ (fun v entry => ∃ value, entry.Carries tag value ∧
            (¬ v.Overwrites tag → value = .oneText (EnumMember.serializedName container v)) ∧
            (v.Overwrites tag → value.values = none)) e.item.kept entries) ∧
        ((∀ v ∈ e.item.variants, v.fields.isUnit = true) →
          s.oneOf = none ∧ s.properties = none ∧ s.type = some "string" ∧
            ∃ values, s.values = some values ∧ values.Perm
              (e.item.kept.map fun v => .str (EnumMember.serializedName container v))) := by
  obtain ⟨d, args, n, s₀, hd, hdkey, rfl, hshape⟩ := shape_of_component hc hs hkey
  refine ⟨d, args, hd, hdkey, ?_⟩
  rintro e tag rfl container htag hkept
  have hvariants : e.item.variants ≠ [] := fun hnil => hkept (by simp [EnumItem.kept, hnil])
  cases hshape with
  | @values e members hm =>
    refine ⟨fun h => ?_, fun _ => ?_⟩
    · cases hm.symm.trans (EnumMember.ofVariants_eq_none.mpr (.inr h))
    · obtain ⟨_, values, _, heq, hvalues⟩ := described_eq (p := p) (d := .enum e)
        (s := (typed "string").enumerate members) reference_enumerate
      obtain ⟨_, _, henum⟩ := enumerate_eq members (typed "string")
      rw [heq, henum]
      refine ⟨rfl, rfl, rfl, EnumMember.values members, ?_, ?_⟩
      · exact (hvalues.resolve_right (by simp)).trans values_enumerate
      · rw [EnumMember.values, ← EnumMember.map_value_of_ofVariants hm]
        exact (List.mergeSort_perm _ _).map _
  | @variants e entries hm hes =>
    refine ⟨fun _ => ⟨entries, ?_, hes.imp fun v entry hentry => hentry.begins htag⟩, fun h => ?_⟩
    · obtain ⟨_, _, _, heq, -⟩ := described_eq (p := p) (d := .enum e)
        (s := { oneOf := some entries }) rfl
      rw [heq]
    · obtain ⟨v, hv, hfields⟩ := (EnumMember.ofVariants_eq_none.mp hm).resolve_left hvariants
      simp [h v hv] at hfields

section Shapes

/-- An enum whose variants are named under a tag. -/
def taggedEnum (name : String) (variants : List Variant) : Declared EnumItem where
  module := []
  item :=
    { attrs := [⟨{ segments := ["serde"] },
        .list [.ident "tag", .punct '=' false, .literal "\"kind\""]⟩]
      name, typeParams := [], variants }

def unitVariant (name : String) : Variant := ⟨[], name, .unit, none⟩

/-- A variant with one field. -/
def fieldVariant (name field : String) : Variant :=
  ⟨[], name, .named [⟨[], true, some field, .path ["u32"] []⟩], none⟩

/-- The entries of a struct variant and of a unit variant carry their names. -/
theorem tagged_variants_shape :
    let p : Program := { enums := [taggedEnum "Shape" [fieldVariant "Disk" "radius",
      unitVariant "Point"]] }
    ∃ s entries, (after p {} [.type (.path ["Shape"] []) []]).definition? "Shape" =
        some ⟨"Shape", some s⟩ ∧ s.oneOf = some entries ∧
      List.Forall₂ (fun name entry => entry.Carries "kind" (.oneText name)) ["Disk", "Point"]
        entries := by
  intro p
  have hc : (after p {} [.type (.path ["Shape"] []) []]).definition? "Shape" =
      some ⟨"Shape", some _⟩ := rfl
  obtain ⟨d, args, hd, -, h⟩ := tagged_variants hc rfl (ne_builtinKey (by decide))
  obtain rfl := List.mem_singleton.mp hd
  obtain ⟨entries, hone, hentries⟩ := (h _ "kind" rfl rfl (by decide +kernel)).1
    ⟨fieldVariant "Disk" "radius", List.mem_cons_self, rfl⟩
  have disk : ¬ (fieldVariant "Disk" "radius").Overwrites "kind" := by
    rintro ⟨fields, ⟨hf, -⟩, field, hmem, -, hname⟩
    cases hf
    obtain rfl := List.mem_singleton.mp hmem
    revert hname
    decide +kernel
  have point : ¬ (unitVariant "Point").Overwrites "kind" := by
    rintro ⟨fields, ⟨hf, -⟩, -⟩
    cases hf
  refine ⟨_, entries, rfl, hone, ?_⟩
  match entries, hentries with
  | [_, _], .cons ⟨_, hdisk, hd, _⟩ (.cons ⟨_, hpoint, hp, _⟩ .nil) =>
    exact .cons (hd disk ▸ hdisk) (.cons (hp point ▸ hpoint) .nil)

/-- A unit variant has no entry if all variants are unit variants, and a field may take the place of
the name of its variant. -/
theorem tag_lost :
    (∃ s, (after { enums := [taggedEnum "Kind" [unitVariant "A"]] } {}
        [.type (.path ["Kind"] []) []]).definition? "Kind" = some ⟨"Kind", some s⟩ ∧
      s.oneOf = none ∧ s.values = some [.str "A"]) ∧
    ∃ s entry, (after { enums := [taggedEnum "Kind" [fieldVariant "A" "kind"]] } {}
        [.type (.path ["Kind"] []) []]).definition? "Kind" = some ⟨"Kind", some s⟩ ∧
      s.oneOf = some [entry] ∧ ∀ value, entry.Carries "kind" value → value.values = none := by
  refine ⟨⟨_, rfl, Option.isNone_iff_eq_none.mp (by decide +kernel),
    eq_of_beq (by decide +kernel)⟩, _, _, rfl, rfl, ?_⟩
  rintro value ⟨o, ⟨-, rfl | ⟨parts, hparts⟩⟩, -, hvalue⟩
  · cases hvalue
    rfl
  · cases hparts

end Shapes

end SchemaTable

end ServiceContract
