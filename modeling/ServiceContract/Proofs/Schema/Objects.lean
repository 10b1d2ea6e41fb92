import ServiceContract.Proofs.Schema.Places

/-! # The properties of an object

An object is given properties one after the other. Of those with one name it keeps the schema of the
last, and it requires the name of each that demands a value. So it says of every property whether a
value is demanded, and says it once, exactly if no property that demands a value is followed by
another one of its name.
-/

namespace ServiceContract

open Source TypeCompiler

/-- A property as an object is given it. -/
structure Property where
  name : String
  schema : Schema
  /-- A value is demanded. -/
  required : Bool

namespace Property

variable {given : List Property} {f g : Property} {name : String}

/-- The properties with their schemas, of which the last one of a name counts. -/
def table (given : List Property) : List (String × Schema) :=
  (given.map fun g => (g.name, g.schema)).foldl (fun ps (k, s) => setKey k s ps) []

/-- The last property with a name. -/
def last? (given : List Property) (name : String) : Option Property :=
  given.reverse.find? (·.name == name)

/-- The names of the properties that demand a value. -/
def demanded (given : List Property) : List String := (given.filter (·.required)).map (·.name)

/-- Whether no property that demands a value is followed by another one of its name. -/
def Unshadowed (given : List Property) : Prop :=
  given.Pairwise fun f g => f.name = g.name → f.required = false

theorem demanded_cons : demanded (f :: given) =
    if f.required then f.name :: demanded given else demanded given := by
  unfold demanded
  rw [List.filter_cons]
  split <;> rfl

theorem mem_demanded : name ∈ demanded given ↔ ∃ g ∈ given, g.name = name ∧ g.required = true := by
  simp only [demanded, List.mem_map, List.mem_filter]
  exact exists_congr fun g => by rw [and_assoc, and_comm (b := g.name = name)]

theorem not_mem_demanded (h : ∀ g ∈ given, g.name ≠ name) : name ∉ demanded given := by
  intro hm
  obtain ⟨g, hg, hname, -⟩ := mem_demanded.mp hm
  exact h g hg hname

theorem last?_cons :
    last? (f :: given) name = (last? given name).or (if f.name = name then some f else none) := by
  rw [last?, List.reverse_cons, List.find?_append, ← last?, List.find?_singleton]
  simp

theorem last?_eq_none : last? given name = none ↔ ∀ g ∈ given, g.name ≠ name := by simp [last?]

theorem last?_cons_eq_some : last? (f :: given) name = some g ↔
    last? given name = some g ∨ (∀ g ∈ given, g.name ≠ name) ∧ f.name = name ∧ f = g := by
  rw [last?_cons, ← last?_eq_none]
  cases last? given name <;> simp

theorem of_last? (h : last? given name = some g) : g ∈ given ∧ g.name = name :=
  ⟨List.mem_reverse.mp (List.mem_of_find?_eq_some h), by simpa using List.find?_some h⟩

theorem lookup_table : (table given).lookup name = (last? given name).map (·.schema) := by
  rw [table, lookup_foldl_setKey, List.lookup_nil, Option.or_none, ← List.map_reverse, last?]
  induction given.reverse with
  | nil => rfl
  | cons g given ih =>
    rw [List.map_cons, List.lookup_cons, List.find?_cons, ih]
    by_cases h : name = g.name
    · simp [h]
    · simp [beq_false_of_ne h, beq_false_of_ne (Ne.symm h)]

theorem mem_keys_table : name ∈ (table given).map Prod.fst ↔ ∃ g ∈ given, g.name = name := by
  rw [← Decidable.not_iff_not, ← lookup_eq_none_iff, lookup_table, Option.map_eq_none_iff,
    last?_eq_none]
  simp

theorem exists_of_mem_table {e : String × Schema} (h : e ∈ table given) :
    ∃ g ∈ given, (g.name, g.schema) = e :=
  List.mem_map.mp ((mem_foldl_setKey h).resolve_right List.not_mem_nil)

/-- Names are listed once and of the last properties that have them, if none is shadowed. -/
theorem unshadowed_iff : Unshadowed given ↔ (demanded given).Nodup ∧
    ∀ name g, last? given name = some g → (name ∈ demanded given ↔ g.required = true) := by
  induction given with
  | nil => simp [Unshadowed, demanded, last?]
  | cons f given ih =>
    rw [Unshadowed, List.pairwise_cons, ← Unshadowed, ih, demanded_cons]
    cases hf : f.required with
    | false =>
      -- A property that demands nothing changes neither what is listed nor what is last before.
      suffices (∀ name g, last? given name = some g →
          (name ∈ demanded given ↔ g.required = true)) ↔
        ∀ name g, last? (f :: given) name = some g →
          (name ∈ demanded given ↔ g.required = true) by simpa using fun _ => this
      refine ⟨fun h name g hg => ?_, fun h name g hg => h name g (last?_cons_eq_some.mpr (.inl hg))⟩
      rcases last?_cons_eq_some.mp hg with hg | ⟨hnone, -, rfl⟩
      · exact h name g hg
      · simp [hf, not_mem_demanded hnone]
    | true =>
      simp only [if_true, List.nodup_cons, reduceCtorEq, imp_false]
      constructor
      · rintro ⟨hnew, hnodup, h⟩
        refine ⟨⟨not_mem_demanded fun g hg => Ne.symm (hnew g hg), hnodup⟩, fun name g hg => ?_⟩
        rcases last?_cons_eq_some.mp hg with hg | ⟨-, rfl, rfl⟩
        · have hne : name ≠ f.name := fun heq =>
            hnew g (of_last? hg).1 (heq.symm.trans (of_last? hg).2.symm)
          rw [List.mem_cons, or_iff_right hne]
          exact h name g hg
        · simp [hf]
      · rintro ⟨⟨hnot, hnodup⟩, h⟩
        have hnew : ∀ g ∈ given, f.name ≠ g.name := by
          intro g hg hname
          cases hl : last? given f.name with
          | none => exact last?_eq_none.mp hl g hg hname.symm
          | some g' =>
            have hr := (h f.name g' (last?_cons_eq_some.mpr (.inl hl))).mp List.mem_cons_self
            exact hnot (mem_demanded.mpr ⟨g', (of_last? hl).1, (of_last? hl).2, hr⟩)
        refine ⟨hnew, hnodup, fun name g hg => ?_⟩
        have hne : name ≠ f.name := fun heq =>
          hnew g (of_last? hg).1 (heq.symm.trans (of_last? hg).2.symm)
        rw [← h name g (last?_cons_eq_some.mpr (.inl hg)), List.mem_cons, or_iff_right hne]

end Property

open Property

/-- The property that a field makes. -/
def FieldSchema.property (f : FieldSchema) : Property := ⟨f.name, f.schema, f.required⟩

namespace Schema

variable {s : Schema} {given : List Property}

/-- The schema of a property. -/
def property? (s : Schema) (name : String) : Option Schema := s.properties.bind (·.lookup name)

/-- The object that is given properties. -/
def objectWith (given : List Property) : Schema := .object (table given) (demanded given)

/-- The schema has the properties that it is given, and requires those that demand a value. -/
structure Holds (s : Schema) (given : List Property) : Prop where
  properties : s.properties = some (table given)
  required : s.required = (objectWith given).required

/-- What is required are properties, if anything is. -/
structure RequiresProperties (s : Schema) : Prop where
  ne_nil : s.required ≠ some []
  keys : ∀ names ∈ s.required, ∀ name ∈ names, ∃ ps, s.properties = some ps ∧
    name ∈ ps.map Prod.fst

/-- What is required is named once, and a property is required exactly if the one whose schema it
has demands a value. -/
structure Agrees (s : Schema) (given : List Property) : Prop where
  nodup : ∀ names ∈ s.required, names.Nodup
  listed : ∀ name schema, s.property? name = some schema → ∃ g, last? given name = some g ∧
    g.schema = schema ∧ (name ∈ s.required.getD [] ↔ g.required = true)

theorem holds_objectWith (given : List Property) : (objectWith given).Holds given := ⟨rfl, rfl⟩

theorem Holds.withDescription (h : s.Holds given) (text : Option String) :
    (s.withDescription text).Holds given := by
  cases text with
  | none => exact h
  | some text => exact ⟨h.properties, h.required⟩

theorem Holds.property? (h : s.Holds given) (name : String) :
    s.property? name = (last? given name).map (·.schema) := by
  rw [Schema.property?, h.properties, Option.bind_some, lookup_table]

theorem Holds.getD_required (h : s.Holds given) : s.required.getD [] = demanded given := by
  rw [h.required, objectWith, Schema.object]
  cases demanded given <;> rfl

theorem Holds.of_mem_required (h : s.Holds given) {names : List String} (hn : names ∈ s.required) :
    names = demanded given := by
  rw [← h.getD_required, Option.mem_def.mp hn, Option.getD_some]

theorem Holds.requiresProperties (h : s.Holds given) : s.RequiresProperties where
  ne_nil := by
    rw [h.required, objectWith, Schema.object]
    cases demanded given <;> simp
  keys names hn name hmem := by
    obtain ⟨g, hg, hname, -⟩ := mem_demanded.mp (h.of_mem_required hn ▸ hmem)
    exact ⟨_, h.properties, mem_keys_table.mpr ⟨g, hg, hname⟩⟩

/-- An object agrees with its properties exactly if none that demands a value is shadowed. -/
theorem Holds.agrees_iff (h : s.Holds given) : s.Agrees given ↔ Unshadowed given := by
  rw [unshadowed_iff]
  constructor
  · intro ha
    refine ⟨?_, fun name g hg => ?_⟩
    · cases hr : s.required with
      | none => exact h.getD_required ▸ hr ▸ List.nodup_nil
      | some names => exact h.of_mem_required hr ▸ ha.nodup names hr
    · have hs : s.property? name = some g.schema := by rw [h.property?, hg, Option.map_some]
      obtain ⟨g', hg', -, hlisted⟩ := ha.listed name g.schema hs
      cases hg.symm.trans hg'
      rwa [h.getD_required] at hlisted
  · rintro ⟨hnodup, hlisted⟩
    refine ⟨fun names hn => h.of_mem_required hn ▸ hnodup, fun name schema hs => ?_⟩
    rw [h.property?] at hs
    obtain ⟨g, hg, hs⟩ := Option.map_eq_some_iff.mp hs
    exact ⟨g, hg, hs, h.getD_required ▸ hlisted name g hg⟩

end Schema

namespace TypeCompiler

variable {given : List Property}

/-- The name of a variant is a property before the others. -/
theorem taggedVariant_objectWith (tag name : String) (given : List Property) :
    taggedVariant tag name (some (.objectWith given)) =
      .objectWith (⟨tag, .oneText name, true⟩ :: given) := by
  have hp : (table given).foldl (fun ps (k, s) => setKey k s ps) [(tag, Schema.oneText name)] =
      table (⟨tag, .oneText name, true⟩ :: given) :=
    foldl_setKey_foldl_setKey List.nodup_nil
  have hr : tag :: (Schema.objectWith given).required.getD [] =
      demanded (⟨tag, .oneText name, true⟩ :: given) := by
    rw [(Schema.holds_objectWith given).getD_required]
    rfl
  unfold taggedVariant
  dsimp only [Schema.objectWith, Schema.object] at hr ⊢
  rw [hp, hr]

end TypeCompiler

end ServiceContract
