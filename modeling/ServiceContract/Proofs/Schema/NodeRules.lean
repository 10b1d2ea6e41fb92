import ServiceContract.Proofs.Schema.Enumeration
import ServiceContract.Proofs.Schema.Table
import Mathlib.Data.List.Nodup
import Mathlib.Tactic.SplitIfs

/-! # What holds of every schema inside

A compiler builds schemas of others, says something about them, and settles them. A property that
holds of whatever is built holds of every schema inside a compiled one, if saying something about a
schema leads no further than settling brings back.
-/

namespace ServiceContract

open Source TypeCompiler

namespace Schema

/-- A schema as it is built of others: no reference, and nothing is said besides. -/
structure Fresh (s : Schema) : Prop where
  reference : s.reference = none
  properties : ∀ ps ∈ s.properties, (ps.map Prod.fst).Nodup
  values : ∀ vs ∈ s.values, ∃ text, vs = [.str text]
  default : s.default = none
  extensions : s.extensions = []

/-- The keys under which the compilers remark something about a schema, besides the labels of the
values that it enumerates. -/
def remarkKeys : List String :=
  [typeKey, fieldKey, pointerKey, validateKey, nameKey, locationKey]

/-- The rules for a property of every schema inside, and for what still holds of a schema about
which something is being said. -/
structure NodeRules (p : Program) (P Said : Schema → Prop) : Prop where
  fresh : ∀ {s}, Fresh s → P s
  said : ∀ {s}, Every P s → Said s
  described : ∀ {s} text, Said s → Said { s with description := some text }
  extended : ∀ {s key value}, key ∈ remarkKeys → value.Distinct → Said s →
    Said (s.withExtension key value)
  enumerated : ∀ {s members}, p.Lists members →
    Fresh s ∨ members.any (·.label.isSome) → Said s → Said (s.enumerate members)
  settled : ∀ {s}, Said s → Every P s.settle
  undescribed : ∀ {s}, Every P s → Every P { s with description := none }

namespace Fresh

variable {s : Schema}

theorem withDescription (h : Fresh s) (text : Option String) : Fresh (s.withDescription text) := by
  cases text with
  | none => exact h
  | some text => exact ⟨h.reference, h.properties, h.values, h.default, h.extensions⟩

theorem typed (type : String) : Fresh (typed type) := ⟨rfl, nofun, nofun, rfl, rfl⟩

theorem object {properties : List (String × Schema)} (required : List String)
    (hn : (properties.map Prod.fst).Nodup) : Fresh (object properties required) where
  reference := rfl
  properties _ hps := Option.some.inj hps ▸ hn
  values := nofun
  default := rfl
  extensions := rfl

theorem taggedVariant (tag name : String) (payload : Option Schema) :
    Fresh (taggedVariant tag name payload) := by
  have htag : ([(tag, oneText name)].map Prod.fst).Nodup := List.nodup_singleton tag
  unfold TypeCompiler.taggedVariant
  dsimp only
  split
  · exact .object _ htag
  · split
    · exact .object _ (nodup_map_fst_foldl_setKey htag)
    · exact ⟨rfl, nofun, nofun, rfl, rfl⟩

theorem variantSchema (tag : Option String) (name : String) (payload : Option Schema) :
    Fresh (variantSchema tag name payload) := by
  unfold TypeCompiler.variantSchema
  split
  · exact ⟨rfl, nofun, fun vs hvs => ⟨name, (Option.some.inj hvs).symm⟩, rfl, rfl⟩
  · exact .object _ (List.nodup_singleton name)
  · exact .taggedVariant _ _ _

end Fresh

theorem mem_of_mem_distinct {s : Schema} {ss : List Schema} (h : s ∈ distinct ss) : s ∈ ss :=
  (mem_or_mem_of_mem_foldl h).resolve_left List.not_mem_nil

theorem every_tuple {P : Schema → Prop} {ss : List Schema} (h : ∀ s ∈ ss, Every P s)
    (hitem : P { oneOf := some (distinct ss) })
    (hs : ∀ item, P { Schema.array item with
      minItems := some ss.length, maxItems := some ss.length }) : Every P (tuple ss) := by
  have hd : ∀ s ∈ distinct ss, Every P s := fun s hs => h s (mem_of_mem_distinct hs)
  unfold tuple
  refine every_iff.mpr ⟨hs _, ?_⟩
  split
  · next s he => simpa [Schema.array, children] using hd s (by simp [he])
  · simpa [Schema.array, children] using every_iff.mpr ⟨hitem, by simpa [children] using hd⟩

end Schema

open Schema

/-- The parts of an object have distinct names, and every schema inside is as described. -/
structure TypeCompiler.ObjectParts.Every (P : Schema → Prop) (o : ObjectParts) : Prop where
  names : (o.properties.map Prod.fst).Nodup
  properties : ∀ e ∈ o.properties, Schema.Every P e.2
  flattened : ∀ s ∈ o.flattened, Schema.Every P s

theorem TypeCompiler.ObjectParts.Every.imp {P Q : Schema → Prop} {o : ObjectParts} (h : o.Every P)
    (hpq : ∀ s, P s → Q s) : o.Every Q :=
  ⟨h.names, fun e he => (h.properties e he).imp hpq, fun s hs => (h.flattened s hs).imp hpq⟩

namespace Schema.NodeRules

variable {p : Program} {P Said : Schema → Prop} (rules : NodeRules p P Said) {s : Schema}
  {ss : List Schema}

include rules

section Built

theorem built (hs : Fresh s) (hc : ∀ c ∈ s.children, Every P c) : Every P s :=
  every_iff.mpr ⟨rules.fresh hs, hc⟩

theorem leaf (hs : Fresh s) (hc : s.children = []) : Every P s := rules.built hs (by simp [hc])

theorem typed (type : String) : Every P (typed type) := rules.leaf (.typed type) rfl

theorem withFormat (type format : String) : Every P ((Schema.typed type).withFormat format) :=
  rules.leaf ⟨rfl, nofun, nofun, rfl, rfl⟩ rfl

theorem empty : Every P {} := rules.leaf ⟨rfl, nofun, nofun, rfl, rfl⟩ rfl

theorem array (h : Every P s) : Every P (array s) :=
  rules.built ⟨rfl, nofun, nofun, rfl, rfl⟩ (by simpa [Schema.array, children] using h)

theorem allOf (h : ∀ s ∈ ss, Every P s) : Every P { allOf := some ss } :=
  rules.built ⟨rfl, nofun, nofun, rfl, rfl⟩ (by simpa [children] using h)

theorem oneOf (h : ∀ s ∈ ss, Every P s) : Every P { oneOf := some ss } :=
  rules.built ⟨rfl, nofun, nofun, rfl, rfl⟩ (by simpa [children] using h)

theorem object {properties : List (String × Schema)} (required : List String)
    (hn : (properties.map Prod.fst).Nodup) (h : ∀ e ∈ properties, Every P e.2) :
    Every P (object properties required) := by
  refine rules.built (.object required hn) fun c hc => ?_
  obtain ⟨k, he⟩ : ∃ k, (k, c) ∈ properties := by simpa [Schema.object, children] using hc
  exact h _ he

theorem tuple (h : ∀ s ∈ ss, Every P s) : Every P (tuple ss) :=
  every_tuple h (rules.fresh ⟨rfl, nofun, nofun, rfl, rfl⟩)
    fun _ => rules.fresh ⟨rfl, nofun, nofun, rfl, rfl⟩

theorem ofPrimitive? {name : String} (h : ofPrimitive? name = some s) : Every P s := by
  unfold Schema.ofPrimitive? at h
  split_ifs at h <;> cases h
  all_goals exact rules.leaf ⟨rfl, nofun, nofun, rfl, rfl⟩ rfl

theorem ofLibrary? {name : String} (h : ofLibrary? name = some s) : Every P s := by
  unfold Schema.ofLibrary? at h
  split at h
  · cases h
    exact rules.withFormat _ _
  · split_ifs at h
    cases h
    exact rules.empty

theorem taggedVariant (tag name : String) {payload : Option Schema}
    (h : ∀ s, payload = some s → Every P s) : Every P (taggedVariant tag name payload) := by
  have hname : Every P (oneText name) :=
    rules.leaf ⟨rfl, nofun, fun vs hvs => ⟨name, (Option.some.inj hvs).symm⟩, rfl, rfl⟩ rfl
  have htag : ∀ e ∈ [(tag, oneText name)], Every P e.2 := List.forall_mem_singleton.mpr hname
  have hnodup : ([(tag, oneText name)].map Prod.fst).Nodup := List.nodup_singleton tag
  unfold TypeCompiler.taggedVariant
  dsimp only
  split
  · exact rules.object _ hnodup htag
  · next s =>
    split
    · next fields hf =>
      have hfields : ∀ e ∈ fields, Every P e.2 := fun e he =>
        (h s rfl).of_mem_children (mem_children.mpr (.inl ⟨fields, hf, e.1, he⟩))
      exact rules.object _ (nodup_map_fst_foldl_setKey hnodup)
        fun e he => (mem_foldl_setKey he).elim (hfields e) (htag e)
    · refine rules.allOf (List.forall_mem_cons.mpr ⟨rules.object _ hnodup htag, ?_⟩)
      exact List.forall_mem_singleton.mpr (h s rfl)

theorem variantSchema (tag : Option String) (name : String) {payload : Option Schema}
    (h : ∀ s, payload = some s → Every P s) : Every P (variantSchema tag name payload) := by
  unfold TypeCompiler.variantSchema
  split
  · exact rules.leaf ⟨rfl, nofun, fun vs hvs => ⟨name, (Option.some.inj hvs).symm⟩, rfl, rfl⟩ rfl
  · exact rules.object _ (List.nodup_singleton name) (List.forall_mem_singleton.mpr (h _ rfl))
  · exact rules.taggedVariant _ _ h

theorem objectParts {o : ObjectParts} (h : o.Every P) : Every P o.schema := by
  have hobject := rules.object o.required h.names h.properties
  unfold ObjectParts.schema
  dsimp only
  split
  · exact hobject
  · exact rules.allOf
      (List.forall_mem_append.mpr ⟨h.flattened, List.forall_mem_singleton.mpr hobject⟩)

end Built

section Saying

theorem withDescription (text : Option String) (h : Said s) : Said (s.withDescription text) := by
  cases text with
  | none => exact h
  | some text => exact rules.described text h

/-- What is said about a schema that is no reference stays with it. -/
theorem of_said (hr : s.reference = none) (h : Said s) : Every P s :=
  settle_of_reference_eq_none hr ▸ rules.settled h

theorem undeclared (text : String) : Every P (Schema.withExtension typeKey (.str text) {}) :=
  rules.of_said rfl
    (rules.extended (by simp [remarkKeys]) (by simp [Json.KeysDistinct]) (rules.said rules.empty))

theorem fieldType {f : FieldType} (h : Every P f.schema) : Every P f.settled := by
  unfold FieldType.settled
  split
  · exact rules.settled (rules.said h)
  · exact rules.settled (rules.extended (by simp [remarkKeys])
      (by simp [Json.KeysDistinct, Json.ofNat]) (rules.said h))

theorem ofField (field : Field) (container : SerialAttrs) {f : FieldType} (h : Every P f.schema) :
    Every P (FieldSchema.ofField field container f).schema := by
  have hd := rules.withDescription (Docs.ofAttrs field.attrs).text (rules.said (rules.fieldType h))
  have extended {key text : String} {s : Schema} (hk : key ∈ remarkKeys) (hs : Said s) :
      Said (s.withExtension key (.str text)) :=
    rules.extended hk (by simp [Json.KeysDistinct]) hs
  refine rules.settled ?_
  split
  · refine extended (by simp [remarkKeys]) ?_
    split
    · exact hd
    · exact extended (by simp [remarkKeys]) hd
  · split
    · exact hd
    · exact extended (by simp [remarkKeys]) hd

theorem variant (tag : Option String) (name : String) (text : Option String)
    {payload : Option Schema} (h : ∀ s, payload = some s → Every P s) :
    Every P ((TypeCompiler.variantSchema tag name payload).withDescription text) := by
  refine rules.built ((Fresh.variantSchema tag name payload).withDescription text) ?_
  rw [children_withDescription]
  exact (every_iff.mp (rules.variantSchema tag name h)).2

theorem enumeration {d : Declared EnumItem} {members : List EnumMember} (hd : d ∈ p.enums)
    (h : EnumMember.ofVariants ⟨p, d.module, some d.item.name⟩ d.item = some members) :
    Every P ((Schema.typed "string").enumerate members) :=
  rules.of_said reference_enumerate
    (rules.enumerated (.variants hd h) (.inl (.typed _)) (rules.said (rules.typed _)))

theorem ofType (d : TypeDecl) (h : Every P s) :
    Every P (TypeCompiler.described p d s) := by
  have hdocs : Said (documented (Docs.ofAttrs d.attrs).text s) := by
    unfold documented
    split
    · exact rules.described _ (rules.said h)
    · exact rules.said h
  refine rules.settled
    (rules.extended (by simp [remarkKeys]) (by simp [Json.KeysDistinct]) ?_)
  unfold withConstants
  split
  · split
    · next hc =>
      exact rules.enumerated (.constants hc) (.inr (EnumMember.ofConstants_eq_some.mp hc).2) hdocs
    · exact hdocs
  · exact hdocs

end Saying

/-- The compiler of types keeps what holds of every schema inside. -/
theorem schemaRules : SchemaRules p (Every P) (ObjectParts.Every P) where
  empty := rules.empty
  binary := rules.withFormat _ _
  primitive := rules.ofPrimitive?
  library := rules.ofLibrary?
  undeclared := rules.undeclared
  settled := rules.fieldType
  field := rules.ofField
  array := rules.array
  fixed _ _ h :=
    rules.built ⟨rfl, nofun, nofun, rfl, rfl⟩ (by simpa [Schema.array, children] using h)
  set h := rules.built ⟨rfl, nofun, nofun, rfl, rfl⟩ (by simpa [Schema.array, children] using h)
  map h := rules.built ⟨rfl, nofun, nofun, rfl, rfl⟩ (by simpa [Schema.typed, children] using h)
  tuple := rules.tuple
  parts := ⟨List.nodup_nil, by simp, by simp⟩
  addField ho hf := ⟨nodup_map_fst_setKey ho.names,
    fun e he => (mem_setKey he).elim (fun h => h ▸ hf) (ho.properties e), ho.flattened⟩
  addFlattened ho hs := ⟨ho.names, ho.properties,
    List.forall_mem_append.mpr ⟨ho.flattened, List.forall_mem_singleton.mpr hs⟩⟩
  object := rules.objectParts
  unit := rules.object _ List.nodup_nil (by simp)
  variant := rules.variant
  enumeration := rules.enumeration
  oneOf := rules.oneOf
  described d _ := rules.ofType d

omit rules in
/-- What holds of every schema inside may depend on the names of components. -/
theorem nameRules {P Said : SchemaTable → Schema → Prop}
    (rules : ∀ t, NodeRules p (P t) (Said t))
    (ref : ∀ {t name}, SchemaTable.Named t name → P t (.ref name))
    (mono : ∀ {t t' s}, (∀ name, SchemaTable.Named t name → SchemaTable.Named t' name) → P t s →
      P t' s) : NameRules p (fun t => Every (P t)) (fun t => ObjectParts.Every (P t)) where
  schemas t := (rules t).schemaRules
  ref h := every_iff.mpr ⟨ref h, by simp [Schema.ref, children]⟩
  mono hn h := h.imp fun _ => mono hn
  mono_parts hn h := h.imp fun _ => mono hn

end Schema.NodeRules

end ServiceContract
