import ServiceContract.Proofs.Schema.Inline
import ServiceContract.Proofs.Schema.NodeRules

/-! # How schemas of types are made

The schema of a type where it is written is a reference, or it is made of the schemas of the types
inside. It has no properties and lists no values, at any depth: those stand in components.
-/

namespace ServiceContract

open Source TypeCompiler Work

namespace Schema

/-- The schemas that types have where they are written. -/
inductive Placed : Schema → Prop
  | reference (name : String) : Placed (.ref name)
  | primitive {name s} : ofPrimitive? name = some s → Placed s
  | library {name s} : ofLibrary? name = some s → Placed s
  | undeclared (text : String) : Placed (withExtension typeKey (.str text) {})
  | empty : Placed {}
  | array {s} : Placed s → Placed (.array s)
  | fixed {s} (n : Option Nat) : Placed s →
      Placed { Schema.array s with minItems := n, maxItems := n }
  | set {s} : Placed s → Placed { Schema.array s with uniqueItems := some true }
  | map {s} : Placed s → Placed { typed "object" with additionalProperties := some s }
  | tuple {ss} : ss ≠ [] → (∀ s ∈ ss, Placed s) → Placed (.tuple ss)
  | settled {f : FieldType} : Placed f.schema → Placed f.settled

end Schema

namespace TypeCompiler

variable {p : Program} {inner : TypeCompiler} {module : List String} {T : SchemaTable}

/-- A compiler of types makes the schemas of the types where they are written. -/
def Places (inner : TypeCompiler) : Prop :=
  ∀ type module T, Meets anyEffects (inner type module) T fun _ f => f.schema.Placed

section Level

variable (hi : Places inner)

include hi

theorem Places.schemaOf (type : TypeExpr) :
    Meets anyEffects (inner.schemaOf type module) T fun _ s => s.Placed :=
  (hi type module T).bind fun _ _ _ hf => .pure hf.settled

theorem Places.tupleOf (types : List TypeExpr) : Meets anyEffects (inner.tupleOf types module) T
    fun _ s => ∃ ss, s = .tuple ss ∧ ss.length = types.length ∧ ∀ s ∈ ss, s.Placed := by
  refine (Meets.mapM_forall₂ (E := anyEffects) (R := fun _ _ s => Schema.Placed s) (fun _ h => h)
    fun type _ _ _ => hi.schemaOf type).bind fun ss _ _ hss => .pure ?_
  exact ⟨ss, rfl, hss.length_eq.symm, forall_mem_of_forall₂ hss⟩

omit hi in
theorem placed_componentOf (d : TypeDecl) (args : List TypeExpr) (expand : Compile Schema) :
    Meets anyEffects (componentOf p d args expand) T fun _ s => s.Placed := by
  unfold Meets
  rw [runOn_componentOf]
  cases T.definition? (d.key args) with
  | some found => exact ⟨trivial, .reference _⟩
  | none =>
    dsimp only
    rcases expand.runOn _ with ⟨e | s, t'⟩
    · trivial
    · exact ⟨trivial, .reference _⟩

theorem Places.namedOf (path : TypePath) :
    Meets anyEffects (inner.namedOf p path module) T fun _ s => s.Placed := by
  unfold TypeCompiler.namedOf
  split
  · next d _ =>
    cases d with
    | typeAlias a => exact hi.schemaOf _
    | struct d => exact placed_componentOf _ _ _
    | enum e => exact placed_componentOf _ _ _
  · split
    · next h => exact .pure (.library h)
    · split
      · exact trivial
      · exact .pure (.undeclared _)

theorem Places.pathOf (path : TypePath) :
    Meets anyEffects (inner.pathOf p path module) T fun _ s => s.Placed := by
  unfold TypeCompiler.pathOf
  split
  · next h => exact .pure (.primitive h)
  · split
    · exact hi.namedOf path
    · split
      · exact (hi.schemaOf _).bind fun _ _ _ hs => .pure hs.array
      · split
        · exact (hi.schemaOf _).bind fun _ _ _ hs => .pure hs.set
        · split
          · split
            · split
              · exact (hi.schemaOf _).bind fun _ _ _ hs => .pure hs.map
              · exact trivial
            · exact hi.namedOf path
          · exact hi.namedOf path

theorem Places.shapeOf (type : TypeExpr) :
    Meets anyEffects (inner.shapeOf p type module) T fun _ s => s.Placed := by
  unfold TypeCompiler.shapeOf
  split
  · exact hi.pathOf _
  · exact (hi.schemaOf _).bind fun _ _ _ hs => .pure hs.array
  · exact (hi.schemaOf _).bind fun _ _ _ hs => .pure (hs.fixed _)
  · refine (hi.tupleOf _).imp fun _ _ _ => ?_
    rintro ⟨ss, rfl, hlength, hss⟩
    exact .tuple (List.ne_nil_of_length_eq_add_one hlength) hss
  · exact .pure .empty
  · exact .pure .empty
  · exact .pure .empty
  · exact hi.schemaOf _

end Level

theorem places_within (p : Program) (n : Nat) : Places (within p n) := by
  induction n with
  | zero => exact fun _ _ _ => trivial
  | succ n ih => exact fun _ _ _ => (ih.shapeOf _).bind fun _ _ _ hs => .pure hs

end TypeCompiler

namespace Schema

/-- What a schema says itself where a type is written: it has no properties and lists no values, and
no list in it is empty. -/
structure Bare (s : Schema) : Prop where
  properties : s.properties = none
  values : s.values = none
  allOf : s.allOf ≠ some []
  oneOf : s.oneOf ≠ some []
  items : s.type = some "array" → s.items.isSome

variable {s : Schema} {ss : List Schema}

theorem Bare.of_none (hp : s.properties = none) (hv : s.values = none) (hal : s.allOf = none)
    (hon : s.oneOf = none) (hi : s.type = some "array" → s.items.isSome) : s.Bare :=
  ⟨hp, hv, by simp [hal], by simp [hon], hi⟩

theorem bare_reference (r : Option String) : Bare { reference := r } :=
  .of_none rfl rfl rfl rfl (by simp)

theorem Bare.withExtension (h : s.Bare) (key : String) (value : Json) :
    (s.withExtension key value).Bare := ⟨h.properties, h.values, h.allOf, h.oneOf, h.items⟩

theorem Bare.withDescription (h : s.Bare) (text : Option String) :
    (s.withDescription text).Bare := by
  cases text with
  | none => exact h
  | some text => exact ⟨h.properties, h.values, h.allOf, h.oneOf, h.items⟩

theorem Bare.settle (h : s.Bare) : s.settle.Bare := by
  unfold Schema.settle
  split
  · exact ⟨rfl, rfl, by simp, by simp, by simp⟩
  · exact h

theorem every_bare_settle (h : Every Bare s) : Every Bare s.settle :=
  h.settle (h s (.self s)).settle bare_reference

theorem every_bare_withExtension (h : Every Bare s) (key : String) (value : Json) :
    Every Bare (s.withExtension key value) :=
  h.of_children_eq ((h s (.self s)).withExtension key value) rfl

theorem every_bare_undescribed (h : Every Bare s) : Every Bare { s with description := none } := by
  have hs := h s (.self s)
  exact h.of_children_eq ⟨hs.properties, hs.values, hs.allOf, hs.oneOf, hs.items⟩ rfl

theorem every_bare_settled {f : FieldType} (h : Every Bare f.schema) : Every Bare f.settled := by
  unfold FieldType.settled
  split
  · exact every_bare_settle h
  · exact every_bare_settle (every_bare_withExtension h _ _)

/-- The schema of a field differs from that of its type only in what is said besides. -/
theorem every_bare_ofField (field : Field) (container : SerialAttrs) {f : FieldType}
    (h : Every Bare f.schema) : Every Bare (FieldSchema.ofField field container f).schema := by
  have hs := every_bare_settled h
  have hd : Every Bare (f.settled.withDescription (Docs.ofAttrs field.attrs).text) :=
    hs.of_children_eq ((hs _ (.self _)).withDescription _) children_withDescription
  refine every_bare_settle ?_
  split
  · refine every_bare_withExtension ?_ _ _
    split
    · exact hd
    · exact every_bare_withExtension hd _ _
  · split
    · exact hd
    · exact every_bare_withExtension hd _ _

theorem distinct_eq_nil_iff : distinct ss = [] ↔ ss = [] := by
  have kept (ss seen : List Schema) : seen ≠ [] → ss.foldl (fun seen s =>
      if seen.contains s then seen else seen ++ [s]) seen ≠ [] := by
    induction ss generalizing seen with
    | nil => exact id
    | cons s ss ih =>
      intro h
      refine ih _ ?_
      dsimp only
      split <;> simp [h]
  cases ss with
  | nil => simp [distinct]
  | cons s ss => simpa [distinct] using kept ss [s] (List.cons_ne_nil _ _)

/-- Types have bare schemas where they are written, at any depth. -/
theorem Placed.every_bare (h : s.Placed) : Every Bare s := by
  have leaf {s : Schema} (hs : s.Bare) (hc : s.children = []) : Every Bare s :=
    every_iff.mpr ⟨hs, by simp [hc]⟩
  have item {s c : Schema} (hs : s.Bare) (hc : s.children = [c]) (h : Every Bare c) :
      Every Bare s := every_iff.mpr ⟨hs, by simpa [hc] using h⟩
  induction h with
  | reference name => exact leaf (bare_reference _) rfl
  | primitive h =>
    unfold ofPrimitive? at h
    split_ifs at h <;> cases h
    all_goals exact leaf (.of_none rfl rfl rfl rfl (by simp [typed, integer, withFormat])) rfl
  | library h =>
    unfold ofLibrary? at h
    split at h
    · cases h
      exact leaf (.of_none rfl rfl rfl rfl (by simp [typed, withFormat])) rfl
    · split_ifs at h
      cases h
      exact leaf (.of_none rfl rfl rfl rfl (by simp)) rfl
  | undeclared text => exact leaf (.of_none rfl rfl rfl rfl (by simp [Schema.withExtension])) rfl
  | empty => exact leaf (.of_none rfl rfl rfl rfl (by simp)) rfl
  | array _ ih => exact item (.of_none rfl rfl rfl rfl fun _ => rfl) rfl ih
  | fixed n _ ih => exact item (.of_none rfl rfl rfl rfl fun _ => rfl) rfl ih
  | set _ ih => exact item (.of_none rfl rfl rfl rfl fun _ => rfl) rfl ih
  | map _ ih => exact item (.of_none rfl rfl rfl rfl (by simp [typed])) rfl ih
  | tuple hne _ ih =>
    refine every_tuple ih ⟨rfl, rfl, by simp, ?_, by simp⟩ fun _ =>
      .of_none rfl rfl rfl rfl fun _ => rfl
    exact fun h => hne (distinct_eq_nil_iff.mp (Option.some.inj h))
  | settled _ ih => exact every_bare_settled ih

end Schema

/-- So do fields have bare schemas. -/
theorem TypeCompiler.Places.every_bare_fieldOf {inner : TypeCompiler} (hi : Places inner)
    {field : Field} {type : TypeExpr} {container : SerialAttrs} {module : List String}
    {T T' : SchemaTable} {f : FieldSchema}
    (hr : (inner.fieldOf field type container module).runOn T = (.ok f, T')) :
    Schema.Every Schema.Bare f.schema := by
  obtain ⟨compiled, t, ht, hr⟩ := runOn_bind_eq_ok.mp hr
  cases hr
  exact Schema.every_bare_ofField _ _ ((hi type module T).ok ht).2.every_bare

theorem Program.places_compileField (p : Program) : Places p.compileField :=
  fun type => places_within p (p.levels type) type

end ServiceContract
