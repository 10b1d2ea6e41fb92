import ServiceContract.Proofs.Schema.Inline

/-! # What the schema of a component enumerates

The schema of a component lists the values of its variants, if it is an enum of unit variants only.
Any other one lists no values before the constants are looked up by the name of the type. A
component that is a reference by itself says what it says around the reference, and loses the
values there.
-/

namespace ServiceContract

open Source TypeCompiler SchemaTable Work

namespace Schema

/-- The schema lists the labels of members, and their values too unless it encloses a reference. -/
structure Shows (s : Schema) (members : List EnumMember) : Prop where
  labels : s.labels? = some (EnumMember.labels members)
  values : s.values = some (EnumMember.values members) ∨
    s.values = none ∧ ∃ r, s.allOf = some [{ reference := some r }]

/-- The schema lists no values and no labels. -/
structure Unlisted (s : Schema) : Prop where
  values : s.values = none
  labels : s.labels? = none

variable {s : Schema} {members : List EnumMember}

theorem Inline.unlisted (h : s.Inline) : s.Unlisted := ⟨h.values, h.labels⟩

@[simp] theorem labels?_settle : s.settle.labels? = s.labels? := by
  unfold Schema.settle
  split <;> rfl

theorem Shows.settle (h : s.Shows members) : s.settle.Shows members := by
  refine ⟨labels?_settle.trans h.labels, ?_⟩
  unfold Schema.settle
  split
  · next hd =>
    obtain ⟨r, hr⟩ := Option.isSome_iff_exists.mp (Bool.and_eq_true_iff.mp hd).1
    exact .inr ⟨rfl, r, by rw [hr]⟩
  · exact h.values

theorem Unlisted.settle (h : s.Unlisted) : s.settle.Unlisted := by
  refine ⟨?_, labels?_settle.trans h.labels⟩
  unfold Schema.settle
  split
  · rfl
  · exact h.values

end Schema

/-- The variants that the schema of an enum lists. -/
def TypeDecl.variants? (p : Program) : TypeDecl → Option (List EnumMember)
  | .enum e => EnumMember.ofVariants ⟨p, e.module, some e.item.name⟩ e.item
  | _ => none

/-- The type of the only field of a struct without field names. -/
def TypeDecl.newtype? : TypeDecl → Option TypeExpr
  | .struct ⟨_, { fields := .unnamed [f], .. }⟩ => some f.type
  | _ => none

namespace TypeCompiler

variable {p : Program} {inner : TypeCompiler} {module : List String} {T : SchemaTable}
  {σ : Substitution} {d : TypeDecl} {s : Schema} {members : List EnumMember}

/-! ## What a component is the description of -/

theorem unlisted_objectOf (container : SerialAttrs) (o : ObjectParts) (fields : List Field) :
    Meets anyEffects (inner.objectOf σ container module o fields) T fun _ s => s.Unlisted := by
  induction fields generalizing o T with
  | nil =>
    refine .pure ?_
    unfold ObjectParts.schema
    dsimp only
    split <;> exact ⟨rfl, rfl⟩
  | cons field rest ih =>
    unfold objectOf
    dsimp only
    split
    · exact ih o
    · split
      · split
        · exact .pure ⟨rfl, rfl⟩
        · exact (meets_anyEffects _ T).bind fun _ _ _ _ => ih _
      · exact (meets_anyEffects _ T).bind fun _ _ _ _ => ih _

section Expansion

variable (hi : DescribesInPlace p inner)

include hi

theorem unlisted_structOf (d : Declared StructItem) :
    Meets anyEffects (inner.structOf σ d) T fun _ s => s.Unlisted := by
  unfold structOf
  split
  · exact .pure ⟨rfl, rfl⟩
  · unfold unnamedOf
    split
    · exact (hi _ _ T).imp fun _ _ _ hs => hs.unlisted
    · exact (plain_tupleOf _).imp fun _ _ _ hs => hs.unlisted
  · exact unlisted_objectOf _ _ _

/-- A newtype is described by the type of its field. -/
theorem inPlace_expansionOf {type : TypeExpr} (hd : d.newtype? = some type)
    (args : List TypeExpr) : Meets anyEffects (expansionOf p inner d args) T fun _ s =>
      s.InPlace p ⟨(d.substitution args).apply type, d.module⟩ := by
  unfold TypeDecl.newtype? at hd
  split at hd
  · cases hd
    exact hi _ _ T
  · cases hd

/-- Only the variants of an enum are listed before the constants are looked up. -/
theorem lists_expansionOf (d : TypeDecl) (args : List TypeExpr) :
    Meets anyEffects (expansionOf p inner d args) T fun _ s =>
      (∀ members ∈ d.variants? p, s = (Schema.typed "string").enumerate members) ∧
        (d.variants? p = none → s.Unlisted) := by
  cases d with
  | struct d => exact (unlisted_structOf hi d).imp fun _ _ _ hs => ⟨nofun, fun _ => hs⟩
  | enum e =>
    unfold expansionOf TypeDecl.variants? enumOf
    dsimp only
    split
    · next h => exact .pure ⟨fun _ hm => by cases h.symm.trans hm; rfl, by simp [h]⟩
    · next h =>
      exact (meets_anyEffects _ T).bind fun _ _ _ _ => .pure ⟨by simp [h], fun _ => ⟨rfl, rfl⟩⟩
  | typeAlias a => exact (hi _ _ T).imp fun _ _ _ hs => ⟨nofun, fun _ => hs.unlisted⟩

end Expansion

/-! ## What a description adds -/

theorem documented_eq (docs : Option String) (s : Schema) :
    ∃ description, documented docs s = { s with description := description } := by
  cases docs with
  | none => exact ⟨s.description, by cases s; rfl⟩
  | some text => exact ⟨_, rfl⟩

/-- The constants of a type are not looked up for a schema that lists values or properties. -/
theorem described_otherwise (h : s.values.isSome ∨ s.properties.isSome ∨
    EnumMember.ofConstants p d.name = none) : ∃ description, described p d s =
      (Schema.withExtension Schema.typeKey (.str d.name)
        { s with description := description }).settle := by
  obtain ⟨description, hd⟩ := documented_eq (Docs.ofAttrs d.attrs).text s
  refine ⟨description, ?_⟩
  unfold described withConstants
  rw [hd]
  dsimp only
  split
  · next hnone =>
    rw [Bool.and_eq_true, Option.isNone_iff_eq_none, Option.isNone_iff_eq_none] at hnone
    rw [(by simpa [hnone] using h : EnumMember.ofConstants p d.name = none)]
  · rfl

theorem described_constants (hv : s.values = none) (hp : s.properties = none)
    (hc : EnumMember.ofConstants p d.name = some members) : ∃ description, described p d s =
      (Schema.withExtension Schema.typeKey (.str d.name)
        (Schema.enumerate members { s with description := description })).settle := by
  obtain ⟨description, hd⟩ := documented_eq (Docs.ofAttrs d.attrs).text s
  refine ⟨description, ?_⟩
  unfold described withConstants
  rw [hd]
  simp [hv, hp, hc]

theorem labels?_constants (hc : EnumMember.ofConstants p d.name = some members) (name : Json) :
    (Schema.withExtension Schema.typeKey name (s.enumerate members)).labels? =
      some (EnumMember.labels members) := by
  rw [Schema.labels?_withExtension (by decide),
    Schema.labels?_enumerate (EnumMember.ofConstants_eq_some.mp hc).2]

/-- The variants that an enum lists stay. -/
theorem described_enumerate (hs : s = (Schema.typed "string").enumerate members) :
    (described p d s).values = some (EnumMember.values members) ∧
      (described p d s).labels? = s.labels? := by
  obtain ⟨description, hd⟩ := described_otherwise (p := p) (d := d) (s := s) (.inl (by simp [hs]))
  have hr : s.reference = none := by rw [hs, Schema.reference_enumerate]; rfl
  rw [hd, Schema.settle_of_reference_eq_none]
  · exact ⟨by simp [hs, Schema.withExtension], Schema.labels?_withExtension (by decide)⟩
  · exact hr

/-- A component that would list nothing shows the constants that are found by the name of its type,
or lists nothing. -/
theorem described_unlisted (h : s.Unlisted) : (described p d s).Unlisted ∨
    ∃ members, EnumMember.ofConstants p d.name = some members ∧
      (described p d s).Shows members := by
  by_cases hconst : s.properties = none ∧
    ∃ members, EnumMember.ofConstants p d.name = some members
  · obtain ⟨hp, members, hc⟩ := hconst
    obtain ⟨description, hd⟩ := described_constants h.values hp hc
    exact .inr ⟨members, hc,
      hd ▸ Schema.Shows.settle ⟨labels?_constants hc _, .inl Schema.values_enumerate⟩⟩
  · have hother : s.properties.isSome ∨ EnumMember.ofConstants p d.name = none := by
      rw [not_and_or, not_exists, ← Option.eq_none_iff_forall_ne_some] at hconst
      exact hconst.imp_left Option.isSome_iff_ne_none.mpr
    obtain ⟨description, hd⟩ := described_otherwise (.inr hother)
    refine .inl (hd ▸ Schema.Unlisted.settle ⟨h.values, ?_⟩)
    exact (Schema.labels?_withExtension (by decide)).trans h.labels

/-- A schema that is no reference lists the constants with their labels. -/
theorem described_plain (h : s.Plain) (hc : EnumMember.ofConstants p d.name = some members) :
    (described p d s).labels? = some (EnumMember.labels members) ∧
      (described p d s).values = some (EnumMember.values members) := by
  obtain ⟨description, hd⟩ := described_constants h.values h.properties hc
  rw [hd, Schema.settle_of_reference_eq_none]
  · exact ⟨labels?_constants hc _, Schema.values_enumerate⟩
  · exact Schema.reference_enumerate.trans h.reference

/-- A schema in place shows the constants, with their values exactly if it is no reference. -/
theorem described_inPlace {x : Occurrence} (h : s.InPlace p x)
    (hc : EnumMember.ofConstants p d.name = some members) :
    (described p d s).labels? = some (EnumMember.labels members) ∧
      (¬ p.Refers x → (described p d s).values = some (EnumMember.values members)) ∧
      (p.Refers x → (described p d s).values = none ∧
        ∃ r, (described p d s).allOf = some [{ reference := some r }]) := by
  cases hr : s.reference with
  | none =>
    have hx : ¬ p.Refers x := by simp [← h.reference, hr]
    obtain ⟨hlabels, hvalues⟩ := described_plain ⟨h.toInline, hr⟩ hc
    exact ⟨hlabels, fun _ => hvalues, fun h => absurd h hx⟩
  | some r =>
    have hx : p.Refers x := h.reference.mp (by simp [hr])
    obtain ⟨description, hd⟩ := described_constants h.values h.properties hc
    rw [hd, Schema.labels?_settle, labels?_constants hc,
      Schema.settle_of_decorated (r := r) _ Schema.decorated_withExtension]
    · exact ⟨rfl, fun h => absurd hx h, fun _ => ⟨rfl, r, rfl⟩⟩
    · exact Schema.reference_enumerate.trans hr

end TypeCompiler

end ServiceContract
