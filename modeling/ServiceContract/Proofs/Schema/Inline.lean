import ServiceContract.Proofs.Schema.Compiles
import ServiceContract.Proofs.Schema.Enumeration
import ServiceContract.Proofs.Schema.Occurrences

/-! # Schemas in place

The schema of a type where it is written lists no values and no properties, for a declared type is a
reference there. It is a reference if the type is a use of a declared struct or enum, or of an alias
whose target is one, and no pointer stands around it; what is said about the pointers encloses the
reference.
-/

namespace ServiceContract

open Source TypeCompiler SchemaTable Work

namespace Program

/-- The target of the alias that a type without wrappers is a use of. -/
def aliased? (p : Program) (x : Occurrence) : Option Occurrence :=
  match x.type with
  | .path segments args =>
    match builtinParts? ⟨segments, args⟩, p.findType ⟨segments, args⟩ x.module with
    | none, some (.typeAlias a) =>
      some ⟨((TypeDecl.typeAlias a).substitution args).apply a.item.target, a.module⟩
    | _, _ => none
  | _ => none

/-- A type without pointers around it is a use of a declared struct or enum, or of an alias whose
target is one. -/
inductive Refers (p : Program) : Occurrence → Prop
  | component {x} : (Layers.ofType x.type).pointers = 0 → (p.component? x.bare).isSome →
    p.Refers x
  | alias {x y} : (Layers.ofType x.type).pointers = 0 → p.aliased? x.bare = some y → p.Refers y →
    p.Refers x

variable {p : Program} {x : Occurrence}

theorem refers_iff_bare :
    p.Refers x ↔ (Layers.ofType x.type).pointers = 0 ∧ p.Refers x.bare := by
  have hbare : Layers.ofType x.bare.type = { type := x.bare.type } := Layers.ofType_type x.type
  have htwice : x.bare.bare = x.bare := by rw [Occurrence.bare, hbare]
  constructor
  · rintro (⟨hp, hc⟩ | ⟨hp, ha, hy⟩)
    · exact ⟨hp, .component (by rw [hbare]) (htwice.symm ▸ hc)⟩
    · exact ⟨hp, .alias (by rw [hbare]) (htwice.symm ▸ ha) hy⟩
  · rintro ⟨hp, ⟨-, hc⟩ | ⟨-, ha, hy⟩⟩
    · exact .component hp (htwice ▸ hc)
    · exact .alias hp (htwice ▸ ha) hy

theorem refers_iff (hx : Layers.ofType x.type = { type := x.type }) :
    p.Refers x ↔ (p.component? x).isSome ∨ ∃ y, p.aliased? x = some y ∧ p.Refers y := by
  have hbare : x.bare = x := by rw [Occurrence.bare, hx]
  constructor
  · rintro (⟨-, hc⟩ | ⟨-, ha, hy⟩)
    · exact .inl (hbare ▸ hc)
    · exact .inr ⟨_, hbare ▸ ha, hy⟩
  · rintro (hc | ⟨y, ha, hy⟩)
    · exact .component (by rw [hx]) (hbare.symm ▸ hc)
    · exact .alias (by rw [hx]) (hbare.symm ▸ ha) hy

end Program

namespace Schema

/-- The schema lists no values, no labels and no properties. -/
structure Inline (s : Schema) : Prop where
  values : s.values = none
  labels : s.labels? = none
  properties : s.properties = none

/-- The schema lists nothing, and is no reference. -/
structure Plain (s : Schema) : Prop extends s.Inline where
  reference : s.reference = none

variable {s : Schema}

theorem Inline.withExtension (h : s.Inline) {key : String} (value : Json) (hk : key ≠ labelsKey) :
    (s.withExtension key value).Inline :=
  ⟨h.values, (labels?_withExtension hk).trans h.labels, h.properties⟩

theorem Inline.settle (h : s.Inline) : s.settle.Inline := by
  unfold Schema.settle
  split
  · exact ⟨rfl, h.labels, rfl⟩
  · exact h

theorem reference_settle_of_decorated (h : s.decorated = true) : s.settle.reference = none := by
  cases hr : s.reference with
  | none => rw [settle_of_reference_eq_none hr, hr]
  | some r => rw [settle_of_decorated hr h]

theorem settle_settle : s.settle.settle = s.settle := by
  by_cases h : s.decorated = true
  · exact settle_of_reference_eq_none (reference_settle_of_decorated h)
  · have hs : s.settle = s := by simp [Schema.settle, h]
    rw [hs, hs]

theorem plain_ofPrimitive? {name : String} (h : ofPrimitive? name = some s) : s.Plain := by
  unfold ofPrimitive? at h
  split_ifs at h <;> cases h <;> exact ⟨⟨rfl, rfl, rfl⟩, rfl⟩

theorem plain_ofLibrary? {name : String} (h : ofLibrary? name = some s) : s.Plain := by
  unfold ofLibrary? at h
  split at h
  · cases h
    exact ⟨⟨rfl, rfl, rfl⟩, rfl⟩
  · split_ifs at h
    cases h
    exact ⟨⟨rfl, rfl, rfl⟩, rfl⟩

/-- The schema of a type in place: it lists nothing and is settled, and it is a reference exactly if
the type is a use of a component. -/
structure InPlace (p : Program) (x : Occurrence) (s : Schema) : Prop extends s.Inline where
  settled : s.settle = s
  reference : s.reference.isSome = true ↔ p.Refers x

theorem Plain.inPlace {p : Program} {x : Occurrence} (h : s.Plain) (hx : ¬ p.Refers x) :
    s.InPlace p x :=
  ⟨h.toInline, settle_of_reference_eq_none h.reference, by simp [h.reference, hx]⟩

/-- What is said about pointers encloses a reference. -/
theorem InPlace.attached {p : Program} {x : Occurrence} {f : FieldType}
    (h : f.schema.InPlace p x.bare) (hp : f.pointers = (Layers.ofType x.type).pointers) :
    f.settled.InPlace p x := by
  unfold FieldType.settled
  rw [hp]
  split
  · next h₀ =>
    rw [h.settled]
    refine ⟨h.toInline, h.settled, h.reference.trans ?_⟩
    exact (Program.refers_iff_bare.trans (and_iff_right h₀)).symm
  · next h₀ =>
    refine ⟨(h.withExtension _ (by decide)).settle, settle_settle, ?_⟩
    rw [reference_settle_of_decorated decorated_withExtension, Program.refers_iff_bare]
    simp [h₀]

end Schema

/-- Effects of no account. -/
def anyEffects : Effects SchemaTable where
  Step _ _ := True
  Fails _ _ _ := True
  refl _ := trivial
  trans _ _ := trivial
  fails_trans _ _ := trivial

theorem meets_anyEffects {α : Type} (x : Compile α) (t : SchemaTable) :
    Meets anyEffects x t fun _ _ => True := by
  unfold Meets
  rcases x.runOn t with ⟨e | a, t'⟩
  · trivial
  · exact ⟨trivial, trivial⟩

namespace TypeCompiler

variable {p : Program} {inner : TypeCompiler} {module : List String} {T : SchemaTable}

/-- A compiler of types describes them in place. -/
def DescribesInPlace (p : Program) (inner : TypeCompiler) : Prop :=
  ∀ type module T, Meets anyEffects (inner.schemaOf type module) T fun _ s =>
    s.InPlace p ⟨type, module⟩

theorem plain_tupleOf (types : List TypeExpr) :
    Meets anyEffects (inner.tupleOf types module) T fun _ s => s.Plain :=
  (meets_anyEffects _ T).bind fun _ _ _ _ => .pure ⟨⟨rfl, rfl, rfl⟩, rfl⟩

/-- A type whose name is not looked up is described by a schema of its own. -/
theorem plain_pathOf {path : TypePath} {ts : List TypeExpr} (h : builtinParts? path = some ts) :
    Meets anyEffects (inner.pathOf p path module) T fun _ s => s.Plain := by
  obtain ⟨segments, args⟩ := path
  have hplain {x : Compile Schema} {f : Schema → Schema} (hf : ∀ s, (f s).Plain) :
      Meets anyEffects (x >>= fun s => pure (f s)) T fun _ s => s.Plain :=
    (meets_anyEffects x T).bind fun _ _ _ _ => .pure (hf _)
  unfold builtinParts? at h
  unfold pathOf
  split
  · next hs => exact .pure (Schema.plain_ofPrimitive? hs)
  · next hs =>
    simp only [hs, Option.isSome_none, Bool.false_eq_true, if_false] at h
    cases args with
    | nil => cases h
    | cons item rest =>
      dsimp only at h ⊢
      split
      · exact hplain fun _ => ⟨⟨rfl, rfl, rfl⟩, rfl⟩
      · split
        · exact hplain fun _ => ⟨⟨rfl, rfl, rfl⟩, rfl⟩
        · next hlist hset =>
          simp only [hlist, hset, Bool.or_self, Bool.false_eq_true, if_false] at h
          cases rest with
          | nil => cases h
          | cons value more =>
            dsimp only at h ⊢
            split
            · split
              · exact hplain fun _ => ⟨⟨rfl, rfl, rfl⟩, rfl⟩
              · exact trivial
            · next hmap =>
              rw [if_neg hmap] at h
              cases h

theorem not_refers_builtin {segments : List String} {args : List TypeExpr} {ts : List TypeExpr}
    (hl : Layers.ofType (.path segments args) = { type := .path segments args })
    (h : builtinParts? ⟨segments, args⟩ = some ts) : ¬ p.Refers ⟨.path segments args, module⟩ := by
  rw [Program.refers_iff hl]
  simp [Program.component?, Program.aliased?, h]

/-- A declared struct or enum is a reference. -/
theorem inPlace_componentOf {x : Occurrence} (hx : p.Refers x) (d : TypeDecl)
    (args : List TypeExpr) (expand : Compile Schema) :
    Meets anyEffects (componentOf p d args expand) T fun _ s => s.InPlace p x := by
  have href (name : String) : (Schema.ref name).InPlace p x :=
    ⟨⟨rfl, rfl, rfl⟩, rfl, iff_of_true rfl hx⟩
  unfold Meets
  rw [runOn_componentOf]
  cases T.definition? (d.key args) with
  | some found => exact ⟨trivial, href _⟩
  | none =>
    dsimp only
    rcases expand.runOn _ with ⟨e | s, t'⟩
    · trivial
    · exact ⟨trivial, href _⟩

section Described

variable (hi : DescribesInPlace p inner)

include hi

theorem inPlace_namedOf {segments : List String} {args : List TypeExpr}
    (hl : Layers.ofType (.path segments args) = { type := .path segments args })
    (hb : builtinParts? ⟨segments, args⟩ = none) :
    Meets anyEffects (inner.namedOf p ⟨segments, args⟩ module) T fun _ s =>
      s.InPlace p ⟨.path segments args, module⟩ := by
  have hrefers := p.refers_iff (x := ⟨.path segments args, module⟩) hl
  unfold namedOf
  unfold Program.component? Program.aliased? at hrefers
  dsimp only at hrefers
  split
  · next d hd =>
    simp only [hb, hd] at hrefers
    cases d with
    | typeAlias a =>
      refine (hi _ a.module T).imp fun _ s _ hs => ⟨hs.toInline, hs.settled, ?_⟩
      simpa [hrefers] using hs.reference
    | struct d => exact inPlace_componentOf (hrefers.mpr (.inl rfl)) _ _ _
    | enum d => exact inPlace_componentOf (hrefers.mpr (.inl rfl)) _ _ _
  · next hd =>
    have hnot : ¬ p.Refers ⟨.path segments args, module⟩ := by simp [hrefers, hb, hd]
    split
    · next h => exact .pure ((Schema.plain_ofLibrary? h).inPlace hnot)
    · split
      · exact trivial
      · refine .pure (Schema.Plain.inPlace ⟨?_, rfl⟩ hnot)
        exact Schema.Inline.withExtension ⟨rfl, rfl, rfl⟩ _ (by decide)

theorem inPlace_shapeOf {type : TypeExpr} (hl : Layers.ofType type = { type := type }) :
    Meets anyEffects (inner.shapeOf p type module) T fun _ s => s.InPlace p ⟨type, module⟩ := by
  have hnot (h : p.component? ⟨type, module⟩ = none ∧ p.aliased? ⟨type, module⟩ = none) :
      ¬ p.Refers ⟨type, module⟩ := by
    rw [Program.refers_iff hl, h.1, h.2]
    simp
  cases type with
  | path segments args =>
    rcases pathOf_cases p ⟨segments, args⟩ module with ⟨hb, hnamed⟩ | ⟨ts, hb, -⟩
    · rw [shapeOf, hnamed]
      exact inPlace_namedOf hi hl hb
    · exact (plain_pathOf hb).imp fun _ _ _ hs => hs.inPlace (not_refers_builtin hl hb)
  | slice item | array item n =>
    refine (meets_anyEffects _ T).bind fun _ _ _ _ => .pure ?_
    exact Schema.Plain.inPlace ⟨⟨rfl, rfl, rfl⟩, rfl⟩ (hnot ⟨rfl, rfl⟩)
  | tuple types =>
    cases types with
    | nil => exact .pure (Schema.Plain.inPlace ⟨⟨rfl, rfl, rfl⟩, rfl⟩ (hnot ⟨rfl, rfl⟩))
    | cons t ts => exact (plain_tupleOf _).imp fun _ _ _ hs => hs.inPlace (hnot ⟨rfl, rfl⟩)
  | dynamic | unknown =>
    exact .pure (Schema.Plain.inPlace ⟨⟨rfl, rfl, rfl⟩, rfl⟩ (hnot ⟨rfl, rfl⟩))
  | ref t =>
    have htype : (Layers.ofType (.ref t)).type = (Layers.ofType t).type := by
      rw [Layers.ofType]
      split <;> rfl
    rw [hl] at htype
    have := TypeExpr.size_le_of_mem_parts (Layers.ofType_type_mem t)
    rw [← htype, TypeExpr.size] at this
    omega

end Described

theorem describesInPlace_within (p : Program) (n : Nat) : DescribesInPlace p (within p n) := by
  induction n with
  | zero => exact fun _ _ _ => trivial
  | succ n ih =>
    intro type module T
    have hfield : Meets anyEffects (within p (n + 1) type module) T fun _ f =>
        f.schema.InPlace p (Occurrence.bare ⟨type, module⟩) ∧
          f.pointers = (Layers.ofType type).pointers :=
      (inPlace_shapeOf ih (Layers.ofType_type type)).bind fun _ _ _ hs => .pure ⟨hs, rfl⟩
    exact hfield.bind fun f _ _ hf => .pure (hf.1.attached hf.2)

end TypeCompiler

end ServiceContract
