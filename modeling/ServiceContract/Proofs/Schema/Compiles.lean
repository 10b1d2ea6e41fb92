import ServiceContract.Proofs.Program.Lookup
import ServiceContract.Proofs.Work
import ServiceContract.Schema.OfType

/-! # What compiling types keeps

A property of schemas is carried through the compiler of types: if whatever is built of good
schemas is good, then so is every compiled schema. What is good may depend on the table, as long as
the steps that the compiler makes keep it. The rules are collected for any property and any effects
on the table, and one induction over the levels of expansion serves them all.
-/

namespace ServiceContract

open Source TypeCompiler

/-- What is built of good schemas is good, and what is gathered of them makes good parts. -/
structure SchemaRules (p : Program) (Good : Schema → Prop) (Parts : ObjectParts → Prop) :
    Prop where
  empty : Good {}
  binary : Good Schema.binary
  primitive : ∀ {name s}, Schema.ofPrimitive? name = some s → Good s
  library : ∀ {name s}, Schema.ofLibrary? name = some s → Good s
  undeclared : ∀ text, Good (Schema.withExtension Schema.typeKey (.str text) {})
  settled : ∀ {f : FieldType}, Good f.schema → Good f.settled
  field : ∀ field container {f : FieldType}, Good f.schema →
    Good (FieldSchema.ofField field container f).schema
  array : ∀ {s}, Good s → Good (.array s)
  fixed : ∀ n {s}, Good s → Good { Schema.array s with minItems := n, maxItems := n }
  set : ∀ {s}, Good s → Good { Schema.array s with uniqueItems := some true }
  map : ∀ {s}, Good s → Good { Schema.typed "object" with additionalProperties := some s }
  tuple : ∀ {ss}, (∀ s ∈ ss, Good s) → Good (.tuple ss)
  parts : Parts {}
  addField : ∀ {o} {f : FieldSchema}, Parts o → Good f.schema → Parts (o.addField f)
  addFlattened : ∀ {o : ObjectParts} {s}, Parts o → Good s →
    Parts { o with flattened := o.flattened ++ [s] }
  object : ∀ {o}, Parts o → Good o.schema
  unit : Good (Schema.object [] [])
  variant : ∀ tag name text {payload}, (∀ s, payload = some s → Good s) →
    Good ((variantSchema tag name payload).withDescription text)
  enumeration : ∀ {d : Declared EnumItem} {members}, d ∈ p.enums →
    EnumMember.ofVariants ⟨p, d.module, some d.item.name⟩ d.item = some members →
    Good ((Schema.typed "string").enumerate members)
  oneOf : ∀ {ss}, (∀ s ∈ ss, Good s) → Good { oneOf := some ss }
  described : ∀ d {s}, Good s → Good (described p d s)

/-- A use of a declared type is known, or is entered, expanded and resolved. -/
theorem TypeCompiler.runOn_componentOf (p : Program) (d : TypeDecl) (args : List TypeExpr)
    (expand : Compile Schema) (t : SchemaTable) :
    (componentOf p d args expand).runOn t =
      match t.definition? (d.key args) with
      | some found => (.ok (.ref found.name), t)
      | none =>
        let name := t.freeName d.module (d.componentName args)
        match expand.runOn ((t.enter (d.key args) name none).push (d.key args)) with
        | (.ok s, t') => (.ok (.ref name), t'.pop.resolve (d.key args) (described p d s))
        | (.error e, t') => (.error e, t'.pop) := by
  unfold componentOf
  rw [Work.runOn_bind, Work.runOn_get]
  dsimp only
  cases t.definition? (d.key args) with
  | some found => rfl
  | none =>
    dsimp only
    rw [Work.runOn_bind, Work.runOn_set]
    dsimp only
    rw [Work.runOn_bind, Compile.runOn_expanding]
    rcases expand.runOn _ with ⟨e | s, t'⟩ <;> rfl

/-- The rules for a property of schemas that depends on the table, and for the effects that the
compiler has on it. -/
structure CompileRules (p : Program) (E : Effects SchemaTable)
    (Good : SchemaTable → Schema → Prop) (Parts : SchemaTable → ObjectParts → Prop) : Prop where
  schemas : ∀ t, SchemaRules p (Good t) (Parts t)
  mono : ∀ {t t' s}, E.Step t t' → Good t s → Good t' s
  mono_parts : ∀ {t t' o}, E.Step t t' → Parts t o → Parts t' o
  known : ∀ {t : SchemaTable} {key d}, t.definition? key = some d → Good t (.ref d.name)
  /-- A type is entered, expanded and resolved. -/
  component : ∀ {t t' : SchemaTable} {s} (d : TypeDecl) args, t.definition? (d.key args) = none →
    E.Step ((t.enter (d.key args) (t.freeName d.module (d.componentName args)) none).push
      (d.key args)) t' → Good t' s →
    E.Step t (t'.pop.resolve (d.key args) (described p d s)) ∧
      Good (t'.pop.resolve (d.key args) (described p d s))
        (.ref (t.freeName d.module (d.componentName args)))
  component_fails : ∀ {e} {t t' : SchemaTable} (d : TypeDecl) args,
    t.definition? (d.key args) = none →
    E.Fails e ((t.enter (d.key args) (t.freeName d.module (d.componentName args)) none).push
      (d.key args)) t' → E.Fails e t t'.pop
  endless : ∀ t text, E.Fails (.endlessType text) t t
  unknown : ∀ t name (type : TypeExpr), Schema.looksNumeric name →
    E.Fails (.unknownPrimitive name (t.stack.head?.getD type.text)) t t
  mapKey : ∀ t key (type : TypeExpr),
    E.Fails (.unsupportedMapKey key (t.stack.head?.getD type.text)) t t

namespace CompileRules

open Work

variable {p : Program} {E : Effects SchemaTable} {Good : SchemaTable → Schema → Prop}
  {Parts : SchemaTable → ObjectParts → Prop}

/-- A compiler of types has such effects, and its schemas are good. -/
def Compiles (E : Effects SchemaTable) (Good : SchemaTable → Schema → Prop)
    (inner : TypeCompiler) : Prop :=
  ∀ type module t, Meets E (inner type module) t fun t f => Good t f.schema

variable (rules : CompileRules p E Good Parts) {inner : TypeCompiler}
  (hi : Compiles E Good inner) {σ : Substitution} {t : SchemaTable} {module : List String}

include rules hi

theorem schemaOf (type : TypeExpr) : Meets E (inner.schemaOf type module) t Good :=
  (hi type module t).bind fun _ t' _ hf => .pure ((rules.schemas t').settled hf)

theorem tupleOf (types : List TypeExpr) : Meets E (inner.tupleOf types module) t Good := by
  refine (Meets.mapM (R := Good) rules.mono fun type _ t' _ => rules.schemaOf hi type).bind ?_
  exact fun _ t' _ hs => .pure ((rules.schemas t').tuple hs)

theorem fieldOf (field : Field) (type : TypeExpr) (container : SerialAttrs) :
    Meets E (inner.fieldOf field type container module) t fun t f => Good t f.schema :=
  (hi type module t).bind fun _ t' _ hf => .pure ((rules.schemas t').field field container hf)

theorem objectOf (container : SerialAttrs) {o : ObjectParts} (fields : List Field)
    (ho : Parts t o) : Meets E (inner.objectOf σ container module o fields) t Good := by
  induction fields generalizing o t with
  | nil => exact .pure ((rules.schemas t).object ho)
  | cons field rest ih =>
    unfold TypeCompiler.objectOf
    dsimp only
    split
    · exact ih ho
    · split
      · split
        · exact .pure (rules.schemas t).binary
        · refine (rules.schemaOf hi _).bind fun s t' hs hg => ih ?_
          exact (rules.schemas t').addFlattened (rules.mono_parts hs ho) hg
      · refine (rules.fieldOf hi field _ container).bind fun f t' hs hg => ih ?_
        exact (rules.schemas t').addField (rules.mono_parts hs ho) hg

theorem unnamedOf (fields : List Field) : Meets E (inner.unnamedOf σ module fields) t Good := by
  unfold TypeCompiler.unnamedOf
  split
  · exact rules.schemaOf hi _
  · exact rules.tupleOf hi _

theorem structOf (d : Declared StructItem) : Meets E (inner.structOf σ d) t Good := by
  unfold TypeCompiler.structOf
  split
  · exact .pure (rules.schemas t).unit
  · exact rules.unnamedOf hi _
  · exact rules.objectOf hi _ _ (rules.schemas t).parts

theorem payloadOf (v : Variant) :
    Meets E (inner.payloadOf σ module v) t fun t payload => ∀ s, payload = some s → Good t s := by
  have some_good {x : Compile Schema} (hx : Meets E x t Good) :
      Meets E (some <$> x) t fun t payload => ∀ s, payload = some s → Good t s :=
    .map (hx.imp fun s t' _ hs s' he => Option.some.inj he ▸ hs)
  unfold TypeCompiler.payloadOf
  split
  · exact .pure (by simp)
  · exact some_good (rules.unnamedOf hi _)
  · exact some_good (rules.objectOf hi _ _ (rules.schemas t).parts)

theorem variantOf (container : SerialAttrs) (v : Variant) :
    Meets E (inner.variantOf σ container module v) t Good :=
  (rules.payloadOf hi v).bind fun _ t' _ hs => .pure ((rules.schemas t').variant _ _ _ hs)

theorem enumOf {d : Declared EnumItem} (hd : d ∈ p.enums) :
    Meets E (inner.enumOf p σ d) t Good := by
  unfold TypeCompiler.enumOf
  split
  · next h => exact .pure ((rules.schemas t).enumeration hd h)
  · refine (Meets.mapM (R := Good) rules.mono fun v _ t' _ => rules.variantOf hi _ v).bind ?_
    exact fun _ t' _ hs => .pure ((rules.schemas t').oneOf hs)

omit hi in
theorem componentOf (d : TypeDecl) (args : List TypeExpr) {expand : Compile Schema}
    (he : ∀ t, Meets E expand t Good) : Meets E (componentOf p d args expand) t Good := by
  unfold Meets
  rw [runOn_componentOf]
  cases hd : t.definition? (d.key args) with
  | some found => exact ⟨E.refl t, rules.known hd⟩
  | none =>
    dsimp only
    rcases hr : expand.runOn _ with ⟨e | s, t'⟩
    · exact rules.component_fails d args hd ((he _).error hr)
    · obtain ⟨hs, hg⟩ := (he _).ok hr
      exact rules.component d args hd hs hg

theorem declaredOf {d : TypeDecl} (hd : d ∈ p.types) (args : List TypeExpr) :
    Meets E (inner.declaredOf p d args module) t Good := by
  unfold TypeCompiler.declaredOf
  split
  · exact rules.schemaOf hi _
  · exact rules.componentOf _ _ fun _ => rules.structOf hi _
  · exact rules.componentOf _ _ fun _ => rules.enumOf hi (Program.mem_enums_of_mem_types hd)

theorem namedOf (path : TypePath) : Meets E (inner.namedOf p path module) t Good := by
  unfold TypeCompiler.namedOf
  split
  · next h => exact rules.declaredOf hi (Program.mem_types_of_findType h) _
  · split
    · next h => exact .pure ((rules.schemas t).library h)
    · split
      · next hn => exact rules.unknown t _ _ hn
      · exact .pure ((rules.schemas t).undeclared _)

theorem pathOf (path : TypePath) : Meets E (inner.pathOf p path module) t Good := by
  unfold TypeCompiler.pathOf
  split
  · next h => exact .pure ((rules.schemas t).primitive h)
  · split
    · exact rules.namedOf hi path
    · split
      · exact (rules.schemaOf hi _).bind fun _ t' _ hs => .pure ((rules.schemas t').array hs)
      · split
        · exact (rules.schemaOf hi _).bind fun _ t' _ hs => .pure ((rules.schemas t').set hs)
        · split
          · split
            · split
              · exact (rules.schemaOf hi _).bind fun _ t' _ hs => .pure ((rules.schemas t').map hs)
              · exact rules.mapKey t _ _
            · exact rules.namedOf hi path
          · exact rules.namedOf hi path

theorem shapeOf (type : TypeExpr) : Meets E (inner.shapeOf p type module) t Good := by
  unfold TypeCompiler.shapeOf
  split
  · exact rules.pathOf hi _
  · exact (rules.schemaOf hi _).bind fun _ t' _ hs => .pure ((rules.schemas t').array hs)
  · exact (rules.schemaOf hi _).bind fun _ t' _ hs => .pure ((rules.schemas t').fixed _ hs)
  · exact rules.tupleOf hi _
  · exact .pure (rules.schemas t).empty
  · exact .pure (rules.schemas t).empty
  · exact .pure (rules.schemas t).empty
  · exact rules.schemaOf hi _

theorem step : Compiles E Good (step p inner) := fun _ _ _ =>
  (rules.shapeOf hi _).bind fun _ _ _ hs => .pure hs

omit hi in
theorem within (n : Nat) : Compiles E Good (within p n) := by
  induction n with
  | zero => exact fun type _ t => .throw (rules.endless t type.text)
  | succ n ih => exact rules.step ih

omit hi in
theorem compileField : Compiles E Good p.compileField := fun type module t =>
  rules.within (p.levels type) type module t

omit hi in
theorem compileType (type : TypeExpr) : Meets E (p.compileType type module) t Good :=
  rules.schemaOf rules.compileField type

omit hi in
theorem compileMember (field : Field) (container : SerialAttrs) :
    Meets E (p.compileMember field container module) t fun t f => Good t f.schema :=
  rules.fieldOf rules.compileField field _ container

end CompileRules

end ServiceContract
