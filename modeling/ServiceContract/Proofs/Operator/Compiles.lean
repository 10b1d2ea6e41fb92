import ServiceContract.Proofs.Document.Contents
import ServiceContract.Proofs.Operator.Cache
import ServiceContract.Proofs.Schema.NodeRules

/-! # What compiling operators keeps

A property of schemas is carried from the compiler of types to everything that compiled operators
hold. A failure that is not fatal comes from a field without a location, which is found before
anything is compiled; so it leaves the table as it was.
-/

namespace ServiceContract

open Source TypeCompiler SchemaTable Work

/-- The rules for what operators add to compiled schemas. -/
structure OperatorRules (p : Program) (Good : SchemaTable → Schema → Prop)
    (Parts : SchemaTable → ObjectParts → Prop) (Form : SchemaTable → FormParts → Prop) : Prop
    extends NameRules p Good Parts where
  parameter : ∀ {t s} name site, site.Stands p → Good t s →
    Good t (RequestParts.parameterSchema name site s)
  body : ∀ {t s}, Good t s → Good t { s with description := none }
  form : ∀ t media, Form t { media }
  extendForm : ∀ {t form} name site {f : FieldSchema}, Form t form → Good t f.schema →
    Form t (RequestParts.extendForm name site f form)
  formBody : ∀ {t form}, Form t form → Good t (Schema.object form.properties form.required)
  mono_form : ∀ {t t' form}, (∀ name, Named t name → Named t' name) → Form t form → Form t' form
  text : ∀ t, Good t (Schema.typed "string")
  record : ∀ t, Good t StatusError.recordSchema

/-- The fields of a form have distinct names, and every schema inside is as described. -/
structure FormParts.Every (P : Schema → Prop) (form : FormParts) : Prop where
  names : (form.properties.map Prod.fst).Nodup
  properties : ∀ e ∈ form.properties, Schema.Every P e.2

namespace Schema.NodeRules

open RequestParts

variable {p : Program} {P Said : Schema → Prop} (rules : NodeRules p P Said) {s : Schema}

theorem distinct_defaultValue (raw : String) : (defaultValue raw).Distinct := by
  unfold defaultValue
  split
  · simp [Json.KeysDistinct]
  · simp [Json.KeysDistinct]
  · simp [Json.KeysDistinct]
  · next v harr hobj _ =>
    cases v with
    | arr vs => exact absurd rfl (harr vs)
    | obj fs => exact absurd rfl (hobj fs)
    | _ => simp [Json.KeysDistinct]

include rules

/-- What is said about a parameter includes its default. -/
theorem parameterSchema (name : String) (site : LocatedField)
    (hd : ∀ raw ∈ site.param.default, ∀ {s : Schema}, Said s →
      Said { s with default := some (defaultValue raw) }) (h : Every P s) :
    Every P (parameterSchema name site s) := by
  have hs := rules.said (rules.undescribed h)
  have hname : Said (if site.param.name.isSome then
      Schema.withExtension nameKey (.str name) { s with description := none }
      else { s with description := none }) := by
    split
    · exact rules.extended (by simp [remarkKeys]) (by simp [Json.KeysDistinct]) hs
    · exact hs
  refine rules.settled ?_
  split
  · next raw hraw => exact hd raw hraw hname
  · exact hname

theorem extendForm (name : String) (site : LocatedField) {f : FieldSchema} {form : FormParts}
    (h : form.Every P) (hf : Every P f.schema) : (extendForm name site f form).Every P := by
  refine ⟨nodup_map_fst_setKey h.names, fun e he => (mem_setKey he).elim ?_ (h.properties e)⟩
  rintro rfl
  exact rules.settled (rules.extended (by simp [remarkKeys]) (by simp [Json.KeysDistinct])
    (rules.said hf))

theorem recordSchema : Every P StatusError.recordSchema := by
  have fields : Every P (Schema.object [("field", Schema.typed "string"),
      ("in", Schema.typed "string"), ("msg", Schema.typed "string")] ["field", "in", "msg"]) :=
    rules.object _ (by decide) (by simp [rules.typed])
  refine rules.object _ (by decide) ?_
  simp [rules.typed, rules.withFormat, rules.array (rules.typed _), rules.array fields]

omit rules in
/-- The compiler of operators keeps what holds of every schema inside. -/
theorem operatorRules {P Said : SchemaTable → Schema → Prop}
    (rules : ∀ t, NodeRules p (P t) (Said t))
    (defaulted : ∀ {t s} {site : LocatedField}, site.Stands p → ∀ raw ∈ site.param.default,
      Said t s → Said t { s with default := some (defaultValue raw) })
    (ref : ∀ {t name}, Named t name → P t (.ref name))
    (mono : ∀ {t t' s}, (∀ name, Named t name → Named t' name) → P t s → P t' s) :
    OperatorRules p (fun t => Every (P t)) (fun t => ObjectParts.Every (P t))
      (fun t => FormParts.Every (P t)) where
  toNameRules := nameRules rules ref mono
  parameter {t _} name site hsite :=
    (rules t).parameterSchema name site fun raw hraw _ => defaulted hsite raw hraw
  body {t _} := (rules t).undescribed
  form _ _ := ⟨List.nodup_nil, by simp⟩
  extendForm {t _} name site _ h hf := (rules t).extendForm name site h hf
  formBody {t _} h := (rules t).object _ h.names h.properties
  mono_form hn h := ⟨h.names, fun e he => (h.properties e he).imp fun _ => mono hn⟩
  text t := (rules t).typed _
  record t := (rules t).recordSchema

end Schema.NodeRules

namespace OperatorRules

variable {p : Program} {Good : SchemaTable → Schema → Prop}
  {Parts : SchemaTable → ObjectParts → Prop} {Form : SchemaTable → FormParts → Prop}

/-- What is read from a request so far is good. -/
structure GoodRequest (Good : SchemaTable → Schema → Prop) (Form : SchemaTable → FormParts → Prop)
    (t : SchemaTable) (r : RequestParts) : Prop where
  parameters : ∀ x ∈ r.parameters, Good t x.schema
  body : ∀ b ∈ r.body, ∀ s ∈ b.schemas, Good t s
  form : ∀ form ∈ r.form, Form t form

variable (rules : OperatorRules p Good Parts Form) {t t' : SchemaTable} {r : RequestParts}

include rules

theorem mono_request (h : ∀ name, Named t name → Named t' name) (hr : GoodRequest Good Form t r) :
    GoodRequest Good Form t' r :=
  ⟨fun x hx => rules.mono h (hr.parameters x hx),
    fun b hb s hs => rules.mono h (hr.body b hb s hs),
    fun form hf => rules.mono_form h (hr.form form hf)⟩

theorem addField {site : LocatedField} (hsite : site.Stands p) {f : FieldSchema}
    (hr : GoodRequest Good Form t r) (hf : Good t f.schema) :
    GoodRequest Good Form t (r.addField site f) := by
  unfold RequestParts.addField
  dsimp only
  split
  · next media _ =>
    refine ⟨hr.parameters, hr.body, ?_⟩
    rintro _ ⟨⟩
    refine rules.extendForm _ site ?_ hf
    cases hform : r.form with
    | none => exact rules.form t media
    | some form => exact hr.form form hform
  · split
    · unfold RequestParts.addBody
      split
      · exact hr
      · refine ⟨hr.parameters, ?_, hr.form⟩
        rintro _ ⟨⟩
        exact List.forall_mem_singleton.mpr (rules.body hf)
    · split
      · exact ⟨hr.parameters, hr.body, hr.form⟩
      · refine ⟨List.forall_mem_append.mpr ⟨hr.parameters, ?_⟩, hr.body, hr.form⟩
        exact List.forall_mem_singleton.mpr (rules.parameter _ site hsite hf)

theorem ofFields {sites : List LocatedField} (hsites : ∀ site ∈ sites, site.Stands p)
    (hr : GoodRequest Good Form t r) :
    Meets (advancing Good) (RequestParts.ofFields p r sites) t (GoodRequest Good Form) := by
  induction sites generalizing r t with
  | nil => exact .pure hr
  | cons site rest ih =>
    obtain ⟨hsite, hrest⟩ := List.forall_mem_cons.mp hsites
    refine (rules.compileRules.compileMember site.field site.container).bind fun f t' hs hf => ?_
    exact ih hrest (rules.addField hsite (rules.mono_request (fun _ => hs.names) hr) hf)

theorem requestBody (hr : GoodRequest Good Form t r) :
    ∀ b ∈ r.requestBody, ∀ s ∈ b.schemas, Good t s := by
  intro b hb
  unfold RequestParts.requestBody at hb
  cases hbody : r.body with
  | some body =>
    obtain rfl : body = b := by simpa [hbody] using hb
    exact hr.body body hbody
  | none =>
    cases hform : r.form with
    | some form =>
      simp only [hbody, hform, Option.mem_def, Option.some.injEq] at hb
      subst hb
      exact List.forall_mem_singleton.mpr (rules.formBody (hr.form form hform))
    | none => simp [hbody, hform] at hb

theorem compileResponse (attr : OperatorAttr) (method : Option FnDecl) :
    Meets (advancing Good) (SuccessResponse.compile p attr method) t
      fun t r => ∀ s ∈ r.response.schemas, Good t s := by
  have assembled : ∀ {t out body}, (∀ b ∈ body, Good t b.2) →
      ∀ s ∈ (SuccessResponse.assemble attr out body).response.schemas, Good t s := by
    intro t out body hb s hs
    simp only [SuccessResponse.assemble, Response.schemas, List.mem_append] at hs
    rcases hs with hs | hs
    · cases hatt : out.rules.attachment with
      | none => simp [hatt] at hs
      | some file =>
        obtain rfl : s = Schema.typed "string" := by
          simpa [hatt, SuccessResponse.fileHeader] using hs
        exact rules.text t
    · cases body with
      | none => simp at hs
      | some b => exact (by simpa using hs : s = b.2) ▸ hb b rfl
  unfold SuccessResponse.compile
  refine .bind (P := fun t body => ∀ b ∈ body, Good t b.2) ?_ fun body t' _ hb =>
    .pure (assembled hb)
  unfold SuccessResponse.bodyOf
  split
  · exact .pure (by rintro _ ⟨⟩; exact (rules.schemas t).binary)
  · split
    · refine (rules.compileRules.compileType _).bind fun s t' _ hs => .pure ?_
      rintro _ ⟨⟩
      exact hs
    · exact .pure (by simp)

end OperatorRules

/-- The schemas of all operators that are known are good. -/
def CompilerState.Ready (Good : SchemaTable → Schema → Prop) (s : CompilerState) : Prop :=
  ∀ key op, s.operators.lookup key = some (.ready op) → ∀ x ∈ op.schemas, Good s.table x

/-- The table grows, and if the schemas of all known operators were good they still are. -/
structure Progress (Good : SchemaTable → Schema → Prop) (s s' : CompilerState) : Prop where
  table : Advances Good s.table s'.table
  ready : s.Ready Good → s'.Ready Good

theorem Progress.refl {Good : SchemaTable → Schema → Prop} (s : CompilerState) :
    Progress Good s s := ⟨.refl _, id⟩

theorem Progress.trans {Good : SchemaTable → Schema → Prop} {s₁ s₂ s₃ : CompilerState}
    (h : Progress Good s₁ s₂) (h' : Progress Good s₂ s₃) : Progress Good s₁ s₃ :=
  ⟨h.table.trans h'.table, fun hr => h'.ready (h.ready hr)⟩

/-- There is progress, also where work ends in an error that is not fatal. -/
def progressing (Good : SchemaTable → Schema → Prop) : Effects CompilerState where
  Step := Progress Good
  Fails e s s' := e.isFatal = true ∨ Progress Good s s'
  refl := Progress.refl
  trans := Progress.trans
  fails_trans h h' := h'.imp_right h.trans

namespace OperatorRules

open OperatorCompile

variable {p : Program} {Good : SchemaTable → Schema → Prop}
  {Parts : SchemaTable → ObjectParts → Prop} {Form : SchemaTable → FormParts → Prop}
  (rules : OperatorRules p Good Parts Form) {s : CompilerState} {α : Type}

include rules

theorem ready_of_advances {t : SchemaTable} (h : Advances Good s.table t) (hr : s.Ready Good) :
    ({ s with table := t } : CompilerState).Ready Good :=
  fun key op hop x hx => rules.mono (fun _ => h.names) (hr key op hop x hx)

theorem onTable {work : Compile α} {P : SchemaTable → α → Prop}
    (h : Meets (advancing Good) work s.table P) :
    Meets (progressing Good) (OperatorCompile.onTable work) s fun s a => P s.table a := by
  unfold Meets
  rw [Operator.runOn_onTable]
  rcases hw : work.runOn s.table with ⟨e | a, t⟩
  · exact Or.inl (h.error hw)
  · obtain ⟨hs, ha⟩ := h.ok hw
    exact ⟨⟨hs, rules.ready_of_advances hs⟩, ha⟩

/-- A compiled struct holds good schemas. -/
theorem ofStruct {search : ErrorSearch} (hp : search.program = p) {d : Declared StructItem}
    (hd : d ∈ p.structs) (key : String) :
    Meets (progressing Good) (Operator.ofStruct search d key) s
      fun s op => ∀ x ∈ op.schemas, Good s.table x := by
  subst hp
  have hfields {sites} (hall : LocatedField.all search.program key d = .ok sites) :=
    rules.ofFields (t := s.table) (LocatedField.stands_of_all hd hall)
      (r := {}) ⟨by simp, by simp, by simp⟩
  unfold Meets
  rcases hr : (Operator.ofStruct search d key).runOn s with ⟨r, s'⟩
  cases Operator.stages_ofStruct hr with
  | unlocated => exact Or.inr (.refl s)
  | request hall hrequest => exact Or.inl ((hfields hall).error hrequest)
  | response _ _ hresponse => exact Or.inl ((rules.compileResponse _ _).error hresponse)
  | done hall hrequest hresponse _ hparameters hbody =>
    obtain ⟨hs, hrequest⟩ := (hfields hall).ok hrequest
    obtain ⟨hs', hresponse⟩ := (rules.compileResponse _ _).ok hresponse
    have hrequest := rules.mono_request (fun _ => hs'.names) hrequest
    refine ⟨⟨hs.trans hs', rules.ready_of_advances (hs.trans hs')⟩, ?_⟩
    refine forall_mem_contentsOf.mpr ⟨?_, ?_, List.forall_mem_singleton.mpr hresponse⟩
    · rw [hparameters]
      exact hrequest.parameters
    · rw [hbody]
      exact rules.requestBody hrequest

omit rules in
/-- An entry with good schemas, if it has any, is no obstacle. -/
theorem progress_setEntry {key : String} {entry : OperatorEntry}
    (h : ∀ op, entry = .ready op → ∀ x ∈ op.schemas, Good s.table x) :
    Progress Good s (setEntry key entry s) := by
  refine ⟨.refl _, fun hr => ?_⟩
  exact CompilerState.Known.setEntry (P := fun _ op => ∀ x ∈ op.schemas, Good s.table x) hr h

theorem ofDeclared {search : ErrorSearch} (hp : search.program = p) (module : List String)
    (name : String) (hr : s.Ready Good) :
    Meets (progressing Good) (Operator.ofDeclared search module name) s
      fun s op => ∀ x ∈ op.schemas, Good s.table x := by
  have started : Progress Good s (setEntry (qualify module name) .inProgress s) :=
    progress_setEntry (by simp)
  unfold Meets
  rcases hrun : (Operator.ofDeclared search module name).runOn s with ⟨r, s'⟩
  cases Operator.ends_ofDeclared hrun with
  | known hl => exact ⟨.refl s, hr _ _ hl⟩
  | failed => exact Or.inr (.refl s)
  | refused => exact Or.inl rfl
  | compiled h =>
    obtain ⟨hs, hop⟩ := (rules.ofStruct hp (hp ▸ h.mem_structs) _).ok h.runOn_eq
    refine ⟨(started.trans hs).trans (progress_setEntry ?_), hop⟩
    rintro _ ⟨⟩
    exact hop
  | unlocated h =>
    have hfails := (rules.ofStruct hp (hp ▸ h.mem_structs) _).error h.runOn_eq
    have hs := hfails.resolve_left (by simp [Error.isFatal])
    exact Or.inr ((started.trans hs).trans (progress_setEntry (by simp)))
  | dropped _ hother =>
    refine Or.inl ?_
    cases ‹Error› with
    | missingLocation operator field => exact absurd rfl (hother operator field)
    | _ => rfl

/-- A compiled operator holds good schemas, whether it is a struct or a group. -/
theorem compile {search : ErrorSearch} (hp : search.program = p) (op : OperatorRef)
    (hr : s.Ready Good) : Meets (progressing Good) (Operator.compile search op) s
      fun s op => ∀ x ∈ op.schemas, Good s.table x := by
  cases op with
  | group path => exact .pure (by simp [Operator.schemas_group])
  | type module name => exact rules.ofDeclared hp module name hr

/-- The operators of a route are compiled one after the other. -/
theorem compileChain {search : ErrorSearch} (hp : search.program = p) (chain : List OperatorRef)
    (hr : s.Ready Good) : Meets (progressing Good) (chain.mapM (Operator.compile search)) s
      fun s ops => ∀ op ∈ ops, ∀ x ∈ op.schemas, Good s.table x :=
  Meets.mapM (E := progressing Good)
    (R := fun s (op : Operator) => ∀ x ∈ op.schemas, Good s.table x)
    (fun hs h x hx => rules.mono (fun _ => hs.table.names) (h x hx))
    fun op _ _ hs => rules.compile hp op (hs.ready hr)

end OperatorRules

end ServiceContract
