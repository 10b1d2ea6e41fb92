import ServiceContract.Proofs.Operator.Responses
import ServiceContract.Proofs.Operator.Traversal
import ServiceContract.Proofs.Schema.Occurrences

/-! # Structs that are flattened into an operator

An operator reads the fields of the structs that are flattened into it as if they were its own. It
finds these structs by the names of the flattened types, behind some wrappers. The schema of a
flattened type is made by other rules: these look through aliases and further wrappers, and put
arguments in place of type parameters. Where a type is written with nothing of the kind, both agree.
-/

namespace ServiceContract

open Source TypeCompiler SchemaTable Work Relation

namespace LocatedField

section Members

variable {p : Program} {operator : String} {visited visited' : List String}
  {found : List LocatedField} {ahead : List Stop} {d e : Declared StructItem} {field : Field}
  {site : LocatedField}

theorem Gathers.mem_of_field (h : Gathers p visited ahead found visited')
    (hmem : .field d field ∈ ahead) (hl : located? d field = some site) : site ∈ found := by
  induction h with
  | done => cases hmem
  | known _ _ ih => exact ih (by simpa using hmem)
  | fresh _ _ _ _ ih => exact List.mem_append_right _ (ih (by simpa using hmem))
  | located hl' _ ih =>
    rcases List.mem_cons.mp hmem with heq | hmem
    · cases heq
      cases hl'.symm.trans hl
      exact List.mem_cons_self
    · exact List.mem_cons_of_mem _ (ih hmem)
  | hidden hl' _ _ ih =>
    rcases List.mem_cons.mp hmem with heq | hmem
    · cases heq
      cases hl'.symm.trans hl
    · exact ih hmem

theorem Gathers.visited_of_struct (h : Gathers p visited ahead found visited')
    (hmem : .struct d ∈ ahead) : nameOf d ∈ visited' := by
  induction h with
  | done => cases hmem
  | known hk hrest ih =>
    rcases List.mem_cons.mp hmem with heq | hmem
    · cases heq
      exact hrest.subset hk
    · exact ih hmem
  | fresh _ hin hrest _ ih =>
    rcases List.mem_cons.mp hmem with heq | hmem
    · cases heq
      exact hrest.subset (hin.subset List.mem_cons_self)
    · exact ih hmem
  | located _ _ ih => exact ih (by simpa using hmem)
  | hidden _ _ _ ih => exact ih (by simpa using hmem)

/-- A name is new after a search because a struct of this name was entered: what that leads to has
been visited, and its own fields are found. -/
theorem Gathers.entered {k : String} (h : Gathers p visited ahead found visited')
    (hk : k ∈ visited') : k ∈ visited ∨ ∃ d, nameOf d = k ∧
      (.struct d ∈ ahead ∨ ∃ e, Leads p e d) ∧ (∀ e, Leads p d e → nameOf e ∈ visited') ∧
        ∀ field site, .field d field ∈ stops p d → located? d field = some site → site ∈ found := by
  induction h with
  | done => exact .inl hk
  | known _ _ ih =>
    exact (ih hk).imp_right fun ⟨d, hd, hfrom, hrest⟩ =>
      ⟨d, hd, hfrom.imp_left (List.mem_cons_of_mem _), hrest⟩
  | @fresh visited d ahead found visited' found' visited'' _ hin hrest ih ih' =>
    rcases ih' hk with hk | ⟨e, he, hfrom, hleads, hfields⟩
    · rcases ih hk with hk | ⟨e, he, hfrom, hleads, hfields⟩
      · rcases List.mem_cons.mp hk with rfl | hk
        · refine .inr ⟨d, rfl, .inl List.mem_cons_self, fun e he => ?_, fun field site hf hl => ?_⟩
          · exact hrest.subset (hin.visited_of_struct he)
          · exact List.mem_append_left _ (hin.mem_of_field hf hl)
        · exact .inl hk
      · refine .inr ⟨e, he, .inr (hfrom.elim (fun h => ⟨d, h⟩) id),
          fun e' he' => hrest.subset (hleads e' he'), fun field site hf hl => ?_⟩
        exact List.mem_append_left _ (hfields field site hf hl)
    · refine .inr ⟨e, he, hfrom.imp_left (List.mem_cons_of_mem _), hleads,
        fun field site hf hl => List.mem_append_right _ (hfields field site hf hl)⟩
  | located _ _ ih =>
    refine (ih hk).imp_right fun ⟨d, hd, hfrom, hleads, hfields⟩ =>
      ⟨d, hd, hfrom.imp_left (List.mem_cons_of_mem _), hleads, fun field site hf hl => ?_⟩
    exact List.mem_cons_of_mem _ (hfields field site hf hl)
  | hidden _ _ _ ih =>
    exact (ih hk).imp_right fun ⟨d, hd, hfrom, hrest⟩ =>
      ⟨d, hd, hfrom.imp_left (List.mem_cons_of_mem _), hrest⟩

/-- What is found are fields that stand ahead or in structs that those lead to. -/
theorem Gathers.exists_of_mem (h : Gathers p visited ahead found visited') (hmem : site ∈ found) :
    ∃ e field, located? e field = some site ∧ (.field e field ∈ ahead ∨
      .field e field ∈ stops p e ∧ ∃ d, .struct d ∈ ahead ∧ ReflTransGen (Leads p) d e) := by
  induction h with
  | done => cases hmem
  | known _ _ ih =>
    obtain ⟨e, field, hl, hfrom⟩ := ih hmem
    exact ⟨e, field, hl, hfrom.imp (List.mem_cons_of_mem _) fun ⟨hf, d, hd, hr⟩ =>
      ⟨hf, d, List.mem_cons_of_mem _ hd, hr⟩⟩
  | @fresh visited d ahead found visited' found' visited'' _ _ _ ih ih' =>
    rcases List.mem_append.mp hmem with hmem | hmem
    · obtain ⟨e, field, hl, hf | ⟨hf, d', hd', hr⟩⟩ := ih hmem
      · obtain ⟨rfl, -⟩ := field_mem_stops.mp hf
        exact ⟨e, field, hl, .inr ⟨hf, e, List.mem_cons_self, .refl⟩⟩
      · exact ⟨e, field, hl, .inr ⟨hf, d, List.mem_cons_self, .head hd' hr⟩⟩
    · obtain ⟨e, field, hl, hfrom⟩ := ih' hmem
      exact ⟨e, field, hl, hfrom.imp (List.mem_cons_of_mem _) fun ⟨hf, d, hd, hr⟩ =>
        ⟨hf, d, List.mem_cons_of_mem _ hd, hr⟩⟩
  | @located _ d field _ _ _ _ hl _ ih =>
    rcases List.mem_cons.mp hmem with rfl | hmem
    · exact ⟨d, field, hl, .inl List.mem_cons_self⟩
    · obtain ⟨e, field, hl, hfrom⟩ := ih hmem
      exact ⟨e, field, hl, hfrom.imp (List.mem_cons_of_mem _) fun ⟨hf, d, hd, hr⟩ =>
        ⟨hf, d, List.mem_cons_of_mem _ hd, hr⟩⟩
  | hidden _ _ _ ih =>
    obtain ⟨e, field, hl, hfrom⟩ := ih hmem
    exact ⟨e, field, hl, hfrom.imp (List.mem_cons_of_mem _) fun ⟨hf, d, hd, hr⟩ =>
      ⟨hf, d, List.mem_cons_of_mem _ hd, hr⟩⟩

/-- The struct is what its place stands for. -/
def First (p : Program) (d : Declared StructItem) : Prop :=
  p.findStruct d.module d.item.name = some d

theorem First.eq_of_nameOf (hp : NamesTellApart p) (hd : First p d) (he : First p e)
    (hname : nameOf d = nameOf e) : d = e := by
  obtain ⟨hmodule, hitem⟩ := Prod.mk.inj
    (hp d (List.mem_of_find?_eq_some hd) e (List.mem_of_find?_eq_some he) hname)
  unfold First at hd he
  rw [hmodule, hitem, he] at hd
  exact (Option.some.inj hd).symm

theorem Leads.first (h : Leads p d e) : First p e := by
  obtain ⟨_, -, -, -, hflat⟩ := leads_iff.mp h
  obtain ⟨_, -, hfound⟩ := findType_of_flattened? hflat
  exact Program.findStruct_of_findType hfound

theorem gathers_of_all {sites : List LocatedField} (hd : d ∈ p.structs)
    (h : all p operator d = .ok sites) : ∃ visited', Gathers p [] [.struct d] sites visited' := by
  have hends : Ends p operator [] [.struct d] ((ofStruct p operator _ d).run []) :=
    ends_ofStruct_nil hd (Nat.lt_succ_self _)
  unfold all at h
  rcases hr : (ofStruct p operator (p.structs.length + 1) d).run [] with e | ⟨found, visited'⟩
  · rw [hr] at h
    cases h
  · rw [hr] at h hends
    cases h
    exact ⟨visited', hends⟩

/-- A search has visited what each visited struct leads to, and found its own fields. -/
theorem Gathers.closed (h : Gathers p [] [.struct d] found visited') (hp : NamesTellApart p)
    (hd : First p d) (he : First p e) (hmem : nameOf e ∈ visited') :
    (∀ e', Leads p e e' → nameOf e' ∈ visited') ∧
      ∀ field site, .field e field ∈ stops p e → located? e field = some site → site ∈ found := by
  obtain hnil | ⟨e', hname, hfrom, hrest⟩ := h.entered hmem
  · cases hnil
  · have he' : First p e' := by
      rcases hfrom with hfrom | ⟨_, hfrom⟩
      · cases List.mem_singleton.mp hfrom
        exact hd
      · exact hfrom.first
    exact he'.eq_of_nameOf hp he hname ▸ hrest

theorem Gathers.reached (h : Gathers p [] [.struct d] found visited') (hp : NamesTellApart p)
    (hd : First p d) (hr : ReflTransGen (Leads p) d e) : First p e ∧ nameOf e ∈ visited' := by
  induction hr with
  | refl => exact ⟨hd, h.visited_of_struct List.mem_cons_self⟩
  | tail _ hlead ih => exact ⟨hlead.first, (h.closed hp hd ih.1 ih.2).1 _ hlead⟩

/-- The fields that a search finds are the located fields of the structs that its struct leads
to. -/
theorem mem_iff_of_all {sites : List LocatedField} (hp : NamesTellApart p) (hd : First p d)
    (h : all p operator d = .ok sites) : site ∈ sites ↔ ∃ e field, ReflTransGen (Leads p) d e ∧
      .field e field ∈ stops p e ∧ located? e field = some site := by
  obtain ⟨visited', hrun⟩ := gathers_of_all (List.mem_of_find?_eq_some hd) h
  constructor
  · intro hmem
    obtain ⟨e, field, hl, hfrom | ⟨hf, d', hd', hr⟩⟩ := hrun.exists_of_mem hmem
    · cases List.mem_singleton.mp hfrom
    · cases List.mem_singleton.mp hd'
      exact ⟨e, field, hr, hf, hl⟩
  · rintro ⟨e, field, hr, hf, hl⟩
    obtain ⟨he, hmem⟩ := hrun.reached hp hd hr
    exact (hrun.closed hp hd he hmem).2 field site hf hl

end Members

end LocatedField

/-- The struct whose fields make the schema of a type, with the arguments of its parameters. An
alias stands for its target. -/
inductive Program.StandsFor (p : Program) :
    Occurrence → Declared StructItem → List TypeExpr → Prop
  | struct {x d args} : p.component? x.bare = some (.struct d, args) → StandsFor p x d args
  | typeAlias {x segments written a d args} : x.bare.type = .path segments written →
      builtinParts? ⟨segments, written⟩ = none →
      p.findType ⟨segments, written⟩ x.module = some (.typeAlias a) →
      StandsFor p ⟨((TypeDecl.typeAlias a).substitution written).apply a.item.target, a.module⟩
        d args → StandsFor p x d args

namespace LocatedField

/-- The field with arguments in place of type parameters. -/
def instantiate (σ : Substitution) (site : LocatedField) : LocatedField :=
  { site with field := { site.field with type := σ.apply site.field.type } }

/-- The located fields of a struct with arguments for its parameters, and those of the structs that
the types of its flattened fields stand for. -/
inductive Inlines (p : Program) : Declared StructItem → List TypeExpr → LocatedField → Prop
  | own {d args field site} : .field d field ∈ stops p d → located? d field = some site →
      Inlines p d args (site.instantiate ((TypeDecl.struct d).substitution args))
  | flattened {d args field e args' site} : field ∈ namedFields d →
      (SerialAttrs.ofAttrs field.attrs).skip = false → isFlattened field = true →
      p.StandsFor ⟨((TypeDecl.struct d).substitution args).apply field.type, d.module⟩ e args' →
      Inlines p e args' site → Inlines p d args site

/-- A type is no use of an alias or of a generic declaration, and it has no wrappers that an
operator does not look behind. -/
structure Direct (p : Program) (x : Occurrence) : Prop where
  wrappers : x.type.peel = x.bare.type
  declared : ∀ path d, x.type.peel.asPath? = some path → p.findType path x.module = some d →
    builtinParts? path = none ∧ d.typeParams = [] ∧ ∀ a, d ≠ .typeAlias a

section Inlines

variable {p : Program} {x : Occurrence} {d e : Declared StructItem} {args : List TypeExpr}
  {site : LocatedField}

theorem component?_eq_struct : p.component? x = some (.struct d, args) ↔
    ∃ segments written, x.type = .path segments written ∧
      builtinParts? ⟨segments, written⟩ = none ∧
      p.findType ⟨segments, written⟩ x.module = some (.struct d) ∧
      args = p.canonicalAll x.module written := by
  constructor
  · intro h
    unfold Program.component? at h
    split at h
    · next segments written hpath =>
      split at h <;> cases h
      next hb hd => exact ⟨segments, written, hpath, hb, hd, rfl⟩
    · cases h
  · rintro ⟨segments, written, hpath, hb, hd, rfl⟩
    simp [Program.component?, hpath, hb, hd]

theorem flattened?_eq_some {module : List String} {t : TypeExpr} : flattened? p module t = some d ↔
    ∃ segments written, t.peel = .path segments written ∧
      p.findType ⟨segments, written⟩ module = some (.struct d) := by
  constructor
  · intro h
    obtain ⟨path, hpath, hfound⟩ := findType_of_flattened? h
    cases hpeel : t.peel with
    | path segments written =>
      rw [hpeel] at hpath
      cases hpath
      exact ⟨segments, written, rfl, hfound⟩
    | _ =>
      rw [hpeel] at hpath
      cases hpath
  · rintro ⟨segments, written, hpeel, hfound⟩
    simp [flattened?, hpeel, TypeExpr.asPath?, hfound]

theorem Direct.of_path {segments : List String} {d : TypeDecl}
    (hpeel : x.type.peel = .path segments []) (hbare : x.bare.type = .path segments [])
    (hd : p.findType ⟨segments, []⟩ x.module = some d) (hb : builtinParts? ⟨segments, []⟩ = none)
    (hparams : d.typeParams = []) (ha : ∀ a, d ≠ .typeAlias a) : Direct p x := by
  refine ⟨hpeel.trans hbare.symm, fun path d' hpath hd' => ?_⟩
  rw [hpeel] at hpath
  cases hpath
  cases hd.symm.trans hd'
  exact ⟨hb, hparams, ha⟩

/-- Such a type stands for the struct that an operator finds. -/
theorem Direct.standsFor_iff (h : Direct p x) :
    (∃ args, p.StandsFor x e args) ↔ flattened? p x.module x.type = some e := by
  have declared {segments written d} (hpath : x.bare.type = .path segments written)
      (hd : p.findType ⟨segments, written⟩ x.module = some d) :=
    h.declared ⟨segments, written⟩ d (by rw [h.wrappers, hpath]; rfl) hd
  rw [flattened?_eq_some, h.wrappers]
  constructor
  · rintro ⟨args, hstands⟩
    cases hstands with
    | struct hc =>
      obtain ⟨segments, written, hpath, -, hd, -⟩ := component?_eq_struct.mp hc
      exact ⟨segments, written, hpath, hd⟩
    | typeAlias hpath _ ha _ => exact absurd rfl ((declared hpath ha).2.2 _)
  · rintro ⟨segments, written, hpath, hd⟩
    exact ⟨_, .struct (component?_eq_struct.mpr
      ⟨segments, written, hpath, (declared hpath hd).1, hd, rfl⟩)⟩

theorem Direct.typeParams_eq_nil (h : Direct p x) (he : flattened? p x.module x.type = some e) :
    (TypeDecl.struct e).typeParams = [] := by
  obtain ⟨path, hpath, hfound⟩ := findType_of_flattened? he
  exact (h.declared path _ hpath hfound).2.1

/-- Every type that is flattened into a struct, or into one of those that it leads to, is direct. -/
def AllDirect (p : Program) (d : Declared StructItem) : Prop :=
  ∀ e, ReflTransGen (Leads p) d e → ∀ field ∈ namedFields e,
    (SerialAttrs.ofAttrs field.attrs).skip = false → isFlattened field = true →
      Direct p ⟨field.type, e.module⟩

theorem AllDirect.of_leads (h : AllDirect p d) (he : Leads p d e) : AllDirect p e :=
  fun e' hr => h e' (.head he hr)

theorem instantiate_of_apply {σ : Substitution} (h : ∀ t, σ.apply t = t) :
    site.instantiate σ = site := by
  simp [instantiate, h]

/-- The struct that a field leads to, if its type is direct, is the one that the type stands for. -/
theorem leads_of_standsFor {field : Field} (h : AllDirect p d) (hmem : field ∈ namedFields d)
    (hskip : (SerialAttrs.ofAttrs field.attrs).skip = false) (hflat : isFlattened field = true)
    (hstands : p.StandsFor ⟨field.type, d.module⟩ e args) :
    Leads p d e ∧ (TypeDecl.struct e).typeParams = [] := by
  have hdirect := h d .refl field hmem hskip hflat
  have he := hdirect.standsFor_iff.mp ⟨args, hstands⟩
  exact ⟨leads_iff.mpr ⟨field, hmem, hskip, hflat, he⟩, hdirect.typeParams_eq_nil he⟩

theorem inlines_iff (h : AllDirect p d)
    (hσ : ∀ t, ((TypeDecl.struct d).substitution args).apply t = t) :
    Inlines p d args site ↔ ∃ e field, ReflTransGen (Leads p) d e ∧
      .field e field ∈ stops p e ∧ located? e field = some site := by
  constructor
  · intro hin
    induction hin with
    | @own d args field site hf hl =>
      exact ⟨d, field, .refl, hf, by rw [hl, instantiate_of_apply hσ]⟩
    | flattened hmem hskip hflat hstands _ ih =>
      rw [hσ] at hstands
      obtain ⟨hlead, hparams⟩ := leads_of_standsFor h hmem hskip hflat hstands
      obtain ⟨e, field, hr, hrest⟩ :=
        ih (h.of_leads hlead) (TypeDecl.apply_substitution hparams _)
      exact ⟨e, field, .head hlead hr, hrest⟩
  · rintro ⟨e, field, hr, hf, hl⟩
    induction hr using ReflTransGen.head_induction_on generalizing args with
    | refl =>
      have hsite : site.instantiate _ = site := instantiate_of_apply hσ
      exact hsite ▸ .own hf hl
    | head hlead hr ih =>
      obtain ⟨flat, hmem, hskip, hflat, he⟩ := leads_iff.mp hlead
      have hdirect := h _ .refl flat hmem hskip hflat
      obtain ⟨args', hstands⟩ := hdirect.standsFor_iff.mpr he
      exact .flattened hmem hskip hflat (by rwa [hσ]) (ih (h.of_leads hlead)
        (TypeDecl.apply_substitution (hdirect.typeParams_eq_nil he) args'))

end Inlines

/-- Whether a field is a parameter: it stands where parameters do, and is not marked as a key. -/
def isParameter (site : LocatedField) : Bool :=
  site.location.isParameter && !(site.param.security && site.location != .path)

/-- The parameter that a field with a compiled type makes. -/
def parameter? (site : LocatedField) (f : FieldSchema) : Option Parameter :=
  if site.isParameter then
    let name := RequestParts.nameOf site f
    some
      { name
        location := site.location.text
        required := site.location == .path || RequestParts.isRequired site f
        description := f.schema.description
        schema := RequestParts.parameterSchema name site f.schema }
  else none

end LocatedField

namespace RequestParts

variable {p : Program} {r : RequestParts} {site : LocatedField} {f : FieldSchema}

/-- What fields with their compiled types add up to, after those that went before. -/
def gather (r : RequestParts) (fields : List (LocatedField × FieldSchema)) : RequestParts :=
  fields.foldl (fun r x => r.addField x.1 x.2) r

theorem parameters_addField :
    (r.addField site f).parameters = r.parameters ++ (site.parameter? f).toList := by
  unfold addField LocatedField.parameter? LocatedField.isParameter
  cases hl : site.location <;> cases site.param.security <;>
    simp [hl, ParamLocation.formMediaType?, ParamLocation.isParameter, addForm, addBody,
      addParameter, apply_ite RequestParts.parameters]

theorem parameters_gather (fields : List (LocatedField × FieldSchema)) :
    (gather r fields).parameters =
      r.parameters ++ fields.filterMap fun x => x.1.parameter? x.2 := by
  induction fields generalizing r with
  | nil => simp [gather]
  | cons x fields ih =>
    rw [gather, List.foldl_cons, ← gather, ih, parameters_addField, List.append_assoc]
    cases h : x.1.parameter? x.2 <;> simp [h]

/-- The fields are compiled in this table, which they leave as it is. -/
def CompiledIn (p : Program) (T : SchemaTable) (sites : List LocatedField)
    (fs : List FieldSchema) : Prop :=
  List.Forall₂ (fun site f =>
    (p.compileMember site.field site.container site.module).runOn T = (.ok f, T)) sites fs

theorem replays_compileMember (p : Program) (field : Field) (container : SerialAttrs)
    (module : List String) : Replays (p.compileMember field container module) :=
  (workRules_replays (typeRules_true p)).fieldOf field container module trivial

theorem CompiledIn.mono {T T' : SchemaTable} {sites : List LocatedField} {fs : List FieldSchema}
    (h : CompiledIn p T sites fs) (hg : Grows T T') : CompiledIn p T' sites fs :=
  h.imp fun _ _ hf => (replays_compileMember p _ _ _).ok hf hg.coveredBy

/-- Fields that are compiled one after the other add up, and each compiles again in the table that
is left. -/
theorem meets_gather {t : SchemaTable} {sites : List LocatedField} :
    Meets growing (ofFields p r sites) t fun T r' => ∃ fs, CompiledIn p T sites fs ∧
      r' = gather r (sites.zip fs) := by
  induction sites generalizing r t with
  | nil => exact .pure ⟨[], .nil, rfl⟩
  | cons site rest ih =>
    refine (replays_compileMember p site.field site.container site.module).meets.bind
      fun f T _ hf => ih.imp ?_
    rintro r' T' hg ⟨fs, hfs, rfl⟩
    exact ⟨f :: fs, .cons (hf T' hg.coveredBy) hfs, rfl⟩

end RequestParts

namespace Operator

open LocatedField RequestParts

variable {search : ErrorSearch} {s s' : CompilerState} {module : List String} {name : String}
  {op : Operator}

/-- An operator reads fields: it has what they add up to, their types being described in a table.
Each field that is a parameter makes one. -/
structure Reads (p : Program) (T : SchemaTable) (sites : List LocatedField) (fs : List FieldSchema)
    (op : Operator) : Prop where
  compiled : CompiledIn p T sites fs
  parameters : op.parameters = (sites.zip fs).filterMap fun x => x.1.parameter? x.2
  requestBody : op.requestBody = (gather {} (sites.zip fs)).requestBody
  security : op.security = (gather {} (sites.zip fs)).security

/-- The operator reads what is found in the struct with its qualified name. -/
def ReadsFound (p : Program) (T : SchemaTable) (key : String) (op : Operator) : Prop :=
  ∃ module name d sites fs, key = qualify module name ∧ p.findStruct module name = some d ∧
    all p key d = .ok sites ∧ op.Reads p T sites fs

theorem lasting_readsFound (search : ErrorSearch) :
    Lasting search (ReadsFound search.program) where
  ofStruct {module name d op s s'} hd h := by
    cases stages_ofStruct h with
    | done hall hrequest hresponse _ hparameters hbody hsecurity =>
      obtain ⟨-, fs, hfs, rfl⟩ := meets_gather.ok hrequest
      refine ⟨module, name, d, _, fs, rfl, hd, hall, ?_, ?_, hbody, hsecurity⟩
      · exact hfs.mono (SuccessResponse.meets_shows.ok hresponse).1
      · rw [hparameters, parameters_gather, List.nil_append]
  mono := fun ⟨module, name, d, sites, fs, hkey, hd, hall, hreads⟩ hg =>
    ⟨module, name, d, sites, fs, hkey, hd, hall, hreads.compiled.mono hg, hreads.parameters,
      hreads.requestBody, hreads.security⟩

/-- An operator reads, in every state that calls lead to, the located fields that are found in its
struct and in those that are flattened into it. If their types are written without aliases, type
arguments and further wrappers, these are the fields of the structs that the types stand for. -/
theorem reads_inlined {table : SchemaTable} {memo : ErrorSearch.Memo} {calls : List CompilerCall}
    {d : Declared StructItem} (hnames : NamesTellApart search.program)
    (hd : search.program.findStruct module name = some d)
    (h : (compile search (.type module name)).runOn (.after search { table, memo } calls) =
      (.ok op, s')) :
    ∃ sites fs, all search.program (qualify module name) d = .ok sites ∧
      op.Reads search.program s'.table sites fs ∧
      (AllDirect search.program d → ∀ site, site ∈ sites ↔ Inlines search.program d [] site) := by
  obtain ⟨module', name', d', sites, fs, heq, hd', hall, hreads⟩ :=
    (lasting_readsFound search).of_compile h
  obtain ⟨rfl, rfl⟩ := Program.place_of_findStruct hd
  obtain ⟨rfl, rfl⟩ := Program.place_of_findStruct hd'
  obtain rfl : d = d' := First.eq_of_nameOf hnames hd hd' heq
  refine ⟨sites, fs, hall, hreads, fun hdirect site => ?_⟩
  rw [mem_iff_of_all hnames hd hall, inlines_iff hdirect fun t => ?_]
  rw [TypeDecl.substitution, Substitution.ofArgs, List.zip_nil_right, List.reverse_nil,
    Substitution.apply_nil]

section Feeds

theorem reads_inlined_pages :
    let search := ErrorSearch.ofProgram pages
    ∃ op s', (compile search (.type [] "List")).runOn (.after search {} []) = (.ok op, s') ∧
      op.parameters.map (·.name) = ["limit", "cursor"] ∧
      ∃ sites fs, op.Reads pages s'.table sites fs ∧
        ∀ site, site ∈ sites ↔ Inlines pages listing [] site := by
  intro search
  have hd : search.program.findStruct [] "List" = some listing := rfl
  have hnames : NamesTellApart pages := by unfold NamesTellApart; decide
  have hdirect : AllDirect pages listing := by
    intro e hr field hmem _ hflat
    have he : e ∈ pages.structs := by
      cases hr with
      | refl => exact List.mem_cons_self
      | tail _ hlead => exact mem_structs_of_leads hlead
    have flat : isFlattened (queryField "limit" (.path ["u32"] [])) = false ∧
        isFlattened (queryField "cursor" (.path ["String"] [])) = false := by decide +kernel
    rcases List.mem_pair.mp he with rfl | rfl
    · rcases List.mem_pair.mp hmem with rfl | rfl
      · simp [flat.1] at hflat
      · exact .of_path rfl rfl rfl rfl rfl nofun
    · rcases List.mem_pair.mp hmem with rfl | rfl
      · exact .of_path rfl rfl rfl rfl rfl nofun
      · simp [flat.2] at hflat
  obtain ⟨op, s', hrun, hseen⟩ : ∃ op s',
      (compile search (.type [] "List")).runOn (.after search {} []) = (.ok op, s') ∧
        (op.parameters.map (·.name) == ["limit", "cursor"]) = true :=
    exists_of_runOn (by decide +kernel)
  obtain ⟨sites, fs, -, hreads, hinlines⟩ := reads_inlined hnames hd hrun
  exact ⟨op, s', hrun, eq_of_beq hseen, sites, fs, hreads, hinlines hdirect⟩

/-- An operator into which one type is flattened. -/
def readingOf (name : String) (path : List String) (args : List TypeExpr) : Declared StructItem :=
  ⟨[], [], name, [], .named [{ flatField "page" path with type := .path path args }]⟩

def pageOf : Declared StructItem :=
  ⟨[], [], "Page", ["T"], .named [queryField "cursor" (.path ["T"] [])]⟩

/-- The pages of a feed begin at a cursor of some type. They are flattened into one operator as
they are declared, and into another one under an alias. -/
def feeds : Program where
  structs := [pageOf, readingOf "List" ["Page"] [.path ["u32"] []], readingOf "Find" ["Paging"] []]
  aliases := [⟨[], [], "Paging", [], .path ["Page"] [.path ["u32"] []]⟩]

/-- The cursor of the pages that both operators have. -/
def cursor : LocatedField where
  field := queryField "cursor" (.path ["u32"] [])
  module := []
  container := {}
  param := { location := some .query }
  location := .query

theorem inlines_cursor : Inlines feeds pageOf [.path ["u32"] []] cursor := by
  have hfield : .field pageOf (queryField "cursor" (.path ["T"] [])) ∈ stops feeds pageOf :=
    List.mem_cons_self
  exact .own hfield rfl

/-- Neither operator has the parameter that the cursor makes: the alias is not looked through, and
the argument is not put in place of the type parameter. -/
theorem reads_otherwise_feeds :
    let search := ErrorSearch.ofProgram feeds
    ∀ x ∈ [("List", readingOf "List" ["Page"] [.path ["u32"] []]),
        ("Find", readingOf "Find" ["Paging"] [])], ∃ op s',
      search.program.findStruct [] x.1 = some x.2 ∧
      (compile search (.type [] x.1)).runOn {} = (.ok op, s') ∧
      Inlines feeds x.2 [] cursor ∧
      ∃ f parameter, (feeds.compileMember cursor.field cursor.container cursor.module).runOn
          s'.table = (.ok f, s'.table) ∧
        cursor.parameter? f = some parameter ∧ parameter ∉ op.parameters := by
  intro search
  have parameter_cursor (T : SchemaTable) : ∃ f parameter,
      (feeds.compileMember cursor.field cursor.container cursor.module).runOn T = (.ok f, T) ∧
        cursor.parameter? f = some parameter ∧ parameter.schema.type = some "integer" :=
    ⟨_, _, rfl, rfl, rfl⟩
  have compiled : ∀ x ∈ [("List", readingOf "List" ["Page"] [.path ["u32"] []]),
      ("Find", readingOf "Find" ["Paging"] [])], ∃ op s',
      (compile search (.type [] x.1)).runOn {} = (.ok op, s') ∧
        (op.parameters.all fun y => y.schema.type != some "integer") = true := by
    intro x hx
    rcases List.mem_pair.mp hx with rfl | rfl <;> exact exists_of_runOn (by decide +kernel)
  intro x hx
  obtain ⟨op, s', hrun, hseen⟩ := compiled x hx
  obtain ⟨f, parameter, hf, hparameter, htype⟩ := parameter_cursor s'.table
  have found : search.program.findStruct [] x.1 = some x.2 ∧ Inlines feeds x.2 [] cursor := by
    rcases List.mem_pair.mp hx with rfl | rfl
    · exact ⟨rfl, .flattened List.mem_cons_self rfl rfl (.struct rfl) inlines_cursor⟩
    · exact ⟨rfl, .flattened List.mem_cons_self rfl rfl (.typeAlias rfl rfl rfl (.struct rfl))
        inlines_cursor⟩
  refine ⟨op, s', found.1, hrun, found.2, f, parameter, hf, hparameter, fun hmem => ?_⟩
  have hne := List.all_eq_true.mp hseen parameter hmem
  simp [htype] at hne

end Feeds

end Operator

end ServiceContract
