import ServiceContract.Proofs.Operator.Flattening
import ServiceContract.Proofs.Schema.Required

/-! # Forms

The form fields of an operator make one object, with the fields of all the structs that are
flattened into it. It has properties and requires them by the rule for other objects.
-/

namespace ServiceContract

open Source TypeCompiler SchemaTable Schema Property Work

/-- The property of a form that a field with a compiled type makes. -/
def LocatedField.formProperty? (site : LocatedField) (f : FieldSchema) : Option Property :=
  if site.location.formMediaType?.isSome then
    some
      { name := RequestParts.nameOf site f
        schema := (f.schema.withExtension locationKey (.str site.location.text)).settle
        required := RequestParts.isRequired site f }
  else none

namespace RequestParts

variable {p : Program} {r : RequestParts} {site : LocatedField} {f : FieldSchema}
  {given : List Property} {T : SchemaTable} {sites : List LocatedField} {fs : List FieldSchema}

/-- The properties of the form that fields make. -/
def formProperties (fields : List (LocatedField × FieldSchema)) : List Property :=
  fields.filterMap fun x => x.1.formProperty? x.2

/-- The form has the properties that were given so far; there is none before the first. -/
def Forms (r : RequestParts) (given : List Property) : Prop :=
  match r.form with
  | none => given = []
  | some form => form.properties = table given ∧ form.required = demanded given

theorem Forms.getD (h : r.Forms given) (media : String) :
    (r.form.getD { media }).properties = table given ∧
      (r.form.getD { media }).required = demanded given := by
  unfold Forms at h
  cases hf : r.form with
  | none =>
    rw [hf] at h
    subst h
    exact ⟨rfl, rfl⟩
  | some form => rwa [hf] at h

theorem Forms.addField (h : r.Forms given) :
    (r.addField site f).Forms (given ++ (site.formProperty? f).toList) := by
  unfold RequestParts.addField LocatedField.formProperty?
  cases hm : site.location.formMediaType? with
  | some media =>
    obtain ⟨hp, hr⟩ := h.getD media
    refine ⟨?_, ?_⟩
    · simp [extendForm, hp, table]
    · cases hreq : isRequired site f <;> simp [extendForm, hr, demanded, hreq]
  | none =>
    have kept (r' : RequestParts) (hr : r'.form = r.form) : r'.Forms (given ++ []) := by
      rw [List.append_nil]
      unfold Forms
      rwa [hr]
    dsimp only
    split
    · exact kept _ (by unfold addBody; split <;> rfl)
    · split
      · exact kept _ rfl
      · exact kept _ rfl

theorem forms_gather (fields : List (LocatedField × FieldSchema)) (h : r.Forms given) :
    (gather r fields).Forms (given ++ formProperties fields) := by
  induction fields generalizing r given with
  | nil => simpa [gather, formProperties] using h
  | cons x fields ih =>
    have hrest := ih (r := r.addField x.1 x.2) h.addField
    rw [List.append_assoc] at hrest
    cases hx : x.1.formProperty? x.2 <;> simpa [gather, formProperties, hx] using hrest

/-- The first field for the body makes it. -/
theorem of_mem_body_addField {body : RequestBody} (h : body ∈ (r.addField site f).body) :
    body ∈ r.body ∨ body.content =
      [(site.param.contentType.getD MediaType.json, { f.schema with description := none })] := by
  unfold RequestParts.addField at h
  cases hm : site.location.formMediaType? with
  | some media =>
    rw [hm] at h
    exact .inl h
  | none =>
    rw [hm] at h
    dsimp only at h
    split at h
    · unfold addBody at h
      split at h
      · exact .inl h
      · cases h
        exact .inr rfl
    · split at h <;> exact .inl h

theorem forall_body_gather {P : Schema → Prop} {fields : List (LocatedField × FieldSchema)}
    (h : ∀ body ∈ r.body, ∀ c ∈ body.content, P c.2)
    (hf : ∀ x ∈ fields, P { x.2.schema with description := none }) :
    ∀ body ∈ (gather r fields).body, ∀ c ∈ body.content, P c.2 := by
  induction fields generalizing r with
  | nil => exact h
  | cons x fields ih =>
    obtain ⟨hx, hrest⟩ := List.forall_mem_cons.mp hf
    refine ih (r := r.addField x.1 x.2) (fun body hb => ?_) hrest
    rcases of_mem_body_addField hb with hb | hb
    · exact h body hb
    · simpa [hb] using hx

theorem every_bare_of_compiledIn (h : CompiledIn p T sites fs) :
    ∀ x ∈ sites.zip fs, Every Bare x.2.schema := by
  have hbare : ∀ f ∈ fs, Every Bare f.schema := forall_mem_of_forall₂ (List.Forall₂.imp
    (fun _ _ hf => p.places_compileField.every_bare_fieldOf hf) h)
  exact fun x hx => hbare x.2 (List.of_mem_zip hx).2

theorem every_bare_formProperties {fields : List (LocatedField × FieldSchema)}
    (h : ∀ x ∈ fields, Every Bare x.2.schema) :
    ∀ g ∈ formProperties fields, Every Bare g.schema := by
  intro g hg
  obtain ⟨x, hx, hform⟩ := List.mem_filterMap.mp hg
  unfold LocatedField.formProperty? at hform
  split at hform <;> cases hform
  exact every_bare_settle (every_bare_withExtension (h x hx) _ _)

/-- The form is the object that has the properties of the form fields. -/
theorem demandsOf_requestBody (h : CompiledIn p T sites fs) :
    ∀ body ∈ (gather {} (sites.zip fs)).requestBody, ∀ c ∈ body.content,
      c.2.DemandsOf (· = formProperties (sites.zip fs)) := by
  have hbare := every_bare_of_compiledIn h
  have hbody := forall_body_gather (r := {}) (P := Every Bare) (by simp)
    fun x hx => every_bare_undescribed (hbare x hx)
  have hforms : (gather {} (sites.zip fs)).Forms ([] ++ formProperties (sites.zip fs)) :=
    forms_gather _ rfl
  intro body hmem c hc
  rw [demandsOf_iff]
  unfold requestBody at hmem
  split at hmem
  · next hb =>
    cases hmem
    exact (hbody _ hb c hc).imp fun n hn hp => absurd hn.properties hp
  · next form _ hf =>
    cases hmem
    cases List.mem_singleton.mp hc
    unfold Forms at hforms
    rw [hf] at hforms
    obtain ⟨hp, hr⟩ := hforms
    rw [hp, hr]
    refine every_objectWith (fun _ => ⟨_, rfl, holds_objectWith _⟩) fun g hg => ?_
    exact (every_bare_formProperties hbare g hg).imp fun n hn hp => absurd hn.properties hp
  · cases hmem

end RequestParts

namespace Operator

open RequestParts LocatedField

/-- No type has properties where it is written. The objects inside a component have the properties
that its declaration gives, and the form of an operator has those that the form fields make, which
are found in its struct and in those that are flattened into it. All of these require properties of
theirs only. They agree with the fields, and name each once, exactly if no field that demands a
value is followed by another one of its name. -/
theorem required_unless_shadowed (search : ErrorSearch) :
    let p := search.program
    (∀ type module T answer T', (p.compileType type module).runOn T = (.ok answer, T') →
      Every (fun n => n.properties = none) answer) ∧
    (∀ calls key c s, (SchemaTable.after p {} calls).definition? key = some c → c.schema = some s →
      (∀ name, key ≠ builtinKey name) → ∃ d args n, d ∈ p.types ∧ d.key args = key ∧
        s.DemandsOf ((d.surroundings p n (SchemaTable.after p {} calls) args).Gives d)) ∧
    ∀ table memo calls module name op s',
      (compile search (.type module name)).runOn (.after search { table, memo } calls) =
        (.ok op, s') →
      ∃ d sites fs, d ∈ p.structs ∧ nameOf d = qualify module name ∧
        all p (qualify module name) d = .ok sites ∧ op.Reads p s'.table sites fs ∧
        ∀ body ∈ op.requestBody, ∀ c ∈ body.content,
          c.2.DemandsOf (· = formProperties (sites.zip fs)) := by
  intro p
  refine ⟨fun type module T answer T' hr => ?_, fun calls key c s hc hs hkey =>
    demandsOf_component hc hs hkey, fun table memo calls module name op s' hr => ?_⟩
  · exact ((p.places_compileField.schemaOf type).ok hr).2.every_bare.imp fun _ => Bare.properties
  · obtain ⟨module', name', d, sites, fs, hname, hd, hall, hreads⟩ :=
      (lasting_readsFound search).of_compile hr
    obtain ⟨rfl, rfl⟩ := Program.place_of_findStruct hd
    refine ⟨d, sites, fs, List.mem_of_find?_eq_some hd, hname.symm, hall, hreads, ?_⟩
    rw [hreads.requestBody]
    exact demandsOf_requestBody hreads.compiled

section Logins

/-- A public field of a form. -/
def formField (name : String) : Field :=
  ⟨[⟨{ segments := ["param"] }, .list [.ident "form"]⟩], true, some name, .path ["String"] []⟩

def login : Declared StructItem := ⟨[], [], "Login", [], .named [formField "password"]⟩

/-- The component of a struct with one field agrees with it, and so does its form. -/
theorem required_unless_shadowed_login :
    let p : Program := { structs := [login] }
    (∃ s given, (SchemaTable.after p {} [.type (.path ["Login"] []) []]).definition? "Login" =
        some ⟨"Login", some s⟩ ∧ s.Holds given ∧ s.Agrees given) ∧
    ∃ op s', (compile (ErrorSearch.ofProgram p) (.type [] "Login")).runOn {} = (.ok op, s') ∧
      ∃ body c given, op.requestBody = some body ∧ c ∈ body.content ∧ c.2.Holds given ∧
        c.2.Agrees given := by
  intro p
  obtain ⟨-, component, form⟩ := required_unless_shadowed (ErrorSearch.ofProgram p)
  have unshadowed {given : List Property} (h : given.length ≤ 1) : Unshadowed given := by
    match given, h with
    | [], _ => exact .nil
    | [g], _ => exact List.pairwise_singleton _ g
  constructor
  · have hc : (SchemaTable.after p {} [.type (.path ["Login"] []) []]).definition? "Login" =
        some ⟨"Login", some _⟩ := rfl
    obtain ⟨d, args, n, hd, -, hdemands⟩ :=
      component _ "Login" _ _ hc rfl (ne_builtinKey (by decide))
    obtain ⟨given, hgives, hholds, -, hagrees⟩ :=
      hdemands _ (.self _) (Option.isSome_iff_ne_none.mp (by decide +kernel))
    refine ⟨_, given, hc, hholds, hagrees.mpr (unshadowed ?_)⟩
    obtain rfl := List.mem_singleton.mp hd
    cases hgives with
    | unit => exact Nat.zero_le 1
    | fields hf hfs =>
      cases hf
      rw [List.length_map, ← hfs.length_eq]
      exact List.length_filter_le ..
  · obtain ⟨op, s', hrun, hseen⟩ : ∃ op s',
        (compile (ErrorSearch.ofProgram p) (.type [] "Login")).runOn {} = (.ok op, s') ∧
          (op.requestBody.toList.any fun body => body.content.any (·.2.properties.isSome)) = true :=
      exists_of_runOn (by decide +kernel)
    obtain ⟨d, sites, fs, hd, -, hall, -, hdemands⟩ := form {} [] [] [] "Login" op s' hrun
    obtain ⟨body, hbody, hany⟩ := List.any_eq_true.mp hseen
    have hbody : op.requestBody = some body := Option.mem_toList.mp hbody
    obtain ⟨c, hc, hsome⟩ := List.any_eq_true.mp hany
    obtain ⟨given, rfl, hholds, -, hagrees⟩ :=
      hdemands body hbody c hc _ (.self _) (Option.isSome_iff_ne_none.mp hsome)
    refine ⟨op, s', hrun, body, c, _, hbody, hc, hholds, hagrees.mpr (unshadowed ?_)⟩
    obtain rfl := List.mem_singleton.mp hd
    cases hall
    exact (List.length_filterMap_le ..).trans (by simp)

/-- A field with the serialized name `id`. -/
def idField (name : String) (type : TypeExpr) : Field :=
  ⟨[⟨{ segments := ["serde"] }, .list [.ident "rename", .punct '=' false, .literal "\"id\""]⟩],
    true, some name, type⟩

/-- Two fields of one serialized name, of which the second demands a value or not. -/
def idFields (optional : Bool) : Program where
  structs := [⟨[], [], "Ids", [], .named [idField "first" (.path ["u32"] []), idField "second"
    (if optional then .path ["Option"] [.path ["String"] []] else .path ["String"] [])]⟩]

/-- A form with a field that is flattened into it beside one of the same name. -/
def twoPasswords : Program where
  structs := [⟨[], [], "Change", [], .named [formField "password", flatField "login" ["Login"]]⟩,
    login]

/-- A name is required twice if two fields with this name demand a value, and once if only the field
that is overwritten does. The names of form fields repeat in the same way. -/
theorem required_shadowed :
    let ids (optional : Bool) :=
      (SchemaTable.after (idFields optional) {} [.type (.path ["Ids"] []) []]).definition? "Ids"
    (∃ s, ids false = some ⟨"Ids", some s⟩ ∧ s.required = some ["id", "id"]) ∧
    (∃ s f, ids true = some ⟨"Ids", some s⟩ ∧ s.required = some ["id"] ∧
      ((idFields true).compileMember (idField "second" (.path ["Option"] [.path ["String"] []])) {}
        []).runOn {} = (.ok f, {}) ∧
      s.property? "id" = some f.schema ∧ f.required = false) ∧
    ∃ op s', (compile (ErrorSearch.ofProgram twoPasswords) (.type [] "Change")).runOn {} =
        (.ok op, s') ∧
      op.requestBody.map (fun body => body.content.map (·.2.required)) =
        some [some ["password", "password"]] := by
  intro ids
  refine ⟨⟨_, rfl, eq_of_beq (by decide +kernel)⟩,
    ⟨_, _, rfl, eq_of_beq (by decide +kernel), rfl, rfl, rfl⟩, ?_⟩
  obtain ⟨op, s', hrun, hseen⟩ : ∃ op s',
      (compile (ErrorSearch.ofProgram twoPasswords) (.type [] "Change")).runOn {} = (.ok op, s') ∧
        (op.requestBody.map (fun body => body.content.map (·.2.required)) ==
          some [some ["password", "password"]]) = true :=
    exists_of_runOn (by decide +kernel)
  exact ⟨op, s', hrun, eq_of_beq hseen⟩

end Logins

end Operator

end ServiceContract
