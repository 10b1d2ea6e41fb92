import ServiceContract.Proofs.Document.Placement
import ServiceContract.Proofs.Operator.Compiles

/-! # The schemas of a document

A property of schemas is carried from the compilers to the whole document: to the components, and
to the parameters, bodies and responses of all operations.
-/

namespace ServiceContract

open SchemaTable TypeCompiler Work

namespace Endpoint

variable {Good : Schema → Prop} {chain : List Operator}

theorem foldl_requestBody (start : Option RequestBody) :
    chain.foldl (fun body op => op.requestBody.or body) start =
      (chain.filterMap (·.requestBody)).getLast?.or start := by
  induction chain generalizing start with
  | nil => rfl
  | cons op rest ih =>
    rw [List.foldl_cons, ih]
    cases h : op.requestBody with
    | none => rw [List.filterMap_cons_none h, Option.none_or]
    | some body =>
      rw [List.filterMap_cons_some h, List.getLast?_cons]
      cases (rest.filterMap (·.requestBody)).getLast? <;> rfl

/-- The body of an endpoint is the last one in its chain. -/
theorem requestBody_fold {label : String} :
    (fold chain label).requestBody = (chain.filterMap (·.requestBody)).getLast? :=
  (foldl_requestBody none).trans Option.or_none

theorem mem_requestBody_fold {label : String} {body : RequestBody}
    (h : body ∈ (fold chain label).requestBody) : ∃ op ∈ chain, body ∈ op.requestBody := by
  rw [requestBody_fold] at h
  exact List.mem_filterMap.mp (List.mem_of_getLast? h)

theorem mem_parameters_fold {label : String} {x : Parameter}
    (h : x ∈ (fold chain label).parameters) : ∃ op ∈ chain, x ∈ op.parameters := by
  have hx := (mem_or_mem_of_mem_foldl h).resolve_left List.not_mem_nil
  obtain ⟨c, hc, hx⟩ := List.mem_flatMap.mp hx
  obtain ⟨⟨op, i⟩, hi, rfl⟩ := List.mem_map.mp hc
  exact ⟨op, List.fst_mem_of_mem_zipIdx hi, (List.mem_filter.mp hx).1⟩

/-- An endpoint has no schemas but those of the operators of its chain. -/
theorem schemas_fold (label : String) (h : ∀ op ∈ chain, ∀ s ∈ op.schemas, Good s) :
    ∀ s ∈ (fold chain label).schemas, Good s := by
  refine forall_mem_contentsOf.mpr ⟨fun x hx => ?_, fun body hbody => ?_, ?_⟩
  · obtain ⟨op, hop, hx⟩ := mem_parameters_fold hx
    exact (forall_mem_contentsOf.mp (h op hop)).1 x hx
  · obtain ⟨op, hop, hb⟩ := mem_requestBody_fold hbody
    exact (forall_mem_contentsOf.mp (h op hop)).2.1 body hb
  · refine List.forall_mem_singleton.mpr fun s hs => ?_
    cases hl : chain.getLast? with
    | none => simp [fold, hl, Operator.group, Response.schemas] at hs
    | some op =>
      have hop := (forall_mem_contentsOf.mp (h op (List.mem_of_getLast? hl))).2.2
      simp only [fold, hl, Option.getD_some] at hs
      exact hop _ List.mem_cons_self s hs

end Endpoint

namespace SchemaTable

variable {entries : List (String × Definition)} {acc : List (String × Schema)}

/-- The components with the schemas of some entries. -/
def addComponents (acc : List (String × Schema)) (entries : List (String × Definition)) :
    List (String × Schema) :=
  entries.foldl (fun acc (_, d) =>
    match d.schema with
    | some s => insertSorted d.name s acc
    | none => acc) acc

theorem mem_addComponents {e : String × Schema} (h : e ∈ addComponents acc entries) :
    e ∈ acc ∨ ∃ entry ∈ entries, entry.2.schema = some e.2 := by
  induction entries generalizing acc with
  | nil => exact Or.inl h
  | cons entry rest ih =>
    rcases ih h with h | ⟨entry', hm, h⟩
    · dsimp only at h
      split at h
      · next s hs =>
        rcases mem_insertSorted h with rfl | h
        · exact Or.inr ⟨entry, List.mem_cons_self, hs⟩
        · exact Or.inl h
      · exact Or.inl h
    · exact Or.inr ⟨entry', List.mem_cons_of_mem _ hm, h⟩

theorem mem_keys_addComponents {name : String}
    (h : name ∈ acc.map Prod.fst ∨ ∃ entry ∈ entries, entry.2.name = name ∧ entry.2.schema ≠ none) :
    name ∈ (addComponents acc entries).map Prod.fst := by
  induction entries generalizing acc with
  | nil => simpa [addComponents] using h
  | cons entry rest ih =>
    refine ih ?_
    rcases h with h | ⟨entry', hm, hn, hs⟩
    · left
      dsimp only
      split
      · exact mem_keys_insertSorted.mpr (Or.inr h)
      · exact h
    · rcases List.mem_cons.mp hm with rfl | hm
      · obtain ⟨s, hs⟩ := Option.ne_none_iff_exists'.mp hs
        left
        simp only [hs]
        exact mem_keys_insertSorted.mpr (Or.inl hn.symm)
      · exact Or.inr ⟨entry', hm, hn, hs⟩

end SchemaTable

namespace Generation

variable {P : Schema → Prop} {schema : Option Schema} {formatter : Option ErrorFormatter}
  {e : Endpoint} {rs : List (String × Response)}

theorem schemas_addErrors {error : Schema} {bucket : Nat × List StatusError} (hs : P error)
    (hrs : ∀ r ∈ rs, ∀ s ∈ r.2.schemas, P s) :
    ∀ r ∈ addErrors error rs bucket, ∀ s ∈ r.2.schemas, P s := by
  intro r hr
  rcases mem_insertSorted hr with rfl | hr
  · -- The extension holds no schema, so these are the schemas of the response before.
    change ∀ s ∈ ((rs.lookup (Text.decimal bucket.1)).getD
      (errorResponse error bucket.1)).schemas, P s
    cases hl : rs.lookup (Text.decimal bucket.1) with
    | none => exact List.forall_mem_singleton.mpr hs
    | some r => exact hrs _ (mem_of_lookup hl)
  · exact hrs r hr

/-- The responses of an endpoint hold its schemas and the schema of error responses. -/
theorem schemas_responses (hs : ∀ s ∈ schema, P s)
    (he : ∀ s ∈ e.leaf.response.response.schemas, P s) :
    ∀ r ∈ responses schema formatter e, ∀ s ∈ r.2.schemas, P s := by
  have success : ∀ r ∈ [(Text.decimal e.leaf.response.status, e.leaf.response.response)],
      ∀ s ∈ r.2.schemas, P s := List.forall_mem_singleton.mpr he
  unfold responses
  cases schema with
  | none => exact success
  | some error =>
    have hs := hs error rfl
    refine List.foldlRecOn (motive := fun rs : List (String × Response) =>
      ∀ r ∈ rs, ∀ s ∈ r.2.schemas, P s) _ _ success ?_
    intro rs hrs bucket _
    exact schemas_addErrors hs hrs

theorem schemas_operation (hs : ∀ s ∈ schema, P s) (he : ∀ s ∈ e.schemas, P s) :
    ∀ s ∈ (operation schema formatter e).schemas, P s := by
  obtain ⟨hp, hb, hr⟩ := forall_mem_contentsOf.mp he
  refine forall_mem_contentsOf.mpr ⟨hp, hb, ?_⟩
  rw [List.forall_mem_map]
  exact schemas_responses hs (hr _ List.mem_cons_self)

/-- Every operation of a placement is that of one of its endpoints. -/
theorem mem_operationsOn_placement {make : Endpoint → Operation} {outcomes : List Outcome}
    (hd : Endpoint.duplicate? [] (sortedEndpoints outcomes) = none)
    {o : Method × String × Operation} (ho : o ∈ operationsOn (placement make outcomes).paths) :
    ∃ r e, (r, .ok e) ∈ outcomes ∧ o.2.2 = make e := by
  obtain ⟨e, he, ho⟩ := List.mem_filterMap.mp ((placed_placement hd).operations.mem_iff.mp ho)
  obtain ⟨r, hr⟩ := mem_sortedEndpoints.mp he
  exact ⟨r, e, hr, Fate.operation?_eq_some ho⟩

end Generation

namespace OperatorRules

open Generation

variable {p : Program} {Good : SchemaTable → Schema → Prop}
  {Parts : SchemaTable → ObjectParts → Prop} {Form : SchemaTable → FormParts → Prop}
  (rules : OperatorRules p Good Parts Form) {search : ErrorSearch} (hp : search.program = p)
  {s s' : CompilerState}

include rules

include hp in
/-- A survey makes progress, and the endpoints that it finds hold good schemas. -/
theorem surveys {routes : List Route} {outcomes : List Outcome}
    (h : Surveys search s routes outcomes s') (hr : s.Ready Good) :
    Progress Good s s' ∧ ∀ r e, (r, .ok e) ∈ outcomes → ∀ x ∈ e.schemas, Good s'.table x := by
  induction h with
  | nil => exact ⟨.refl _, by simp⟩
  | group _ _ ih => exact ih hr
  | @compiled s s₁ s' r chain _ os _ hc _ ih =>
    obtain ⟨hs, hops⟩ := (rules.compileChain hp _ hr).ok hc
    obtain ⟨hs', hes⟩ := ih (hs.ready hr)
    refine ⟨hs.trans hs', fun r' e he => ?_⟩
    rcases List.mem_cons.mp he with he | he
    · cases he
      exact fun x hx => rules.mono (fun _ => hs'.table.names)
        (Endpoint.schemas_fold r.label hops x hx)
    · exact hes r' e he
  | failed _ hc hf _ ih =>
    have hs := ((rules.compileChain hp _ hr).error hc).resolve_left (by simp [hf])
    obtain ⟨hs', hes⟩ := ih (hs.ready hr)
    exact ⟨hs.trans hs', fun r e he => hes r e (by simpa using he)⟩

theorem errorSchema (formatter : Option ErrorFormatter) :
    Meets (progressing Good) (Generation.errorSchema p formatter) s
      fun s schema => Good s.table schema := by
  cases formatter with
  | some f => exact rules.onTable (rules.compileRules.compileType _)
  | none =>
    obtain ⟨ht, hg⟩ := rules.registerBuiltin "StatusError" (rules.record s.table)
    exact ⟨⟨ht, rules.ready_of_advances ht⟩, hg⟩

theorem responseSchema (formatter : Option ErrorFormatter) (es : List Endpoint) :
    Meets (progressing Good) (Generation.responseSchema p formatter es) s
      fun s schema => ∀ x ∈ schema, Good s.table x := by
  unfold Generation.responseSchema
  split
  · refine .map ((rules.errorSchema formatter).imp fun s t _ hs => ?_)
    rintro _ ⟨⟩
    exact hs
  · exact .pure (by simp)

/-- All schemas of a generated document are good for the table that its components come from. -/
theorem document {config : Config} {routes : List Route} {g : Generation}
    (h : (ofRoutes p config routes).runOn {} = (.ok g, s')) :
    Progress Good {} s' ∧ g.document.components.schemas = s'.table.components ∧
      ∀ s ∈ g.document.schemas, Good s'.table s := by
  obtain ⟨outcomes, s₁, schema, hs, hd, hr, rfl⟩ := runOn_ofRoutes_eq_ok.mp h
  obtain ⟨hsurvey, hes⟩ := rules.surveys rfl hs (by simp [CompilerState.Ready])
  obtain ⟨hresponse, hschema⟩ := (rules.responseSchema _ _).ok hr
  have progress : Progress Good {} s' := hsurvey.trans hresponse
  refine ⟨progress, rfl, List.forall_mem_append.mpr ⟨?_, ?_⟩⟩
  · refine List.forall_mem_map.mpr fun e he => ?_
    obtain ⟨entry, hentry, hs⟩ := (mem_addComponents he).resolve_left List.not_mem_nil
    exact progress.table.closed (by simp [Closed]) entry hentry e.2 hs
  · refine List.forall_mem_flatMap.mpr fun o ho => ?_
    obtain ⟨r, e, he, ho⟩ := mem_operationsOn_placement hd ho
    rw [ho]
    exact schemas_operation hschema fun s hs =>
      rules.mono (fun _ => hresponse.table.names) (hes r e he s hs)

end OperatorRules

end ServiceContract
