import ServiceContract.Proofs.Document.Codec
import ServiceContract.Proofs.Document.Errors
import ServiceContract.Proofs.Document.Schemas
import ServiceContract.Proofs.Schema.Components

/-! # Generated documents are in order

Whatever is generated has no key twice in an object: the compilers of types and operators build no
such schema, and responses, paths and components are inserted in order. So a document is as it was
read, but for defaults that are null.
-/

namespace ServiceContract

namespace Schema

variable {s : Schema}

theorem Fresh.orderly (h : Fresh s) : s.Orderly where
  extensions := h.extensions ▸ .nil
  properties := h.properties
  values vs hvs v hv := by
    obtain ⟨text, rfl⟩ := h.values vs hvs
    obtain rfl := List.mem_singleton.mp hv
    simp [Json.KeysDistinct]
  default v hv := by simp [h.default] at hv

namespace Orderly

theorem withExtension (h : s.Orderly) {key : String} {value : Json} (hk : key ∉ knownKeys)
    (hv : value.Distinct) : (s.withExtension key value).Orderly :=
  ⟨h.extensions.insertSorted hk hv, h.properties, h.values, h.default⟩

theorem enumerate (h : s.Orderly) {members : List EnumMember}
    (hm : ∀ m ∈ members, m.value.Distinct) : (s.enumerate members).Orderly := by
  have hvalues :
      Orderly { s with values := some ((members.mergeSort EnumMember.le).map (·.value)) } := by
    refine ⟨h.extensions, h.properties, ?_, h.default⟩
    rintro _ ⟨⟩
    rw [List.forall_mem_map]
    exact fun m hmem => hm m (List.mem_mergeSort.mp hmem)
  unfold Schema.enumerate
  dsimp only
  split
  · exact hvalues
  · have hlabels (labels : List Json) (hd : (Json.arr labels).Distinct) :=
      hvalues.withExtension (show labelsKey ∉ knownKeys by decide) hd
    have hlabels := hlabels
      ((members.mergeSort EnumMember.le).map fun m => .str (m.label.getD m.name))
      (by simp [Json.KeysDistinct])
    exact ⟨hlabels.extensions, hlabels.properties, hlabels.values, hlabels.default⟩

end Orderly

/-- A schema in order whose default is as described. -/
def OrderlyWith (D : Json → Prop) (s : Schema) : Prop := s.Orderly ∧ ∀ v ∈ s.default, D v

theorem OrderlyWith.reference {D : Json → Prop} (r : Option String) :
    OrderlyWith D { reference := r } :=
  ⟨⟨.nil, by simp, by simp, by simp⟩, by simp⟩

theorem OrderlyWith.settle {D : Json → Prop} (h : Every (OrderlyWith D) s) :
    Every (OrderlyWith D) s.settle := by
  obtain ⟨hs, hd⟩ := h s (.self s)
  unfold Schema.settle
  split
  · have reference : Every (OrderlyWith D) { reference := s.reference } :=
      every_iff.mpr ⟨.reference s.reference, by simp [children]⟩
    refine every_iff.mpr ⟨⟨⟨hs.extensions, by simp, by simp, hs.default⟩, hd⟩, ?_⟩
    simpa [children] using reference
  · exact h

/-- No key stands twice in what is built and in what is said about it, and what holds of all
defaults that are said still does. -/
theorem nodeRules_orderly (p : Program) (D : Json → Prop) :
    NodeRules p (OrderlyWith D) (Every (OrderlyWith D)) where
  fresh h := ⟨h.orderly, by simp [h.default]⟩
  said h := h
  described {s} _ h := by
    obtain ⟨hs, hd⟩ := h s (.self s)
    exact h.of_children_eq ⟨⟨hs.extensions, hs.properties, hs.values, hs.default⟩, hd⟩ rfl
  extended {s _ _} hk hv h := by
    obtain ⟨hs, hd⟩ := h s (.self s)
    have hunknown : ∀ k ∈ remarkKeys, k ∉ knownKeys := by decide
    exact h.of_children_eq ⟨hs.withExtension (hunknown _ hk) hv, hd⟩ rfl
  enumerated {s _} hm _ h := by
    obtain ⟨hs, hd⟩ := h s (.self s)
    exact h.of_children_eq ⟨hs.enumerate hm.distinct, by simpa using hd⟩ children_enumerate
  settled := OrderlyWith.settle
  undescribed {s} h := by
    obtain ⟨hs, hd⟩ := h s (.self s)
    exact h.of_children_eq ⟨⟨hs.extensions, hs.properties, hs.values, hs.default⟩, hd⟩ rfl

theorem Every.withDefault {D : Json → Prop} {v : Json} (h : Every (OrderlyWith D) s)
    (hv : v.Distinct) (hd : D v) : Every (OrderlyWith D) { s with default := some v } := by
  have hs := (h s (.self s)).1
  have hdefault : Orderly { s with default := some v } :=
    ⟨hs.extensions, hs.properties, hs.values, by simpa using hv⟩
  exact h.of_children_eq ⟨hdefault, by simpa using hd⟩ rfl

end Schema

/-! ## The maps of a document

A response of an operator has at most one header and one body, and error responses are inserted by
their status. Nothing is said here about schemas: what holds of each schema of a document holds of
those in its maps.
-/

section Kept

variable {P : Schema → Prop}

theorem Content.Kept.of_schemas {c : Content} (h : Content.Kept (fun _ => True) c)
    (hs : ∀ s ∈ c.map Prod.snd, P s) : Content.Kept P c :=
  ⟨h.1, List.forall_mem_map.mp hs⟩

theorem Content.kept_singleton (media : String) (s : Schema) :
    Content.Kept (fun _ => True) [(media, s)] := ⟨List.nodup_singleton media, by simp⟩

theorem Response.Kept.of_schemas {r : Response} (h : r.Kept fun _ => True)
    (hs : ∀ s ∈ r.schemas, P s) : r.Kept P := by
  rw [Response.schemas, List.forall_mem_append] at hs
  refine ⟨fun headers hmem => ⟨(h.headers headers hmem).1, ?_⟩, fun c hc => ?_, h.extensions⟩
  · rw [hmem, Option.getD_some] at hs
    exact List.forall_mem_map.mp hs.1
  · rw [hc, Option.getD_some] at hs
    exact (h.content c hc).of_schemas hs.2

theorem Response.Kept.forall_schemas {r : Response} (h : r.Kept P) : ∀ s ∈ r.schemas, P s := by
  rw [Response.schemas, List.forall_mem_append, List.forall_mem_map, List.forall_mem_map]
  constructor
  · cases hh : r.headers with
    | none => simp
    | some headers => exact (h.headers headers hh).2
  · cases hc : r.content with
    | none => simp
    | some content => exact (h.content content hc).2

theorem Operation.Kept.of_schemas {o : Operation} (h : o.Kept fun _ => True)
    (hs : ∀ s ∈ o.schemas, P s) : o.Kept P := by
  obtain ⟨hparameters, hbody, hresponses⟩ := forall_mem_contentsOf.mp hs
  refine ⟨hparameters, fun b hb => (h.requestBody b hb).of_schemas (hbody b hb),
    ⟨h.responses.1, fun e he => ?_⟩, h.security⟩
  exact (h.responses.2 e he).of_schemas (hresponses e.2 (List.mem_map_of_mem he))

theorem Operation.Kept.forall_schemas {o : Operation} (h : o.Kept P) : ∀ s ∈ o.schemas, P s := by
  refine forall_mem_contentsOf.mpr ⟨h.parameters, fun b hb => ?_, ?_⟩
  · exact List.forall_mem_map.mpr (h.requestBody b hb).2
  · exact List.forall_mem_map.mpr fun e he => (h.responses.2 e he).forall_schemas

theorem PathItem.mem_operations {item : PathItem} {m : Method} {op : Operation} :
    (m, op) ∈ item.operations ↔ op ∈ item.operation? m := by
  simp [operations, m.mem_all]

theorem mem_operationsOn {paths : List (String × PathItem)} {e : String × PathItem}
    {m : Method} {op : Operation} (he : e ∈ paths) (h : (m, op) ∈ e.2.operations) :
    (m, e.1, op) ∈ operationsOn paths :=
  List.mem_flatMap.mpr ⟨e, he, List.mem_map.mpr ⟨(m, op), h, rfl⟩⟩

/-- A document is kept if its maps are, whatever holds of all its schemas. -/
theorem Document.Kept.of_schemas {d : Document} (h : d.Kept fun _ => True)
    (hs : ∀ s ∈ d.schemas, P s) : d.Kept P := by
  obtain ⟨hcomponents, hoperations⟩ := List.forall_mem_append.mp hs
  refine ⟨h.paths, fun e he m op hop => ?_, h.schemas, List.forall_mem_map.mp hcomponents,
    h.securitySchemes⟩
  refine (h.items e he m op hop).of_schemas fun s hmem => hoperations s ?_
  refine List.mem_flatMap.mpr ⟨(m, e.1, op), mem_operationsOn he ?_, hmem⟩
  exact PathItem.mem_operations.mpr hop

theorem Document.Kept.forall_schemas {d : Document} (h : d.Kept P) : ∀ s ∈ d.schemas, P s := by
  refine List.forall_mem_append.mpr ⟨List.forall_mem_map.mpr h.components, ?_⟩
  simp only [Document.operations, List.forall_mem_flatMap, List.forall_mem_map]
  rintro e he ⟨m, op⟩ hop
  exact (h.items e he m op (PathItem.mem_operations.mp hop)).forall_schemas

end Kept

/-- A body field has one media type. -/
theorem RequestParts.Gathered.content {r : RequestParts} (h : r.Gathered) :
    ∀ b ∈ r.body, Content.Kept (fun _ => True) b.content := by
  induction h with
  | nil => simp
  | add site f _ ih =>
    unfold RequestParts.addField
    dsimp only
    split
    · exact ih
    · split
      · unfold RequestParts.addBody
        split
        · exact ih
        · rintro _ ⟨⟩
          exact Content.kept_singleton _ _
      · split <;> exact ih

namespace Operator.Made

variable {op : Operator}

theorem content (h : op.Made) : ∀ b ∈ op.requestBody, Content.Kept (fun _ => True) b.content := by
  cases h with
  | group => exact nofun
  | @struct _ request _ _ _ hrequest _ hbody _ _ =>
    rw [hbody]
    unfold RequestParts.requestBody
    split
    · next body hb => exact fun b hmem => Option.some.inj hmem ▸ hrequest.content body hb
    · rintro _ ⟨⟩
      exact Content.kept_singleton _ _
    · exact nofun

theorem response (h : op.Made) : op.response.response.Kept fun _ => True := by
  cases h with
  | group => exact ⟨nofun, nofun, .nil⟩
  | @struct _ _ attr out body _ _ _ _ hresponse =>
    rw [hresponse]
    refine ⟨fun headers hmem => ?_, fun c hc => ?_, .nil⟩
    · obtain ⟨file, -, rfl⟩ := Option.map_eq_some_iff.mp hmem
      exact ⟨List.nodup_singleton _, by simp⟩
    · obtain ⟨b, -, rfl⟩ := Option.map_eq_some_iff.mp hc
      exact Content.kept_singleton _ _

end Operator.Made

/-- An endpoint of operators that have been made. -/
def Endpoint.Made (e : Endpoint) : Prop :=
  ∃ chain label, e = .fold chain label ∧ ∀ op ∈ chain, op.Made

namespace Endpoint.Made

variable {e : Endpoint}

theorem content (h : e.Made) : ∀ b ∈ e.requestBody, Content.Kept (fun _ => True) b.content := by
  obtain ⟨chain, label, rfl, hchain⟩ := h
  intro b hb
  obtain ⟨op, hop, hb⟩ := mem_requestBody_fold hb
  exact (hchain op hop).content b hb

theorem leaf (h : e.Made) : e.leaf.Made := by
  obtain ⟨chain, label, rfl, hchain⟩ := h
  show (chain.getLast?.getD (.group "")).Made
  cases hl : chain.getLast? with
  | none => exact .group ""
  | some op => exact hchain op (List.mem_of_getLast? hl)

end Endpoint.Made

/-- The endpoints that a survey finds are of operators that have been made. -/
theorem Surveys.made {search : ErrorSearch} {s s' : CompilerState} {routes : List Route}
    {outcomes : List Outcome} (h : Surveys search s routes outcomes s') (hs : s.Settled)
    (hd : ∀ r ∈ routes, ∀ op ∈ r.chain, op.Declared search.program) :
    ∀ r e, (r, .ok e) ∈ outcomes → e.Made := by
  induction h with
  | nil => simp
  | group _ _ ih => exact ih hs (List.forall_mem_cons.mp hd).2
  | @compiled _ _ _ r chain _ _ _ hc _ ih =>
    obtain ⟨hr, hrs⟩ := List.forall_mem_cons.mp hd
    obtain ⟨hsettled, hmade⟩ := (Operator.settles_chain hs hr).ok hc
    intro r' e he
    rcases List.mem_cons.mp he with he | he
    · cases he
      exact ⟨chain, r.label, rfl, hmade⟩
    · exact ih (hsettled hs) hrs r' e he
  | failed _ hc _ _ ih =>
    obtain ⟨hr, hrs⟩ := List.forall_mem_cons.mp hd
    have hsettled := ((Operator.settles_chain hs hr).error hc).1 hs
    exact fun r e he => ih hsettled hrs r e (by simpa using he)

namespace Generation

variable {schema : Option Schema} {formatter : Option ErrorFormatter} {e : Endpoint}

theorem kept_addErrors {error : Schema} {rs : List (String × Response)}
    (bucket : Nat × List StatusError)
    (h : Increasing rs ∧ ∀ r ∈ rs, r.2.Kept fun _ => True) :
    Increasing (addErrors error rs bucket) ∧
      ∀ r ∈ addErrors error rs bucket, r.2.Kept fun _ => True := by
  refine ⟨h.1.insertSorted, fun r hr => (mem_insertSorted hr).elim ?_ (h.2 r)⟩
  have hkept : ((rs.lookup (Text.decimal bucket.1)).getD
      (errorResponse error bucket.1)).Kept fun _ => True := by
    cases hl : rs.lookup (Text.decimal bucket.1) with
    | none =>
      refine ⟨nofun, fun c hc => ?_, .nil⟩
      exact Option.some.inj hc ▸ Content.kept_singleton _ _
    | some r => exact h.2 _ (mem_of_lookup hl)
  rintro rfl
  refine ⟨hkept.headers, hkept.content, hkept.extensions.insertSorted (by decide) ?_⟩
  simp [Json.KeysDistinct]

/-- Responses are sorted by status. -/
theorem kept_responses (h : e.Made) : Increasing (responses schema formatter e) ∧
    ∀ r ∈ responses schema formatter e, r.2.Kept fun _ => True := by
  have success : Increasing [(Text.decimal e.leaf.response.status, e.leaf.response.response)] ∧
      ∀ r ∈ [(Text.decimal e.leaf.response.status, e.leaf.response.response)],
        r.2.Kept fun _ => True :=
    ⟨List.pairwise_singleton _ _, List.forall_mem_singleton.mpr h.leaf.response⟩
  unfold responses
  cases schema with
  | none => exact success
  | some error =>
    exact List.foldlRecOn (motive := fun rs : List (String × Response) =>
      Increasing rs ∧ ∀ r ∈ rs, r.2.Kept fun _ => True) _ _ success
      fun rs hrs bucket _ => kept_addErrors bucket hrs

theorem kept_operation (h : e.Made) : (operation schema formatter e).Kept fun _ => True where
  parameters := by simp
  requestBody := h.content
  responses := kept_responses h
  security s hs := by
    obtain ⟨scheme, -, rfl⟩ := List.mem_map.mp hs
    exact List.pairwise_singleton _ _

theorem increasing_addScheme {schemes : List (String × SecurityScheme)}
    (scheme : String × SecurityScheme) (h : Increasing schemes) :
    Increasing (addScheme schemes scheme) := by
  unfold addScheme
  split
  · exact h
  · exact h.insertSorted

theorem Placement.increasing_add {make : Endpoint → Operation} {s : Placement}
    (h : Increasing s.schemes) : Increasing (s.add make e).schemes := by
  unfold Placement.add
  split
  · exact h
  · dsimp only
    split
    · exact h
    · exact List.foldlRecOn (motive := Increasing) _ _ h fun _ h scheme _ =>
        increasing_addScheme scheme h

/-- The maps of a generated document are in order, whatever its schemas are. -/
theorem kept_document {p : Program} {config : Config} {g : Generation}
    (h : ofProgram p config = .ok g) : g.document.Kept fun _ => True := by
  obtain ⟨tree, state, ht, hr⟩ := ofProgram_eq_ok.mp h
  obtain ⟨outcomes, s₁, schema, hs, hd, -, rfl⟩ := runOn_ofRoutes_eq_ok.mp hr
  have made := hs.made CompilerState.settled_empty (RouteTree.declared_routes ht)
  refine ⟨(placed_placement hd).increasing, fun e he m op hop => ?_, ?_, by simp, ?_⟩
  · have hmem := mem_operationsOn he (PathItem.mem_operations.mpr hop)
    obtain ⟨r, endpoint, hmade, rfl⟩ := mem_operationsOn_placement hd hmem
    exact kept_operation (made r endpoint hmade)
  · show Increasing state.table.components
    rw [SchemaTable.components_eq]
    exact increasing_foldl_insertSorted .nil
  · exact List.foldlRecOn (motive := fun s : Placement => Increasing s.schemes) _ _ .nil
      fun _ h _ _ => Placement.increasing_add h

end Generation

end ServiceContract
