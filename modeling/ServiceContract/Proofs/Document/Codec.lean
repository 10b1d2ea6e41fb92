import ServiceContract.Proofs.Schema.Codec

/-! # Documents are read back

A document is read back if its maps are in order and nothing gets lost of its schemas, and every
document that is read is of this kind. Both are shown for each of the records in a document.
-/

namespace ServiceContract

open Json (fieldOf listField entriesField ofEntries ReadBack ReadsKept Part Written record? needed
  optional defaulted string? bool? list? entries? sortedEntries?)

namespace Info

theorem readBack (i : Info) : ReadBack ofJson? toJson i := by
  refine .record rfl (.append (.cons (ReadBack.str _).distinct (.one (ReadBack.str _).distinct))
    (.optional fun s _ => .str s)) (by decide) ?_
  simp only [ofJson?, record?, Option.bind_eq_bind, Option.bind_some]
  rw [Json.needed_eq ?_ (.str i.title), Json.needed_eq ?_ (.str i.version),
    Json.optional_eq (o := i.description) ?_ fun s _ => .str s]
  · rfl
  all_goals simp [lookup_cons_ite]

theorem readsKept (v : Json) : ReadsKept ofJson? toJson (fun _ => True) v := by
  refine .record fun i h _ => ?_
  simp only [ofJson?, Option.bind_eq_bind, Option.bind_eq_some_iff] at h
  obtain ⟨fields, hfields, title, htitle, version, hversion, description, hdescription, h⟩ := h
  cases h
  have hparts := ((Part.needed (fun f _ => .str f.2) htitle).append
    (.needed (fun f _ => .str f.2) hversion)).append
    (.optional (fun f _ _ => .str f.2) hdescription)
  exact ⟨_, _, fields, _, hfields, rfl, hparts.imp fun _ => trivial⟩

end Info

namespace Parameter

theorem readBack {p : Parameter} (h : p.schema.Kept) : ReadBack ofJson? toJson p := by
  have hschema := Schema.readBack_of_kept h
  refine .record rfl (.append (.append (.cons (ReadBack.str _).distinct (.cons
    (ReadBack.str _).distinct (.one (ReadBack.bool _).distinct))) (.optional fun s _ => .str s))
    (.one hschema.distinct)) (by decide) ?_
  simp only [ofJson?, record?, Option.bind_eq_bind, Option.bind_some]
  rw [Json.needed_eq ?_ (.str p.name), Json.needed_eq ?_ (.str p.location),
    Json.needed_eq ?_ (.bool p.required),
    Json.optional_eq (o := p.description) ?_ fun s _ => .str s, Json.needed_eq ?_ hschema]
  · rfl
  all_goals simp [List.lookup_append, lookup_cons_ite]

theorem readsKept (v : Json) : ReadsKept ofJson? toJson (fun p => p.schema.Kept) v := by
  refine .record fun p h _ => ?_
  simp only [ofJson?, Option.bind_eq_bind, Option.bind_eq_some_iff] at h
  obtain ⟨fields, hfields, name, hname, location, hlocation, required, hrequired, description,
    hdescription, schema, hschema, h⟩ := h
  cases h
  have hparts := ((((Part.needed (fun f _ => .str f.2) hname).append
    (.needed (fun f _ => .str f.2) hlocation)).append
    (.needed (fun f _ => .bool f.2) hrequired)).append
    (.optional (fun f _ _ => .str f.2) hdescription)).append
    (.needed (fun f _ => Schema.readsKept f.2) hschema)
  exact ⟨_, _, fields, _, hfields, rfl, hparts.imp fun h => h.2⟩

end Parameter

namespace Content

/-- No media type stands twice, and the schemas are as described. -/
def Kept (P : Schema → Prop) (c : Content) : Prop := (c.map Prod.fst).Nodup ∧ ∀ e ∈ c, P e.2

theorem readBack_mediaType {s : Schema} (h : s.Kept) :
    ReadBack mediaType? (fun s => .obj [("schema", s.toJson)]) s := by
  have hschema := Schema.readBack_of_kept h
  refine .record rfl (.one hschema.distinct) (by decide) ?_
  simp only [mediaType?, record?, Option.bind_eq_bind, Option.bind_some]
  exact Json.needed_eq (by simp) hschema

theorem readsKept_mediaType (v : Json) :
    ReadsKept mediaType? (fun s => .obj [("schema", s.toJson)]) Schema.Kept v := by
  refine .record fun s h _ => ?_
  simp only [mediaType?, Option.bind_eq_bind, Option.bind_eq_some_iff] at h
  obtain ⟨fields, hfields, hschema⟩ := h
  exact ⟨_, _, fields, _, hfields, rfl, .needed (fun f _ => Schema.readsKept f.2) hschema⟩

theorem readBack {c : Content} (h : Kept Schema.Kept c) : ReadBack ofJson? toJson c :=
  .entries h.1 fun e he => readBack_mediaType (h.2 e he)

theorem readsKept (v : Json) : ReadsKept ofJson? toJson (Kept Schema.Kept) v :=
  .entries fun w _ => readsKept_mediaType w

end Content

namespace RequestBody

theorem readBack {b : RequestBody} (h : Content.Kept Schema.Kept b.content) :
    ReadBack ofJson? toJson b := by
  have hcontent := Content.readBack h
  refine .record rfl (.append (.optional fun s _ => .str s)
    (.cons (ReadBack.bool _).distinct (.one hcontent.distinct))) (by decide) ?_
  simp only [ofJson?, record?, Option.bind_eq_bind, Option.bind_some]
  rw [Json.optional_eq (o := b.description) ?_ fun s _ => .str s,
    Json.needed_eq ?_ (.bool b.required), Json.needed_eq ?_ hcontent]
  · rfl
  all_goals simp [List.lookup_append, lookup_cons_ite]

theorem readsKept (v : Json) :
    ReadsKept ofJson? toJson (fun b => Content.Kept Schema.Kept b.content) v := by
  refine .record fun b h _ => ?_
  simp only [ofJson?, Option.bind_eq_bind, Option.bind_eq_some_iff] at h
  obtain ⟨fields, hfields, description, hdescription, required, hrequired, content, hcontent, h⟩ :=
    h
  cases h
  have hparts := (Part.optional (fun f _ _ => .str f.2) hdescription).append
    ((Part.needed (fun f _ => .bool f.2) hrequired).append
      (.needed (fun f _ => Content.readsKept f.2) hcontent))
  exact ⟨_, _, fields, _, hfields, rfl, hparts.imp fun h => h.2.2⟩

end RequestBody

namespace Header

theorem readBack {h : Header} (hs : h.schema.Kept) : ReadBack ofJson? toJson h := by
  have hschema := Schema.readBack_of_kept hs
  refine .record rfl (.append (.optional fun s _ => .str s) (.one hschema.distinct)) (by decide) ?_
  simp only [ofJson?, record?, Option.bind_eq_bind, Option.bind_some]
  rw [Json.optional_eq (o := h.description) ?_ fun s _ => .str s, Json.needed_eq ?_ hschema]
  · rfl
  all_goals simp [List.lookup_append, lookup_cons_ite]

theorem readsKept (v : Json) : ReadsKept ofJson? toJson (fun h => h.schema.Kept) v := by
  refine .record fun r h _ => ?_
  simp only [ofJson?, Option.bind_eq_bind, Option.bind_eq_some_iff] at h
  obtain ⟨fields, hfields, description, hdescription, schema, hschema, h⟩ := h
  cases h
  have hparts := (Part.optional (fun f _ _ => .str f.2) hdescription).append
    (.needed (fun f _ => Schema.readsKept f.2) hschema)
  exact ⟨_, _, fields, _, hfields, rfl, hparts.imp fun h => h.2⟩

end Header

namespace SecurityScheme

theorem readBack (s : SecurityScheme) : ReadBack ofJson? toJson s := by
  refine .record rfl (.cons (ReadBack.str _).distinct (.cons (ReadBack.str _).distinct
    (.one (ReadBack.str _).distinct))) (by decide) ?_
  simp only [ofJson?, record?, Option.bind_eq_bind, Option.bind_some]
  rw [Json.needed_eq ?_ (.str s.type), Json.needed_eq ?_ (.str s.name),
    Json.needed_eq ?_ (.str s.location)]
  · rfl
  all_goals simp [lookup_cons_ite]

theorem readsKept (v : Json) : ReadsKept ofJson? toJson (fun _ => True) v := by
  refine .record fun s h _ => ?_
  simp only [ofJson?, Option.bind_eq_bind, Option.bind_eq_some_iff] at h
  obtain ⟨fields, hfields, type, htype, name, hname, location, hlocation, h⟩ := h
  cases h
  have hparts := (Part.needed (fun f _ => .str f.2) htype).append
    ((Part.needed (fun f _ => .str f.2) hname).append
      (.needed (fun f _ => .str f.2) hlocation))
  exact ⟨_, _, fields, _, hfields, rfl, hparts.imp fun _ => trivial⟩

end SecurityScheme

namespace Response

/-- The maps of a response are in order, and its schemas are as described. -/
structure Kept (P : Schema → Prop) (r : Response) : Prop where
  headers : ∀ hs ∈ r.headers, (hs.map Prod.fst).Nodup ∧ ∀ e ∈ hs, P e.2.schema
  content : ∀ c ∈ r.content, Content.Kept P c
  extensions : Json.Foreign knownKeys r.extensions

/-- The fields with known keys that are written of a response. -/
def knownFields (r : Response) : List (String × Json) :=
  [("description", .str r.description)] ++
    fieldOf "headers" (ofEntries Header.toJson) r.headers ++
    fieldOf "content" Content.toJson r.content

theorem Kept.readBack_headers {r : Response} (h : r.Kept Schema.Kept) : ∀ hs ∈ r.headers,
    ReadBack (entries? Header.ofJson?) (ofEntries Header.toJson) hs := fun hs hmem =>
  .entries (h.headers hs hmem).1 fun e he => Header.readBack ((h.headers hs hmem).2 e he)

theorem Kept.readBack_content {r : Response} (h : r.Kept Schema.Kept) :
    ∀ c ∈ r.content, ReadBack Content.ofJson? Content.toJson c := fun c hc =>
  Content.readBack (h.content c hc)

theorem toJson_eq (r : Response) : r.toJson = .obj (r.knownFields ++ r.extensions) := rfl

theorem Kept.written {r : Response} (h : r.Kept Schema.Kept) : Written knownKeys r.knownFields :=
  .append (.append (.one (ReadBack.str _).distinct) (.optional h.readBack_headers))
    (.optional h.readBack_content)

theorem readBack {r : Response} (h : r.Kept Schema.Kept) : ReadBack ofJson? toJson r := by
  refine .record r.toJson_eq (h.written.foreign h.extensions)
    (h.extensions.nodup_append (by decide)) ?_
  simp only [ofJson?, Option.bind_eq_bind]
  rw [h.written.extensions h.extensions, Json.needed_eq ?_ (.str r.description),
    Json.optional_eq (o := r.headers) ?_ h.readBack_headers,
    Json.optional_eq (o := r.content) ?_ h.readBack_content]
  · rfl
  all_goals
    rw [h.extensions.lookup_known (by decide)]
    simp [knownFields, List.lookup_append, lookup_cons_ite]

theorem readsKept (v : Json) : ReadsKept ofJson? toJson (Kept Schema.Kept) v := by
  refine .record fun r h _ => ?_
  cases v with
  | obj fields =>
    simp only [ofJson?, Option.bind_eq_bind, Option.bind_eq_some_iff] at h
    obtain ⟨description, hdescription, headers, hheaders, content, hcontent, h⟩ := h
    cases h
    have hparts := (((Part.needed (fun f _ => .str f.2) hdescription).append
      (.optional (fun f _ _ => .entries fun w _ => Header.readsKept w) hheaders)).append
      (.optional (fun f _ _ => Content.readsKept f.2) hcontent)).append
      (.extensions knownKeys)
    exact ⟨[], 0, fields, _, rfl, rfl, hparts.imp fun ⟨⟨⟨_, hh⟩, hc⟩, he⟩ => ⟨hh, hc, he⟩⟩
  | _ => cases h

end Response

namespace Operation

/-- The maps of an operation are in order, and its schemas are as described. -/
structure Kept (P : Schema → Prop) (o : Operation) : Prop where
  parameters : ∀ p ∈ o.parameters, P p.schema
  requestBody : ∀ b ∈ o.requestBody, Content.Kept P b.content
  responses : Increasing o.responses ∧ ∀ e ∈ o.responses, e.2.Kept P
  security : ∀ s ∈ o.security, Increasing s

/-- The scopes of the schemes that a request has to prove. -/
def securityJson : List (String × List String) → Json :=
  ofEntries fun scopes => .arr (scopes.map .str)

theorem readBack_security {s : List (String × List String)} (h : Increasing s) :
    ReadBack (sortedEntries? (list? string?)) securityJson s :=
  .sortedEntries h fun _ _ => .list fun a _ => .str a

theorem readsKept_security (v : Json) :
    ReadsKept (sortedEntries? (list? string?)) securityJson Increasing v := by
  have h : ReadsKept (sortedEntries? (list? string?)) securityJson _ v :=
    .sortedEntries fun w _ => .list fun u _ => .str u
  exact ⟨fun hr hd => (h.kept hr hd).1, h.depth⟩

theorem readBack {o : Operation} (h : o.Kept Schema.Kept) : ReadBack ofJson? toJson o := by
  have hparameters : ∀ p ∈ o.parameters, ReadBack Parameter.ofJson? Parameter.toJson p :=
    fun p hp => Parameter.readBack (h.parameters p hp)
  have hbody : ∀ b ∈ o.requestBody, ReadBack RequestBody.ofJson? RequestBody.toJson b :=
    fun b hb => RequestBody.readBack (h.requestBody b hb)
  have hresponses : ReadBack (sortedEntries? Response.ofJson?) (ofEntries Response.toJson)
      o.responses := .sortedEntries h.responses.1 fun e he => Response.readBack (h.responses.2 e he)
  have hsecurity : ∀ s ∈ o.security,
      ReadBack (sortedEntries? (list? string?)) securityJson s :=
    fun s hs => readBack_security (h.security s hs)
  refine .record rfl (show Written keys _ from .append (.append (.append (.append (.append (.append
    (.append (.append (.list fun s _ => .str s) (.optional fun s _ => .str s))
    (.optional fun s _ => .str s)) (.one (ReadBack.str _).distinct)) (.list hparameters))
    (.optional hbody)) (.one hresponses.distinct)) .flag) (.list hsecurity)) (by decide) ?_
  simp only [ofJson?, record?, Option.bind_eq_bind, Option.bind_some]
  have htags : ∀ s ∈ o.tags, ReadBack string? .str s := fun s _ => .str s
  rw [Json.defaulted_list_eq ?_ htags,
    Json.optional_eq (o := o.summary) ?_ fun s _ => .str s,
    Json.optional_eq (o := o.description) ?_ fun s _ => .str s,
    Json.needed_eq ?_ (.str o.operationId), Json.defaulted_list_eq ?_ hparameters,
    Json.optional_eq ?_ hbody, Json.needed_eq ?_ hresponses,
    Json.defaulted_flag_eq (b := o.deprecated) ?_, Json.defaulted_list_eq ?_ hsecurity]
  · rfl
  all_goals simp [List.lookup_append, lookup_cons_ite, securityJson]

theorem readsKept (v : Json) : ReadsKept ofJson? toJson (Kept Schema.Kept) v := by
  refine .record fun o h _ => ?_
  simp only [ofJson?, Option.bind_eq_bind, Option.bind_eq_some_iff] at h
  obtain ⟨fields, hfields, tags, htags, summary, hsummary, description, hdescription, id, hid,
    parameters, hparameters, body, hbody, responses, hresponses, deprecated, hdeprecated, security,
    hsecurity, h⟩ := h
  cases h
  have hparts := Part.list (fun f _ w _ => .str w) htags
    |>.append (.optional (fun f _ _ => .str f.2) hsummary)
    |>.append (.optional (fun f _ _ => .str f.2) hdescription)
    |>.append (.needed (fun f _ => .str f.2) hid)
    |>.append (.list (fun f _ w _ => Parameter.readsKept w) hparameters)
    |>.append (.optional (fun f _ _ => RequestBody.readsKept f.2) hbody)
    |>.append (.needed (fun f _ => .sortedEntries fun w _ => Response.readsKept w) hresponses)
    |>.append (.flag hdeprecated)
    |>.append (.list (fun f _ w _ => readsKept_security w) hsecurity)
  refine ⟨_, _, fields, _, hfields, rfl, hparts.imp ?_⟩
  rintro ⟨⟨⟨⟨⟨-, hparameters⟩, hbody⟩, hresponses⟩, -⟩, hsecurity⟩
  exact ⟨hparameters, hbody, hresponses, hsecurity⟩

end Operation

namespace PathItem

/-- The operations on a path are as described. -/
def Kept (P : Schema → Prop) (item : PathItem) : Prop :=
  ∀ m, ∀ op ∈ item.operation? m, op.Kept P

/-- The fields that are written of the operations of some methods. -/
def fields (item : PathItem) (ms : List Method) : List (String × Json) :=
  ms.flatMap fun m => fieldOf m.key Operation.toJson (item.operation? m)

theorem toJson_eq (item : PathItem) : item.toJson = .obj (item.fields Method.all) := by
  have hfields (ms : List Method) : ((ms.filterMap fun m => (item.operation? m).map fun op =>
      (m, op)).map fun e => (e.1.key, e.2.toJson)) = item.fields ms := by
    induction ms with
    | nil => rfl
    | cons m ms ih =>
      rw [List.filterMap_cons, fields, List.flatMap_cons, ← fields]
      cases item.operation? m with
      | none => exact ih
      | some op => exact congrArg ((m.key, op.toJson) :: ·) ih
  exact congrArg Json.obj (hfields Method.all)

theorem keys_fields (item : PathItem) (ms : List Method) :
    ((item.fields ms).map Prod.fst).Sublist (ms.map Method.key) := by
  induction ms with
  | nil => exact .refl _
  | cons m ms ih =>
    rw [fields, List.flatMap_cons, List.map_append]
    exact Json.keys_fieldOf.append ih

theorem written_fields {item : PathItem} (h : item.Kept Schema.Kept) (ms : List Method) :
    Written (ms.map Method.key) (item.fields ms) := by
  refine ⟨item.keys_fields ms, ?_⟩
  simp only [fields, List.forall_mem_flatMap]
  intro m _
  have hfield : Written [m.key] (fieldOf m.key Operation.toJson (item.operation? m)) :=
    .optional fun op hop => Operation.readBack (h m op hop)
  exact hfield.distinct

theorem lookup_fields (item : PathItem) {m : Method} {ms : List Method} (hm : m ∈ ms)
    (hn : (ms.map Method.key).Nodup) :
    (item.fields ms).lookup m.key = (item.operation? m).map Operation.toJson := by
  induction ms with
  | nil => cases hm
  | cons n ms ih =>
    obtain ⟨hk, hms⟩ := List.nodup_cons.mp hn
    rw [fields, List.flatMap_cons, List.lookup_append, Json.lookup_fieldOf, ← fields]
    rcases List.mem_cons.mp hm with rfl | hm
    · have hnone : (item.fields ms).lookup m.key = none :=
        lookup_eq_none_iff.mpr fun hmem => hk ((item.keys_fields ms).subset hmem)
      rw [if_pos rfl, hnone, Option.or_none]
    · have hne : m.key ≠ n.key := fun heq => hk (heq ▸ List.mem_map_of_mem hm)
      rw [if_neg hne, Option.none_or, ih hm hms]

/-- The operations that are read are those of the methods whose keys are there. -/
theorem of_ofFields? {item : PathItem} {fs : List (String × Json)} {ms : List Method}
    (hn : ms.Nodup) (h : ofFields? fs ms = some item) :
    (∀ m ∈ ms, optional m.key Operation.ofJson? fs = some (item.operation? m)) ∧
      ∀ m ∉ ms, item.operation? m = none := by
  induction ms generalizing item with
  | nil =>
    cases h
    exact ⟨by simp, fun _ _ => rfl⟩
  | cons n ms ih =>
    obtain ⟨hk, hms⟩ := List.nodup_cons.mp hn
    simp only [ofFields?, Option.bind_eq_bind, Option.bind_eq_some_iff] at h
    obtain ⟨op, hop, rest, hrest, h⟩ := h
    obtain ⟨hin, hout⟩ := ih hms hrest
    have hitem (m : Method) : item.operation? m = if m = n then op else rest.operation? m := by
      cases op with
      | none =>
        cases h
        split
        · next heq => rw [heq, hout n hk]
        · rfl
      | some op =>
        cases h
        rfl
    constructor
    · intro m hm
      rw [hitem m]
      split
      · next heq => rw [heq, hop]
      · next hne => exact hin m ((List.mem_cons.mp hm).resolve_left hne)
    · intro m hm
      rw [hitem m, if_neg (List.ne_of_not_mem_cons hm), hout m (List.not_mem_of_not_mem_cons hm)]

theorem exists_ofFields? {fs : List (String × Json)} {ms : List Method}
    (h : ∀ m ∈ ms, ∃ op, optional m.key Operation.ofJson? fs = some op) :
    ∃ item, ofFields? fs ms = some item := by
  induction ms with
  | nil => exact ⟨_, rfl⟩
  | cons m ms ih =>
    obtain ⟨⟨op, hop⟩, hms⟩ := List.forall_mem_cons.mp h
    obtain ⟨rest, hrest⟩ := ih hms
    rw [ofFields?, hop, hrest]
    cases op with
    | none => exact ⟨_, rfl⟩
    | some op => exact ⟨_, rfl⟩

theorem readBack {item : PathItem} (h : item.Kept Schema.Kept) : ReadBack ofJson? toJson item := by
  refine .record item.toJson_eq (written_fields h Method.all) Method.nodup_map_key_all ?_
  have hfound (m : Method) : optional m.key Operation.ofJson? (item.fields Method.all) =
      some (item.operation? m) :=
    Json.optional_eq (item.lookup_fields m.mem_all Method.nodup_map_key_all)
      fun op hop => Operation.readBack (h m op hop)
  obtain ⟨read, hread⟩ : ∃ read, ofFields? (item.fields Method.all) Method.all = some read :=
    exists_ofFields? fun m _ => ⟨_, hfound m⟩
  have hsame (m : Method) : read.operation? m = item.operation? m :=
    Option.some.inj (((of_ofFields? Method.nodup_all hread).1 m m.mem_all).symm.trans (hfound m))
  rw [ofJson?, record?, Option.bind_eq_bind, Option.bind_some, hread]
  exact congrArg (some ∘ PathItem.mk) (funext hsame)

theorem readsKept (v : Json) : ReadsKept ofJson? toJson (Kept Schema.Kept) v := by
  refine .record fun item h _ => ?_
  simp only [ofJson?, Option.bind_eq_bind, Option.bind_eq_some_iff] at h
  obtain ⟨fs, hfs, h⟩ := h
  have hpart (m : Method) : Part fs (∀ op ∈ item.operation? m, op.Kept Schema.Kept)
      (fieldOf m.key Operation.toJson (item.operation? m)) :=
    .optional (fun f _ _ => Operation.readsKept f.2)
      ((of_ofFields? Method.nodup_all h).1 m m.mem_all)
  refine ⟨_, _, fs, _, hfs, item.toJson_eq, fun hd m => (hpart m).kept hd, fun hd hn => ?_⟩
  simp only [fields, List.forall_mem_flatMap]
  exact fun m _ => (hpart m).depth hd hn

end PathItem

namespace Components

theorem readBack {c : Components} (hs : Increasing c.schemas) (hc : ∀ e ∈ c.schemas, e.2.Kept)
    (hss : Increasing c.securitySchemes) : ReadBack ofJson? toJson c := by
  have hschemas : ∀ e ∈ c.schemas, ReadBack Schema.ofJson? Schema.toJson e.2 :=
    fun e he => Schema.readBack_of_kept (hc e he)
  have hsecurity : ∀ e ∈ c.securitySchemes,
      ReadBack SecurityScheme.ofJson? SecurityScheme.toJson e.2 := fun e _ => e.2.readBack
  refine .record rfl (.append (.entries hs hschemas) (.entries hss hsecurity)) (by decide) ?_
  simp only [ofJson?, record?, Option.bind_eq_bind, Option.bind_some]
  rw [Json.defaulted_entries_eq ?_ hs hschemas, Json.defaulted_entries_eq ?_ hss hsecurity]
  · rfl
  all_goals simp [List.lookup_append]

theorem readsKept (v : Json) : ReadsKept ofJson? toJson (fun c => Increasing c.schemas ∧
    (∀ e ∈ c.schemas, e.2.Kept) ∧ Increasing c.securitySchemes) v := by
  refine .record fun c h _ => ?_
  simp only [ofJson?, Option.bind_eq_bind, Option.bind_eq_some_iff] at h
  obtain ⟨fields, hfields, schemas, hschemas, schemes, hschemes, h⟩ := h
  cases h
  have hparts := (Part.entries (fun f _ w _ => Schema.readsKept w) hschemas).append
    (.entries (fun f _ w _ => SecurityScheme.readsKept w) hschemes)
  exact ⟨_, _, fields, _, hfields, rfl, hparts.imp fun h => ⟨h.1.1, h.1.2, h.2.1⟩⟩

end Components

namespace Document

/-- The maps of a document are in order, and its schemas are as described. -/
structure Kept (P : Schema → Prop) (d : Document) : Prop where
  paths : Increasing d.paths
  items : ∀ e ∈ d.paths, e.2.Kept P
  schemas : Increasing d.components.schemas
  components : ∀ e ∈ d.components.schemas, P e.2
  securitySchemes : Increasing d.components.securitySchemes

theorem readBack_server (url : String) : ReadBack server? serverJson url := by
  refine .record rfl (.one (ReadBack.str _).distinct) (by decide) ?_
  simp only [server?, record?, Option.bind_eq_bind, Option.bind_some]
  exact Json.needed_eq (by simp) (.str url)

theorem readsKept_server (v : Json) : ReadsKept server? serverJson (fun _ => True) v := by
  refine .record fun url h _ => ?_
  simp only [server?, Option.bind_eq_bind, Option.bind_eq_some_iff] at h
  obtain ⟨fields, hfields, hurl⟩ := h
  exact ⟨_, _, fields, _, hfields, rfl, .needed (fun f _ => .str f.2) hurl⟩

theorem readBack {d : Document} (h : d.Kept Schema.Kept) : ReadBack ofJson? toJson d := by
  have hinfo := d.info.readBack
  have hservers : ReadBack (list? server?) (fun urls => .arr (urls.map serverJson)) d.servers :=
    .list fun url _ => readBack_server url
  have hpaths : ReadBack (sortedEntries? PathItem.ofJson?) (ofEntries PathItem.toJson) d.paths :=
    .sortedEntries h.paths fun e he => PathItem.readBack (h.items e he)
  have hcomponents := Components.readBack h.schemas h.components h.securitySchemes
  refine .record rfl (.cons (ReadBack.str _).distinct (.cons hinfo.distinct (.cons hservers.distinct
    (.cons hpaths.distinct (.one hcomponents.distinct))))) (by decide) ?_
  simp only [ofJson?, record?, Option.bind_eq_bind, Option.bind_some]
  rw [Json.needed_eq ?_ (.str d.openapi), Json.needed_eq ?_ hinfo, Json.needed_eq ?_ hservers,
    Json.needed_eq ?_ hpaths, Json.needed_eq ?_ hcomponents]
  · rfl
  all_goals simp [lookup_cons_ite]

theorem readsKept (v : Json) : ReadsKept ofJson? toJson (Kept Schema.Kept) v := by
  refine .record fun d h _ => ?_
  simp only [ofJson?, Option.bind_eq_bind, Option.bind_eq_some_iff] at h
  obtain ⟨fields, hfields, openapi, hopenapi, info, hinfo, servers, hservers, paths, hpaths,
    components, hcomponents, h⟩ := h
  cases h
  have hparts := Part.needed (fun f _ => .str f.2) hopenapi
    |>.append (.needed (fun f _ => Info.readsKept f.2) hinfo)
    |>.append (.needed (fun f _ => .list fun w _ => readsKept_server w) hservers)
    |>.append (.needed (fun f _ => .sortedEntries fun w _ => PathItem.readsKept w) hpaths)
    |>.append (.needed (fun f _ => Components.readsKept f.2) hcomponents)
  refine ⟨_, _, fields, _, hfields, rfl, hparts.imp ?_⟩
  rintro ⟨⟨-, hpaths, hitems⟩, hschemas, hkept, hschemes⟩
  exact ⟨hpaths, hitems, hschemas, hkept, hschemes⟩

end Document

end ServiceContract
