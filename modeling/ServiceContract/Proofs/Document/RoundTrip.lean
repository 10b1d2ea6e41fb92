import ServiceContract.Proofs.Document.Codec
import ServiceContract.Proofs.Json.Text

/-! # What is read is written and read again

Whatever a document or a schema is read from, writing it and reading it again gives the same
document or schema, hence the same text. Unknown keys keep their values as extensions, properties
keep their order, and an optional key that was null is not written any more.
-/

namespace ServiceContract

open Json (ReadBack ReadsKept Readable record? optional fieldOf)

namespace Json

variable {α : Type}

/-- What is read is read again from what is written of it, as a value and as a text. -/
structure RoundTrips (read : Json → Option α) (write : α → Json) (readText : String → Option α)
    (writeText : α → String) : Prop where
  value : ∀ {v a}, v.Distinct → read v = some a → read (write a) = some a
  written : ∀ {v a}, Readable maxDepth v → read v = some a → (write a).NumbersReadBack →
    readText (writeText a) = some a
  text : ∀ {t a}, readText t = some a → (write a).NumbersReadBack → readText (writeText a) = some a

/-- Keys that are not known are extensions with the values that they have, and are written. -/
def KeepsUnknown (known : List String) (read : Json → Option α) (write : α → Json)
    (extensions : α → List (String × Json)) : Prop :=
  ∀ v a key, v.Distinct → read v = some a → key ∉ known →
    (extensions a).lookup key = v.get? key ∧ (write a).get? key = v.get? key

/-- An optional key that is null is not written any more, and none is written as null. -/
def DropsNulls (keys : List String) (read : Json → Option α) (write : α → Json) : Prop :=
  ∀ v a, v.Distinct → read v = some a → ∀ key ∈ keys,
    (v.get? key = some .null → (write a).get? key = none) ∧ (write a).get? key ≠ some .null

variable {read : Json → Option α} {write : α → Json} {readText : String → Option α}
  {writeText : α → String} {Kept : α → Prop} {v : Json}

theorem Readable.written {a : α} {n : Nat} (hv : Readable n v)
    (hr : ∀ v, ReadsKept read write Kept v) (hb : ∀ a, Kept a → ReadBack read write a)
    (h : read v = some a) : Readable n (write a) :=
  ⟨(hb a ((hr v).kept h hv.1)).distinct, Nat.le_trans ((hr v).depth h hv.1) hv.2⟩

theorem RoundTrips.of_kept (hr : ∀ v, ReadsKept read write Kept v)
    (hb : ∀ a, Kept a → ReadBack read write a)
    (hread : ∀ t, readText t = (parse? t).bind read)
    (htext : ∀ a, Readable maxDepth (write a) → (write a).NumbersReadBack →
      parse? (writeText a) = some (write a)) : RoundTrips read write readText writeText := by
  have hwritten {v : Json} {a : α} (hv : Readable maxDepth v) (ha : read v = some a)
      (hx : (write a).NumbersReadBack) : readText (writeText a) = some a := by
    rw [hread, htext a (hv.written hr hb ha) hx]
    exact (hb a ((hr v).kept ha hv.1)).read_write
  refine ⟨fun hd h => (hb _ ((hr _).kept h hd)).read_write, hwritten, fun h hx => ?_⟩
  rw [hread] at h
  obtain ⟨v, hv, ha⟩ := Option.bind_eq_some_iff.mp h
  exact hwritten (readable_of_parse? hv) ha hx

theorem get?_obj (key : String) (fields : List (String × Json)) :
    (Json.obj fields).get? key = fields.lookup key := by
  induction fields with
  | nil => rfl
  | cons f fields ih =>
    rw [get?] at ih ⊢
    rw [lookup_cons_ite, List.find?_cons, ← ih]
    by_cases h : f.1 = key
    · rw [if_pos h.symm, beq_iff_eq.mpr h]
      rfl
    · rw [if_neg (Ne.symm h), beq_false_of_ne h]

/-- An optional field with its key: it is written as it is read, and never as null. -/
inductive OptionalField (fields written : List (String × Json)) (key : String) : Prop
  | mk {β : Type} {read : Json → Option β} {o : Option β} (write : β → Json) :
    optional key read fields = some o → written.lookup key = o.map write →
    (∀ b ∈ o, write b ≠ .null) → OptionalField fields written key

theorem OptionalField.text {fields written : List (String × Json)} {key : String}
    {o : Option String} (ho : optional key string? fields = some o)
    (hw : written.lookup key = o.map .str) : OptionalField fields written key :=
  .mk .str ho hw fun _ _ => by simp

/-- An optional field that is null is read as absent, and is not written. -/
theorem OptionalField.drops {fields written : List (String × Json)} {key : String}
    (h : OptionalField fields written key) :
    (fields.lookup key = some .null → written.lookup key = none) ∧
      written.lookup key ≠ some .null := by
  cases h with
  | @mk _ _ o write ho hw hne =>
    rw [hw]
    constructor
    · intro hnull
      unfold Json.optional at ho
      rw [hnull] at ho
      cases ho
      rfl
    · intro hnull
      obtain ⟨b, rfl, hb⟩ := Option.map_eq_some_iff.mp hnull
      exact hne b rfl hb

/-- Where all these keys are those of optional fields, their nulls are dropped. -/
theorem DropsNulls.of_fields {keys : List String}
    (h : ∀ v a, v.Distinct → read v = some a → ∃ known n fields written,
      record? known n v = some fields ∧ write a = .obj written ∧
        ∀ key ∈ keys, OptionalField fields written key) : DropsNulls keys read write := by
  intro v a hd ha key hk
  obtain ⟨_, _, fields, written, hrec, hw, hfields⟩ := h v a hd ha
  obtain ⟨hdrop, hne⟩ := (hfields key hk).drops
  rw [hw, get?_obj]
  refine ⟨fun hnull => hdrop ?_, hne⟩
  cases v with
  | obj fs =>
    cases hrec
    rwa [get?_obj] at hnull
  | _ => cases hnull

end Json

namespace Schema

theorem toJson_ne_null (s : Schema) : s.toJson ≠ .null := by
  rw [toJson_eq]
  nofun

theorem roundTrips : Json.RoundTrips ofJson? toJson read? text :=
  .of_kept readsKept (fun _ => readBack_of_kept) (fun _ => rfl) fun _ => Json.parse?_compact

theorem keepsUnknown : Json.KeepsUnknown knownKeys ofJson? toJson extensions := by
  intro v s key hd h hk
  have hkept := (readsKept v).kept h hd
  cases v with
  | obj fields =>
    rw [ofJson?] at h
    have hs := says_of_ofFields hd.self h
    have hext : s.extensions.lookup key = fields.lookup key := by
      rw [hs.extensions, Json.lookup_extensions hd.self hk]
    have hwritten := (partsReadBack_of_kept hkept).written
    rw [toJson_eq, Json.get?_obj, Json.get?_obj, Schema.fields, hwritten.lookup_unknown hk, hext]
    exact ⟨rfl, rfl⟩
  | _ => cases h

/-- The properties that are read are written in the order in which they stood. -/
def KeepsPropertyOrder : Prop :=
  ∀ v s ps, v.Distinct → ofJson? v = some s → v.get? "properties" = some (.obj ps) →
    ∃ qs, s.toJson.get? "properties" = some (Json.ofEntries toJson qs) ∧
      List.Forall₂ (fun p q => p.1 = q.1 ∧ ofJson? p.2 = some q.2) ps qs

theorem keepsPropertyOrder : KeepsPropertyOrder := by
  intro v s ps hd h hps
  have hkept := (readsKept v).kept h hd
  cases v with
  | obj fields =>
    rw [ofJson?] at h
    have hs := says_of_ofFields hd.self h
    rw [Json.get?_obj] at hps
    obtain ⟨qs, hqs, hread⟩ : ∃ qs, s.properties = some qs ∧
        Json.entries? ofJson? (.obj ps) = some qs := by
      have hnullable := nullable_of_optional hps hs.properties
      obtain ⟨qs, hqs, heq⟩ := Option.map_eq_some_iff.mp hnullable
      exact ⟨qs, heq.symm, hqs⟩
    refine ⟨qs, ?_, Json.forall₂_of_entries hread⟩
    rw [toJson_eq, Json.get?_obj, (writes_fields hkept.orderly.extensions).properties,
      hqs, Option.map_some]
  | _ => cases h

theorem dropsNulls : Json.DropsNulls knownKeys ofJson? toJson := .of_fields fun v s hd h => by
  have hkept := (readsKept v).kept h hd
  have hw := writes_fields hkept.orderly.extensions
  cases v with
  | obj fields =>
    rw [ofJson?] at h
    have hs := says_of_ofFields hd.self h
    refine ⟨[], 0, fields, s.fields, rfl, toJson_eq s, ?_⟩
    simp only [knownKeys, List.forall_mem_cons]
    exact ⟨.text hs.reference hw.reference, .text hs.type hw.type, .text hs.format hw.format,
      .text hs.description hw.description, .mk _ hs.properties hw.properties fun _ _ => by simp,
      .mk _ hs.required hw.required fun _ _ => by simp,
      .mk _ hs.items hw.items fun _ _ => toJson_ne_null _,
      .mk _ hs.additionalProperties hw.additionalProperties fun _ _ => toJson_ne_null _,
      .mk _ hs.values hw.values fun _ _ => by simp, .mk _ hs.allOf hw.allOf fun _ _ => by simp,
      .mk _ hs.oneOf hw.oneOf fun _ _ => by simp, .mk _ hs.minItems hw.minItems fun _ _ => by simp,
      .mk _ hs.maxItems hw.maxItems fun _ _ => by simp,
      .mk _ hs.uniqueItems hw.uniqueItems fun _ _ => by simp,
      .mk _ hs.nullable hw.nullable fun _ _ => by simp,
      .mk _ hs.default hw.default fun b hb hnull => hkept.default_ne_null (hnull ▸ hb),
      List.forall_mem_nil _⟩
  | _ => cases h

end Schema

theorem Info.dropsNulls : Json.DropsNulls ["description"] ofJson? toJson :=
  .of_fields fun v i _ h => by
    simp only [ofJson?, Option.bind_eq_bind, Option.bind_eq_some_iff] at h
    obtain ⟨fields, hfields, _, -, _, -, description, hdescription, h⟩ := h
    cases h
    exact ⟨_, _, _, _, hfields, rfl, List.forall_mem_singleton.mpr
      (.text hdescription (by simp [lookup_cons_ite]))⟩

theorem Parameter.dropsNulls : Json.DropsNulls ["description"] ofJson? toJson :=
  .of_fields fun v i _ h => by
    simp only [ofJson?, Option.bind_eq_bind, Option.bind_eq_some_iff] at h
    obtain ⟨fields, hfields, _, -, _, -, _, -, description, hdescription, _, -, h⟩ := h
    cases h
    exact ⟨_, _, _, _, hfields, rfl, List.forall_mem_singleton.mpr
      (.text hdescription (by simp [List.lookup_append, lookup_cons_ite]))⟩

theorem RequestBody.dropsNulls : Json.DropsNulls ["description"] ofJson? toJson :=
  .of_fields fun v i _ h => by
    simp only [ofJson?, Option.bind_eq_bind, Option.bind_eq_some_iff] at h
    obtain ⟨fields, hfields, description, hdescription, _, -, _, -, h⟩ := h
    cases h
    exact ⟨_, _, _, _, hfields, rfl, List.forall_mem_singleton.mpr
      (.text hdescription (by simp [List.lookup_append, lookup_cons_ite]))⟩

theorem Header.dropsNulls : Json.DropsNulls ["description"] ofJson? toJson :=
  .of_fields fun v i _ h => by
    simp only [ofJson?, Option.bind_eq_bind, Option.bind_eq_some_iff] at h
    obtain ⟨fields, hfields, description, hdescription, _, -, h⟩ := h
    cases h
    exact ⟨_, _, _, _, hfields, rfl, List.forall_mem_singleton.mpr
      (.text hdescription (by simp [List.lookup_append, lookup_cons_ite]))⟩

namespace Response

theorem keepsUnknown : Json.KeepsUnknown knownKeys ofJson? toJson extensions := by
  intro v r key hd h hk
  have hkept := (readsKept v).kept h hd
  cases v with
  | obj fields =>
    simp only [ofJson?, Option.bind_eq_bind, Option.bind_eq_some_iff] at h
    obtain ⟨description, -, headers, -, content, -, h⟩ := h
    have hext : r.extensions.lookup key = fields.lookup key := by
      cases h
      exact Json.lookup_extensions hd.self hk
    rw [r.toJson_eq, Json.get?_obj, Json.get?_obj, hkept.written.lookup_unknown hk, hext]
    exact ⟨rfl, rfl⟩
  | _ => cases h

theorem dropsNulls : Json.DropsNulls ["headers", "content"] ofJson? toJson :=
  .of_fields fun v r hd h => by
    have hkept := (readsKept v).kept h hd
    cases v with
    | obj fields =>
      simp only [ofJson?, Option.bind_eq_bind, Option.bind_eq_some_iff] at h
      obtain ⟨description, -, headers, hheaders, content, hcontent, h⟩ := h
      cases h
      refine ⟨[], 0, fields, _, rfl, toJson_eq _, ?_⟩
      refine List.forall_mem_cons.mpr ⟨?_, List.forall_mem_singleton.mpr ?_⟩
      · refine .mk (Json.ofEntries Header.toJson) hheaders ?_ fun _ _ => by simp
        rw [hkept.extensions.lookup_known (by decide)]
        simp [knownFields, List.lookup_append, lookup_cons_ite]
      · refine .mk Content.toJson hcontent ?_ fun _ _ => by simp [Content.toJson]
        rw [hkept.extensions.lookup_known (by decide)]
        simp [knownFields, List.lookup_append, lookup_cons_ite]
    | _ => cases h

end Response

theorem Operation.dropsNulls :
    Json.DropsNulls ["summary", "description", "requestBody"] ofJson? toJson :=
  .of_fields fun v o _ h => by
    simp only [ofJson?, Option.bind_eq_bind, Option.bind_eq_some_iff] at h
    obtain ⟨fields, hfields, _, -, summary, hsummary, description, hdescription, _, -, _, -,
      body, hbody, _, -, _, -, _, -, h⟩ := h
    cases h
    refine ⟨_, _, _, _, hfields, rfl, ?_⟩
    simp only [List.forall_mem_cons]
    exact ⟨.text hsummary (by simp [List.lookup_append, lookup_cons_ite]),
      .text hdescription (by simp [List.lookup_append, lookup_cons_ite]),
      .mk RequestBody.toJson hbody (by simp [List.lookup_append, lookup_cons_ite])
        fun _ _ => by simp [RequestBody.toJson], List.forall_mem_nil _⟩

theorem PathItem.dropsNulls : Json.DropsNulls (Method.all.map Method.key) ofJson? toJson :=
  .of_fields fun v item _ h => by
    simp only [ofJson?, Option.bind_eq_bind, Option.bind_eq_some_iff] at h
    obtain ⟨fields, hfields, h⟩ := h
    refine ⟨_, _, _, _, hfields, item.toJson_eq, List.forall_mem_map.mpr fun m hm => ?_⟩
    exact .mk Operation.toJson ((of_ofFields? Method.nodup_all h).1 m hm)
      (item.lookup_fields hm Method.nodup_map_key_all) fun _ _ => by simp [Operation.toJson]

theorem Document.roundTrips : Json.RoundTrips ofJson? toJson read? jsonText :=
  .of_kept readsKept (fun _ => readBack) (fun _ => rfl) fun _ => Json.parse?_pretty

/-- Documents and schemas that are read are read again from what is written of them. The unknown
keys of schemas and responses are kept, properties stay in order, and nulls are dropped. -/
theorem read_written_again :
    Json.RoundTrips Document.ofJson? Document.toJson Document.read? Document.jsonText ∧
    Json.RoundTrips Schema.ofJson? Schema.toJson Schema.read? Schema.text ∧
    Json.KeepsUnknown Schema.knownKeys Schema.ofJson? Schema.toJson Schema.extensions ∧
    Json.KeepsUnknown Response.knownKeys Response.ofJson? Response.toJson Response.extensions ∧
    Schema.KeepsPropertyOrder ∧
    Json.DropsNulls Schema.knownKeys Schema.ofJson? Schema.toJson ∧
    Json.DropsNulls ["description"] Info.ofJson? Info.toJson ∧
    Json.DropsNulls ["description"] Parameter.ofJson? Parameter.toJson ∧
    Json.DropsNulls ["description"] RequestBody.ofJson? RequestBody.toJson ∧
    Json.DropsNulls ["description"] Header.ofJson? Header.toJson ∧
    Json.DropsNulls ["headers", "content"] Response.ofJson? Response.toJson ∧
    Json.DropsNulls ["summary", "description", "requestBody"] Operation.ofJson?
      Operation.toJson ∧
    Json.DropsNulls (Method.all.map Method.key) PathItem.ofJson? PathItem.toJson :=
  ⟨Document.roundTrips, Schema.roundTrips, Schema.keepsUnknown, Response.keepsUnknown,
    Schema.keepsPropertyOrder, Schema.dropsNulls, Info.dropsNulls, Parameter.dropsNulls,
    RequestBody.dropsNulls, Header.dropsNulls, Response.dropsNulls, Operation.dropsNulls,
    PathItem.dropsNulls⟩

/-- A schema with an unknown key and with a known one that is null. -/
def shelfValue : Json :=
  .obj [("format", .null), ("x-rows", .ofNat 7),
    ("properties", .obj [("title", .obj []), ("author", .obj [("type", .str "string")])])]

def shelf : Schema :=
  { properties := some [("title", {}), ("author", { type := some "string" })],
    extensions := [("x-rows", .ofNat 7)] }

def infoValue : Json :=
  .obj [("title", .str "Library"), ("version", .str "1"), ("description", .null)]

def libraryValue : Json :=
  .obj [("openapi", .str "3.0.0"),
    ("info", infoValue), ("servers", .arr []), ("paths", .obj []),
    ("components", .obj [("schemas", .obj [("Shelf", shelfValue)])])]

def library : Document :=
  { openapi := "3.0.0", info := { title := "Library", version := "1" }, servers := [], paths := []
    components := { schemas := [("Shelf", shelf)] } }

theorem read_written_again_library :
    Document.read? library.jsonText = some library ∧ Schema.read? shelf.text = some shelf ∧
      shelf.toJson.get? "x-rows" = some (.ofNat 7) ∧ shelf.toJson.get? "format" = none ∧
      (∃ qs, shelf.toJson.get? "properties" = some (Json.ofEntries Schema.toJson qs) ∧
        qs.map Prod.fst = ["title", "author"]) ∧
      library.info.toJson.get? "description" = none := by
  have hvalue : libraryValue.Distinct ∧ shelfValue.Distinct := by
    simp [libraryValue, infoValue, shelfValue, Json.KeysDistinct, Json.ofNat]
  have hdepth : libraryValue.depth ≤ Json.maxDepth ∧ shelfValue.depth ≤ Json.maxDepth := by decide
  have hread : Document.ofJson? libraryValue = some library ∧
      Schema.ofJson? shelfValue = some shelf := ⟨rfl, rfl⟩
  have hrows : (JsonNumber.int 7).ReadsBack := by rfl
  have hnumbers : library.toJson.NumbersReadBack ∧ shelf.toJson.NumbersReadBack := by
    have hshelf : shelf.toJson = .obj [("properties", .obj [("title", .obj []),
        ("author", .obj [("type", .str "string")])]), ("x-rows", .num (.int 7))] := rfl
    have hlibrary : library.toJson = .obj [("openapi", .str "3.0.0"),
        ("info", .obj [("title", .str "Library"), ("version", .str "1")]), ("servers", .arr []),
        ("paths", .obj []), ("components", .obj [("schemas", .obj [("Shelf", shelf.toJson)])])] :=
      rfl
    rw [hlibrary, hshelf]
    simpa using hrows
  obtain ⟨hlibrary, hshelf, hunknown, -, horder, hnulls, hinfo, -⟩ := read_written_again
  obtain ⟨qs, hqs, hforall⟩ := horder _ _ _ hvalue.2 hread.2 rfl
  refine ⟨hlibrary.written ⟨hvalue.1, hdepth.1⟩ hread.1 hnumbers.1,
    hshelf.written ⟨hvalue.2, hdepth.2⟩ hread.2 hnumbers.2,
    (hunknown _ _ _ hvalue.2 hread.2 (by decide)).2,
    (hnulls _ _ hvalue.2 hread.2 "format" (by decide)).1 rfl, ⟨qs, hqs, ?_⟩, ?_⟩
  · obtain _ | ⟨⟨htitle, -⟩, _ | ⟨⟨hauthor, -⟩, _ | _⟩⟩ := hforall
    rw [List.map_cons, List.map_cons, List.map_nil, ← htitle, ← hauthor]
  · have hdistinct : infoValue.Distinct := by simp [infoValue, Json.KeysDistinct]
    exact (hinfo infoValue _ hdistinct rfl "description" (by decide)).1 rfl

end ServiceContract
