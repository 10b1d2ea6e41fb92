import ServiceContract.Proofs.Document.Orderly
import ServiceContract.Proofs.Document.RoundTrip

/-! # Generated documents are read back

A generated document is read from its own text if the text is not nested too deeply and no default
is null: a default that is null is written, but read as if there were none. The defaults come from
the texts in field attributes, so none is null if no such text is.
-/

namespace ServiceContract

open Schema Source

theorem RequestParts.defaultValue_eq_null_iff {raw : String} :
    defaultValue raw = .null ↔ Json.parse? raw = some .null := by
  unfold defaultValue
  split
  · next vs h => simp [h]
  · next fs h => simp [h]
  · next h => simp [h]
  · next v h => simp [h]

/-- The default texts of all fields of structs are as described. -/
def Program.DefaultTexts (p : Program) (P : String → Prop) : Prop :=
  ∀ d ∈ p.structs, ∀ fields, d.item.fields = .named fields → ∀ field ∈ fields,
    ∀ param ∈ ParamAttr.ofAttrs field.attrs, ∀ raw ∈ param.default, P raw

/-- No schema of the document has null as its default, at whatever depth. -/
def Document.DefaultsNotNull (d : Document) : Prop :=
  ∀ s ∈ d.schemas, ∀ n, Schema.Node n s → n.default ≠ some .null

theorem operatorRules_orderly {p : Program} {D : Json → Prop}
    (hD : p.DefaultTexts fun raw => D (RequestParts.defaultValue raw)) :
    OperatorRules p (fun _ => Every (OrderlyWith D))
      (fun _ => TypeCompiler.ObjectParts.Every (OrderlyWith D))
      (fun _ => FormParts.Every (OrderlyWith D)) := by
  refine NodeRules.operatorRules (fun _ => nodeRules_orderly p D) (fun hsite raw hraw h => ?_)
    (fun _ => .reference _) fun _ h => h
  obtain ⟨d, hd, fields, hfields, hfield, hparam⟩ := hsite
  exact h.withDefault (NodeRules.distinct_defaultValue raw)
    (hD d hd fields hfields _ hfield _ hparam raw hraw)

namespace Generation

variable {p : Program} {config : Config} {g : Generation}

/-- All schemas of a generated document are in order, with the defaults of its operators. -/
theorem orderly_schemas {D : Json → Prop}
    (hD : p.DefaultTexts fun raw => D (RequestParts.defaultValue raw))
    (h : ofProgram p config = .ok g) : ∀ s ∈ g.document.schemas, Every (OrderlyWith D) s := by
  obtain ⟨tree, state, -, hr⟩ := ofProgram_eq_ok.mp h
  exact ((operatorRules_orderly hD).document hr).2.2

theorem defaultsNotNull (hD : p.DefaultTexts fun raw => Json.parse? raw ≠ some .null)
    (h : ofProgram p config = .ok g) : g.document.DefaultsNotNull := by
  have hvalues : p.DefaultTexts fun raw => RequestParts.defaultValue raw ≠ .null :=
    fun d hd fields hfields field hfield param hparam raw hraw =>
      RequestParts.defaultValue_eq_null_iff.not.mpr
        (hD d hd fields hfields field hfield param hparam raw hraw)
  have orderly := orderly_schemas (D := (· ≠ .null)) hvalues h
  exact fun s hs n hn hnull => (orderly s hs n hn).2 _ hnull rfl

/-- Nothing gets lost of a generated document if and only if no default is null. -/
theorem kept_iff (h : ofProgram p config = .ok g) :
    g.document.Kept Schema.Kept ↔ g.document.DefaultsNotNull := by
  constructor
  · exact fun hkept s hs n hn => (hkept.forall_schemas s hs n hn).2
  · intro hnull
    have orderly := orderly_schemas (D := fun _ => True) (fun _ _ _ _ _ _ _ _ _ _ => trivial) h
    exact (kept_document h).of_schemas fun s hs n hn => ⟨(orderly s hs n hn).1, hnull s hs n hn⟩

/-- A generated document is what is read from its text if and only if no schema has null as its
default and the text is not nested too deeply, numbers in it being read as they are written. No
default is null if no default text of a field is read as null. -/
theorem read_jsonText_iff (h : ofProgram p config = .ok g) :
    (g.document.DefaultsNotNull →
      Document.ofJson? g.document.toJson = some g.document) ∧
    (g.document.toJson.NumbersReadBack →
      (Document.read? g.document.jsonText = some g.document ↔
        g.document.DefaultsNotNull ∧ g.document.toJson.depth ≤ Json.maxDepth)) ∧
    (p.DefaultTexts (fun raw => Json.parse? raw ≠ some .null) →
      g.document.DefaultsNotNull) := by
  have readBack (hnull : g.document.DefaultsNotNull) :=
    Document.readBack ((kept_iff h).mpr hnull)
  refine ⟨fun hnull => (readBack hnull).read_write, fun hx => ⟨fun hread => ?_, ?_⟩,
    fun hD => defaultsNotNull hD h⟩
  · obtain ⟨v, hv, hd⟩ := Option.bind_eq_some_iff.mp hread
    obtain ⟨hdistinct, hdepth⟩ := Json.readable_of_parse? hv
    have hreads := Document.readsKept v
    exact ⟨(kept_iff h).mp (hreads.kept hd hdistinct),
      Nat.le_trans (hreads.depth hd hdistinct) hdepth⟩
  · rintro ⟨hnull, hdepth⟩
    obtain ⟨hread, hdistinct, -⟩ := readBack hnull
    exact Document.roundTrips.written ⟨hdistinct, hdepth⟩ hread hx

section Listing

/-- A query field with a default text. -/
def filterField (raw : String) : Field where
  attrs := [⟨{ segments := ["param"] },
    .list [.ident "query", .punct ',' false, .ident "default", .punct '=' false,
      .literal ("\"" ++ raw ++ "\"")]⟩]
  exported := true
  name := some "filter"
  type := .path ["String"] []

/-- One operator on one path is served. -/
def listing (raw : String) : Program where
  structs := [structOf "List" (.named [filterField raw])]
  fns :=
    [{ key := "List::path", module := [], selfType := some "List", owner := some "List"
       item :=
        { attrs := [], name := "path", params := [.receiver], output := none
          body := [.expr [] (.lit (.str "/items")) false] } },
     { key := "main", module := [], selfType := none, owner := none
       item :=
        { attrs := [], name := "main", params := [], output := none
          body := [.expr [] (.call (pathOf ["serve"]) [routerOf (pathOf ["List"])]) true] } }]

/-- What is written of the listing, with the fields for the default. -/
def listingJson (default : List (String × Json)) : Json :=
  .obj [("openapi", .str "3.0.3"),
    ("info", .obj [("title", .str "Generated API"), ("version", .str "1.0.0")]),
    ("servers", .arr [.obj [("url", .str "/")]]),
    ("paths", .obj [("/items", .obj [("get", .obj [("operationId", .str "List"),
      ("parameters", .arr [.obj [("name", .str "filter"), ("in", .str "query"),
        ("required", .bool true), ("schema", .obj (("type", .str "string") :: default))]]),
      ("responses", .obj [("204", .obj [("description", .str "No Content")])])])])]),
    ("components", .obj [])]

theorem exists_ofProgram_listing {raw : String} {default : List (String × Json)}
    (h : (ofProgram (listing raw) {}).toOption.any
      (fun g => g.document.toJson == listingJson default) = true) :
    ∃ g, ofProgram (listing raw) {} = .ok g ∧ g.document.toJson = listingJson default := by
  cases hg : ofProgram (listing raw) {} with
  | error e => simp [hg, Except.toOption] at h
  | ok g => exact ⟨g, rfl, by simpa [hg, Except.toOption] using h⟩

theorem read_jsonText_listing : ∃ g, ofProgram (listing "asc") {} = .ok g ∧
    Document.read? g.document.jsonText = some g.document := by
  obtain ⟨g, hg, hjson⟩ : ∃ g, ofProgram (listing "asc") {} = .ok g ∧
      g.document.toJson = listingJson [("default", .str "asc")] :=
    exists_ofProgram_listing (by decide +kernel)
  obtain ⟨-, hiff, hdefault⟩ := read_jsonText_iff hg
  have htexts : (listing "asc").DefaultTexts fun raw => Json.parse? raw ≠ some .null := by
    intro d hd fields hfields field hfield param hparam raw hraw
    obtain rfl := List.mem_singleton.mp hd
    cases hfields
    obtain rfl := List.mem_singleton.mp hfield
    have hattr : ParamAttr.ofAttrs (filterField "asc").attrs =
        some { location := some .query, default := some "asc" } := by decide +kernel
    cases hattr.symm.trans hparam
    cases hraw
    have hparse : Json.parse? "asc" = none := by rfl
    simp [hparse]
  have hnumbers : g.document.toJson.NumbersReadBack := by simp [hjson, listingJson]
  have hdepth : g.document.toJson.depth ≤ Json.maxDepth := by
    rw [hjson]
    decide
  exact ⟨g, hg, (hiff hnumbers).mpr ⟨hdefault htexts, hdepth⟩⟩

/-- A default that is null is lost, in a document of which nothing else is. -/
theorem null_default_lost : ∃ g, ofProgram (listing "null") {} = .ok g ∧
    g.document.toJson.NumbersReadBack ∧ g.document.toJson.depth ≤ Json.maxDepth ∧
    ∃ d, Document.read? g.document.jsonText = some d ∧ d.jsonText ≠ g.document.jsonText := by
  obtain ⟨g, hg, hjson⟩ : ∃ g, ofProgram (listing "null") {} = .ok g ∧
      g.document.toJson = listingJson [("default", .null)] :=
    exists_ofProgram_listing (by decide +kernel)
  have hparse (default : List (String × Json))
      (h : default = [] ∨ default = [("default", .null)]) :
      Json.parse? ((listingJson default).pretty ++ "\n") = some (listingJson default) := by
    refine Json.parse?_pretty ⟨?_, ?_⟩ ?_
    · rcases h with rfl | rfl <;> simp [listingJson, Json.KeysDistinct]
    · rcases h with rfl | rfl <;> decide
    · rcases h with rfl | rfl <;> simp [listingJson]
  have hread : (Document.ofJson? (listingJson [("default", .null)])).any
      (fun d => d.toJson == listingJson []) = true := by decide +kernel
  obtain ⟨d, hd, hwritten⟩ := (Option.any_eq_true _ _).mp hread
  have htext : g.document.jsonText = (listingJson [("default", .null)]).pretty ++ "\n" := by
    rw [Document.jsonText, hjson]
  refine ⟨g, hg, ?_, ?_, d, ?_, fun heq => ?_⟩
  · simp [hjson, listingJson]
  · rw [hjson]
    decide
  · rw [Document.read?, htext, hparse _ (.inr rfl), Option.bind_some, hd]
  · rw [htext, Document.jsonText, eq_of_beq hwritten] at heq
    have hsame := hparse [] (.inl rfl)
    rw [heq, hparse _ (.inr rfl)] at hsame
    simp [listingJson] at hsame

end Listing

end Generation

end ServiceContract
