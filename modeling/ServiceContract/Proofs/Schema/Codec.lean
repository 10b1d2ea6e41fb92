import ServiceContract.Proofs.Json.Record
import ServiceContract.Proofs.Schema.Node
import Mathlib.Data.List.Induction

/-! # Schemas are read back

Fields among which no key stands twice are read one after the other, which comes to the same as
looking up every known key. What is written of a schema says in this way what the schema is. So a
schema is read back if its extensions are sorted and have unknown keys, no property stands twice
in it and its default is not null; and every schema that is read is of this kind.
-/

namespace ServiceContract.Schema

open Json (entries? list? string? nat? bool? optional fieldOf ofEntries ReadBack ReadsKept Part
  Written)

theorem ofFields_cons (s : Schema) (key : String) (v : Json) (rest : List (String × Json)) :
    ofFields s ((key, v) :: rest) = (ofFields s [(key, v)]).bind (ofFields · rest) := by
  rw [ofFields.eq_def s ((key, v) :: rest), ofFields.eq_def s [(key, v)]]
  dsimp only
  rw [Option.bind_assoc]
  rfl

theorem ofFields_append (s : Schema) (l l' : List (String × Json)) :
    ofFields s (l ++ l') = (ofFields s l).bind (ofFields · l') := by
  induction l generalizing s with
  | nil => rfl
  | cons f l ih =>
    rw [List.cons_append, ofFields_cons, ofFields_cons s f.1 f.2 l, Option.bind_assoc]
    simp only [ih]

theorem ofProperties_eq (ps : List (String × Json)) :
    ofProperties ps = entries? ofJson? (.obj ps) := by
  induction ps with
  | nil => rfl
  | cons f ps ih =>
    rw [entries?] at ih ⊢
    rw [ofProperties, ih, List.mapM_cons]
    obtain ⟨k, v⟩ := f
    cases h : ofJson? v <;> simp [h]

theorem ofItems_eq (vs : List Json) : ofItems vs = list? ofJson? (.arr vs) := by
  induction vs with
  | nil => rfl
  | cons v vs ih =>
    rw [list?] at ih ⊢
    rw [ofItems, ih, List.mapM_cons]

theorem one?_eq (v : Json) : one? v = Json.nullable ofJson? v := by
  cases v <;> simp [one?, Json.nullable, ofJson?]

theorem named?_eq (v : Json) : named? v = Json.nullable (entries? ofJson?) v := by
  cases v <;> simp [named?, Json.nullable, entries?, ofProperties_eq]

theorem many?_eq (v : Json) : many? v = Json.nullable (list? ofJson?) v := by
  cases v <;> simp [many?, Json.nullable, list?, ofItems_eq]

/-- The keys of a schema that are no extensions. -/
def knownKeys : List String :=
  ["$ref", "type", "format", "description", "properties", "required", "items",
   "additionalProperties", "enum", "allOf", "oneOf", "minItems", "maxItems", "uniqueItems",
   "nullable", "default"]

/-- What the fields of a schema say, each found by its key. -/
structure Says (fields : List (String × Json)) (s : Schema) : Prop where
  reference : optional "$ref" string? fields = some s.reference
  type : optional "type" string? fields = some s.type
  format : optional "format" string? fields = some s.format
  description : optional "description" string? fields = some s.description
  properties : optional "properties" (entries? ofJson?) fields = some s.properties
  required : optional "required" (list? string?) fields = some s.required
  items : optional "items" ofJson? fields = some s.items
  additionalProperties :
    optional "additionalProperties" ofJson? fields = some s.additionalProperties
  values : optional "enum" (list? some) fields = some s.values
  allOf : optional "allOf" (list? ofJson?) fields = some s.allOf
  oneOf : optional "oneOf" (list? ofJson?) fields = some s.oneOf
  minItems : optional "minItems" nat? fields = some s.minItems
  maxItems : optional "maxItems" nat? fields = some s.maxItems
  uniqueItems : optional "uniqueItems" bool? fields = some s.uniqueItems
  nullable : optional "nullable" bool? fields = some s.nullable
  default : optional "default" some fields = some s.default
  extensions : s.extensions = Json.extensions knownKeys fields

theorem optional_snoc {α : Type} {init : List (String × Json)} {key other : String} {v : Json}
    {read : Json → Option α} (h : init.lookup key = none) :
    optional other read (init ++ [(key, v)]) =
      if other = key then Json.nullable read v else optional other read init := by
  unfold Json.optional
  rw [List.lookup_append, lookup_cons_ite, List.lookup_nil]
  by_cases heq : other = key
  · rw [if_pos heq, if_pos heq, heq, h]
    rfl
  · rw [if_neg heq, if_neg heq, Option.or_none]

theorem says_snoc {init : List (String × Json)} {key : String} {v : Json} {s s' : Schema}
    (hs : Says init s) (hk : init.lookup key = none) (h : ofFields s [(key, v)] = some s') :
    Says (init ++ [(key, v)]) s' := by
  rw [ofFields.eq_def] at h
  dsimp only at h
  simp only [one?_eq, named?_eq, many?_eq] at h
  split at h
  case h_17 =>
    have hu : key ∉ knownKeys := by simp_all [knownKeys]
    cases h
    constructor
    case extensions =>
      rw [Json.extensions, List.filter_append, List.filter_cons_of_pos (by simpa using hu),
        List.filter_nil, List.foldl_append, ← Json.extensions, ← hs.extensions]
      rfl
    all_goals rw [optional_snoc hk, if_neg (ne_of_mem_of_not_mem (by decide) hu)]
    exacts [hs.reference, hs.type, hs.format, hs.description, hs.properties, hs.required, hs.items,
      hs.additionalProperties, hs.values, hs.allOf, hs.oneOf, hs.minItems, hs.maxItems,
      hs.uniqueItems, hs.nullable, hs.default]
  all_goals
    obtain ⟨s'', hs'', heq⟩ := Option.bind_eq_some_iff.mp h
    cases heq
    obtain ⟨x, hx, rfl⟩ := Option.map_eq_some_iff.mp hs''
    constructor
  all_goals
    simp [optional_snoc hk, hs.reference, hs.type, hs.format, hs.description, hs.properties,
      hs.required, hs.items, hs.additionalProperties, hs.values, hs.allOf, hs.oneOf, hs.minItems,
      hs.maxItems, hs.uniqueItems, hs.nullable, hs.default, hs.extensions, hx, Json.extensions,
      knownKeys]


/-- A schema says what its fields say if no key stands twice among them. -/
theorem says_of_ofFields {fields : List (String × Json)} {s : Schema}
    (hn : (fields.map Prod.fst).Nodup) (h : ofFields {} fields = some s) : Says fields s := by
  induction fields using List.reverseRecOn generalizing s with
  | nil =>
    cases h
    constructor <;> rfl
  | append_singleton init f ih =>
    rw [ofFields_append] at h
    obtain ⟨s', hs', hf⟩ := Option.bind_eq_some_iff.mp h
    rw [List.map_append] at hn
    obtain ⟨hinit, -, hdisjoint⟩ := List.nodup_append.mp hn
    have hk : init.lookup f.1 = none := lookup_eq_none_iff.mpr fun hk =>
      hdisjoint _ hk _ (List.mem_singleton_self _) rfl
    exact says_snoc (ih hinit hs') hk hf

theorem toFields_eq (ps : List (String × Schema)) :
    toFields ps = ps.map fun e => (e.1, e.2.toJson) := by
  induction ps with
  | nil => rfl
  | cons e ps ih => rw [toFields, ih, List.map_cons]

theorem toItems_eq (ss : List Schema) : toItems ss = ss.map toJson := by
  induction ss with
  | nil => rfl
  | cons s ss ih => rw [toItems, ih, List.map_cons]

/-- The fields with known keys that are written of a schema. -/
def knownFields (s : Schema) : List (String × Json) :=
  fieldOf "$ref" .str s.reference ++ fieldOf "type" .str s.type ++
    fieldOf "format" .str s.format ++ fieldOf "description" .str s.description ++
    fieldOf "properties" (ofEntries toJson) s.properties ++
    fieldOf "required" (fun names => .arr (names.map .str)) s.required ++
    fieldOf "items" toJson s.items ++
    fieldOf "additionalProperties" toJson s.additionalProperties ++
    fieldOf "enum" .arr s.values ++
    fieldOf "allOf" (fun ss => .arr (ss.map toJson)) s.allOf ++
    fieldOf "oneOf" (fun ss => .arr (ss.map toJson)) s.oneOf ++
    fieldOf "minItems" .ofNat s.minItems ++ fieldOf "maxItems" .ofNat s.maxItems ++
    fieldOf "uniqueItems" .bool s.uniqueItems ++ fieldOf "nullable" .bool s.nullable ++
    fieldOf "default" id s.default

/-- All fields that are written of a schema. -/
def fields (s : Schema) : List (String × Json) := s.knownFields ++ s.extensions

theorem oneField_eq (key : String) (o : Option Schema) :
    oneField key o = fieldOf key toJson o := by
  cases o <;> rfl

theorem namedField_eq (key : String) (o : Option (List (String × Schema))) :
    namedField key o = fieldOf key (ofEntries toJson) o := by
  cases o with
  | none => rfl
  | some ps =>
    rw [namedField, toFields_eq]
    rfl

theorem manyField_eq (key : String) (o : Option (List Schema)) :
    manyField key o = fieldOf key (fun ss => .arr (ss.map toJson)) o := by
  cases o with
  | none => rfl
  | some ss =>
    rw [manyField, toItems_eq]
    rfl

theorem toJson_eq (s : Schema) : s.toJson = .obj s.fields := by
  cases s
  simp only [toJson, fields, knownFields, oneField_eq, namedField_eq, manyField_eq]

theorem nullable_of_optional {α : Type} {key : String} {read : Json → Option α} {o : Option α}
    {fields : List (String × Json)} {v : Json} (hl : fields.lookup key = some v)
    (h : optional key read fields = some o) : Json.nullable read v = some o := by
  unfold Json.optional at h
  rwa [hl] at h

/-- No field of those that say something is refused. -/
theorem Says.exists_step {fields : List (String × Json)} {s : Schema} {f : String × Json}
    (hs : Says fields s) (hn : (fields.map Prod.fst).Nodup) (hf : f ∈ fields) (s₀ : Schema) :
    ∃ s', ofFields s₀ [f] = some s' := by
  obtain ⟨key, v⟩ := f
  have read {α : Type} {read : Json → Option α} {o : Option α} (set : Option α → Schema)
      (ho : optional key read fields = some o) :
      ∃ s', ((Json.nullable read v).map set).bind (ofFields · []) = some s' := by
    rw [nullable_of_optional (lookup_of_mem hn hf) ho]
    exact ⟨_, ofFields.eq_1 _⟩
  rw [ofFields.eq_def]
  dsimp only
  simp only [one?_eq, named?_eq, many?_eq]
  split
  case h_17 => exact ⟨_, ofFields.eq_1 _⟩
  exacts [read _ hs.reference, read _ hs.type, read _ hs.format, read _ hs.description,
    read _ hs.properties, read _ hs.required, read _ hs.items, read _ hs.additionalProperties,
    read _ hs.values, read _ hs.allOf, read _ hs.oneOf, read _ hs.minItems, read _ hs.maxItems,
    read _ hs.uniqueItems, read _ hs.nullable, read _ hs.default]

theorem exists_ofFields {fields : List (String × Json)}
    (h : ∀ f ∈ fields, ∀ s, ∃ s', ofFields s [f] = some s') (s : Schema) :
    ∃ s', ofFields s fields = some s' := by
  induction fields generalizing s with
  | nil => exact ⟨s, ofFields.eq_1 s⟩
  | cons f fields ih =>
    obtain ⟨hf, hfs⟩ := List.forall_mem_cons.mp h
    obtain ⟨s', hs'⟩ := hf s
    rw [ofFields_cons, hs']
    exact ih hfs s'

theorem Says.unique {fields : List (String × Json)} {s s' : Schema} (h : Says fields s)
    (h' : Says fields s') : s = s' := by
  have same {α : Type} {a b : Option α} {x : Option (Option α)} (ha : x = some a)
      (hb : x = some b) : a = b := Option.some.inj (ha.symm.trans hb)
  cases s
  cases s'
  simp only [mk.injEq]
  exact ⟨same h.reference h'.reference, same h.type h'.type, same h.format h'.format,
    same h.description h'.description, same h.properties h'.properties,
    same h.required h'.required, same h.items h'.items,
    same h.additionalProperties h'.additionalProperties, same h.values h'.values,
    same h.allOf h'.allOf, same h.oneOf h'.oneOf, same h.minItems h'.minItems,
    same h.maxItems h'.maxItems, same h.uniqueItems h'.uniqueItems, same h.nullable h'.nullable,
    same h.default h'.default, h.extensions.trans h'.extensions.symm⟩

/-- Fields among which no key stands twice are read as what each of them says. -/
theorem ofFields_eq_some_iff {fields : List (String × Json)} {s : Schema}
    (hn : (fields.map Prod.fst).Nodup) : ofFields {} fields = some s ↔ Says fields s := by
  refine ⟨says_of_ofFields hn, fun h => ?_⟩
  obtain ⟨s', hs'⟩ := exists_ofFields (fun f hf => h.exists_step hn hf) {}
  rw [hs', h.unique (says_of_ofFields hn hs')]

/-- What is read back as a schema whose parts are read back. -/
structure PartsReadBack (s : Schema) : Prop where
  properties : ∀ ps ∈ s.properties, ReadBack (entries? ofJson?) (ofEntries toJson) ps
  items : ∀ c ∈ s.items, ReadBack ofJson? toJson c
  additionalProperties : ∀ c ∈ s.additionalProperties, ReadBack ofJson? toJson c
  values : ∀ vs ∈ s.values, ReadBack (list? some) .arr vs
  allOf : ∀ cs ∈ s.allOf, ReadBack (list? ofJson?) (fun ss => .arr (ss.map toJson)) cs
  oneOf : ∀ cs ∈ s.oneOf, ReadBack (list? ofJson?) (fun ss => .arr (ss.map toJson)) cs
  default : ∀ v ∈ s.default, ReadBack some id v
  extensions : Json.Foreign knownKeys s.extensions

theorem PartsReadBack.written {s : Schema} (h : PartsReadBack s) :
    Written knownKeys s.knownFields := by
  have text {key : String} {o : Option String} : Written [key] (fieldOf key .str o) :=
    .optional fun a _ => .str a
  have number {key : String} {o : Option Nat} : Written [key] (fieldOf key .ofNat o) :=
    .optional fun a _ => .nat a
  have flag {key : String} {o : Option Bool} : Written [key] (fieldOf key .bool o) :=
    .optional fun a _ => .bool a
  have names {key : String} {o : Option (List String)} :
      Written [key] (fieldOf key (fun names => .arr (names.map .str)) o) :=
    .optional fun _ _ => .list fun a _ => .str a
  exact text.append text |>.append text |>.append text |>.append (.optional h.properties)
    |>.append names |>.append (.optional h.items) |>.append (.optional h.additionalProperties)
    |>.append (.optional h.values) |>.append (.optional h.allOf) |>.append (.optional h.oneOf)
    |>.append number |>.append number |>.append flag |>.append flag |>.append (.optional h.default)

/-- Where each part of a schema is written. -/
structure Writes (s : Schema) (fields : List (String × Json)) : Prop where
  reference : fields.lookup "$ref" = s.reference.map .str
  type : fields.lookup "type" = s.type.map .str
  format : fields.lookup "format" = s.format.map .str
  description : fields.lookup "description" = s.description.map .str
  properties : fields.lookup "properties" = s.properties.map (ofEntries toJson)
  required : fields.lookup "required" = s.required.map fun names => .arr (names.map .str)
  items : fields.lookup "items" = s.items.map toJson
  additionalProperties : fields.lookup "additionalProperties" = s.additionalProperties.map toJson
  values : fields.lookup "enum" = s.values.map .arr
  allOf : fields.lookup "allOf" = s.allOf.map fun ss => .arr (ss.map toJson)
  oneOf : fields.lookup "oneOf" = s.oneOf.map fun ss => .arr (ss.map toJson)
  minItems : fields.lookup "minItems" = s.minItems.map .ofNat
  maxItems : fields.lookup "maxItems" = s.maxItems.map .ofNat
  uniqueItems : fields.lookup "uniqueItems" = s.uniqueItems.map .bool
  nullable : fields.lookup "nullable" = s.nullable.map .bool
  default : fields.lookup "default" = s.default.map id

theorem writes_fields {s : Schema} (h : Json.Foreign knownKeys s.extensions) :
    Writes s s.fields := by
  constructor
  all_goals
    rw [fields, h.lookup_known (by decide)]
    simp [knownFields, List.lookup_append]

/-- The fields that are written of a schema say what the schema is. -/
theorem says_fields {s : Schema} (h : PartsReadBack s) : Says s.fields s := by
  have hw := writes_fields h.extensions
  constructor
  case extensions => exact (h.written.extensions h.extensions).symm
  case reference => exact Json.optional_eq hw.reference fun a _ => .str a
  case type => exact Json.optional_eq hw.type fun a _ => .str a
  case format => exact Json.optional_eq hw.format fun a _ => .str a
  case description => exact Json.optional_eq hw.description fun a _ => .str a
  case properties => exact Json.optional_eq hw.properties h.properties
  case required => exact Json.optional_eq hw.required fun _ _ => .list fun a _ => .str a
  case items => exact Json.optional_eq hw.items h.items
  case additionalProperties => exact Json.optional_eq hw.additionalProperties h.additionalProperties
  case values => exact Json.optional_eq hw.values h.values
  case allOf => exact Json.optional_eq hw.allOf h.allOf
  case oneOf => exact Json.optional_eq hw.oneOf h.oneOf
  case minItems => exact Json.optional_eq hw.minItems fun a _ => .nat a
  case maxItems => exact Json.optional_eq hw.maxItems fun a _ => .nat a
  case uniqueItems => exact Json.optional_eq hw.uniqueItems fun a _ => .bool a
  case nullable => exact Json.optional_eq hw.nullable fun a _ => .bool a
  case default => exact Json.optional_eq hw.default h.default

/-- What schemas that are read have in common, but for what they say about defaults. -/
structure Orderly (s : Schema) : Prop where
  extensions : Json.Foreign knownKeys s.extensions
  properties : ∀ ps ∈ s.properties, (ps.map Prod.fst).Nodup
  values : ∀ vs ∈ s.values, ∀ v ∈ vs, v.Distinct
  default : ∀ v ∈ s.default, v.Distinct

/-- Every schema inside is orderly, and none has null as its default. -/
def Kept (s : Schema) : Prop := Every (fun n => n.Orderly ∧ n.default ≠ some .null) s

theorem Kept.orderly {s : Schema} (h : Kept s) : s.Orderly := (h s (.self s)).1

theorem Kept.default_ne_null {s : Schema} (h : Kept s) : s.default ≠ some .null := (h s (.self s)).2

theorem readBack_values {vs : List Json} (h : ∀ v ∈ vs, v.Distinct) :
    ReadBack (list? some) .arr vs where
  read_write := Json.mapM_some vs
  distinct := Json.every_arr.mpr ⟨trivial, h⟩
  ne_null := nofun

theorem partsReadBack_of_children {s : Schema} (ho : s.Orderly) (hd : s.default ≠ some .null)
    (h : ∀ c ∈ s.children, ReadBack ofJson? toJson c) : PartsReadBack s := by
  simp only [mem_children] at h
  constructor
  case properties =>
    exact fun ps hps => .entries (ho.properties ps hps)
      fun e he => h e.2 (.inl ⟨ps, hps, e.1, he⟩)
  case items => exact fun c hc => h c (.inr (.inl hc))
  case additionalProperties => exact fun c hc => h c (.inr (.inr (.inl hc)))
  case values => exact fun vs hvs => readBack_values (ho.values vs hvs)
  case allOf => exact fun cs hcs => .list fun c hc => h c (.inr (.inr (.inr (.inl ⟨cs, hcs, hc⟩))))
  case oneOf => exact fun cs hcs => .list fun c hc => h c (.inr (.inr (.inr (.inr ⟨cs, hcs, hc⟩))))
  case default => exact fun v hv => ⟨rfl, ho.default v hv, fun hnull => hd (hnull ▸ hv)⟩
  case extensions => exact ho.extensions

/-- A schema of which nothing gets lost is read back. -/
theorem readBack_of_kept {s : Schema} (h : Kept s) : ReadBack ofJson? toJson s := by
  induction s using induction_children with
  | h s ih =>
    obtain ⟨⟨ho, hd⟩, hc⟩ := every_iff.mp h
    have hparts := partsReadBack_of_children ho hd fun c hmem => ih c hmem (hc c hmem)
    have hwritten := hparts.written.foreign hparts.extensions
    have hnodup := hparts.extensions.nodup_append (by decide)
    refine .record (toJson_eq s) hwritten hnodup ?_
    rw [ofJson?]
    exact (ofFields_eq_some_iff (hwritten.keys.nodup hnodup)).mpr (says_fields hparts)

theorem partsReadBack_of_kept {s : Schema} (h : Kept s) : PartsReadBack s := by
  obtain ⟨⟨ho, hd⟩, hc⟩ := every_iff.mp h
  exact partsReadBack_of_children ho hd fun c hmem => readBack_of_kept (hc c hmem)

theorem readsKept_values (v : Json) :
    ReadsKept (list? some) .arr (fun vs => ∀ v ∈ vs, v.Distinct) v := by
  cases v with
  | arr items =>
    refine ⟨fun hr hd => ?_, fun hr _ => ?_⟩
    all_goals
      obtain rfl := Option.some.inj ((Json.mapM_some items).symm.trans hr)
    · exact (Json.every_arr.mp hd).2
    · exact Nat.le_refl _
  | _ => exact ⟨nofun, nofun⟩

theorem readsKept_default {v : Json} (h : v ≠ .null) :
    ReadsKept some id (fun v => v.Distinct ∧ v ≠ .null) v := by
  refine ⟨fun hr hd => ?_, fun hr _ => ?_⟩
  all_goals obtain rfl := Option.some.inj hr
  · exact ⟨hd, h⟩
  · exact Nat.le_refl _

/-- What the fields of a schema say is in order if it is in the schemas among them. -/
theorem Says.part {fields : List (String × Json)} {s : Schema} (hs : Says fields s)
    (h : ∀ f ∈ fields, ∀ v, v.depth ≤ f.2.depth → ReadsKept ofJson? toJson Kept v) :
    Part fields (Kept s) s.fields := by
  have here : ∀ f ∈ fields, f.2 ≠ .null → ReadsKept ofJson? toJson Kept f.2 :=
    fun f hf _ => h f hf f.2 (Nat.le_refl _)
  have below : ∀ f ∈ fields, ∀ v, v.depth < f.2.depth → ReadsKept ofJson? toJson Kept v :=
    fun f hf v hv => h f hf v (Nat.le_of_lt hv)
  have text {key : String} {o : Option String} (ho : optional key string? fields = some o) :=
    Part.optional (fun f _ _ => ReadsKept.str f.2) ho
  have number {key : String} {o : Option Nat} (ho : optional key nat? fields = some o) :=
    Part.optional (fun f _ _ => ReadsKept.nat f.2) ho
  have flag {key : String} {o : Option Bool} (ho : optional key bool? fields = some o) :=
    Part.optional (fun f _ _ => ReadsKept.bool f.2) ho
  have properties := Part.optional (fun f hf _ => ReadsKept.entries (below f hf)) hs.properties
  have required :=
    Part.optional (fun f _ _ => ReadsKept.list fun v _ => ReadsKept.str v) hs.required
  have values := Part.optional (fun f _ _ => readsKept_values f.2) hs.values
  have allOf := Part.optional (fun f hf _ => ReadsKept.list (below f hf)) hs.allOf
  have oneOf := Part.optional (fun f hf _ => ReadsKept.list (below f hf)) hs.oneOf
  have default := Part.optional (fun f _ hne => readsKept_default hne) hs.default
  have extensions : Part fields (Json.Foreign knownKeys s.extensions) s.extensions :=
    hs.extensions ▸ Part.extensions knownKeys
  refine (((text hs.reference).append (text hs.type)).append (text hs.format) |>.append
    (text hs.description) |>.append properties |>.append required |>.append
    (.optional here hs.items) |>.append (.optional here hs.additionalProperties) |>.append values
    |>.append allOf |>.append oneOf |>.append (number hs.minItems) |>.append (number hs.maxItems)
    |>.append (flag hs.uniqueItems) |>.append (flag hs.nullable) |>.append default
    |>.append extensions).imp ?_
  rintro ⟨⟨⟨⟨⟨⟨⟨⟨⟨⟨⟨⟨⟨-, hproperties⟩, -⟩, hitems⟩, hadditional⟩, hvalues⟩, hallOf⟩, honeOf⟩, -⟩,
    -⟩, -⟩, -⟩, hdefault⟩, hextensions⟩
  refine every_iff.mpr ⟨⟨?_, fun hnull => (hdefault _ hnull).2 rfl⟩, fun c hc => ?_⟩
  · exact ⟨hextensions, fun ps hps => (hproperties ps hps).1, hvalues,
      fun v hv => (hdefault v hv).1⟩
  · rcases mem_children.mp hc with ⟨ps, hps, k, hk⟩ | hi | hap | ⟨cs, hal, hc⟩ | ⟨cs, hon, hc⟩
    · exact (hproperties ps hps).2 (k, c) hk
    · exact hitems c hi
    · exact hadditional c hap
    · exact hallOf cs hal c hc
    · exact honeOf cs hon c hc

/-- Nothing gets lost of a schema that is read. -/
theorem readsKept (v : Json) : ReadsKept ofJson? toJson Kept v := by
  induction hn : v.depth using Nat.strongRecOn generalizing v with
  | ind n ih =>
    refine .record fun s hr hd => ?_
    cases v with
    | obj fields =>
      rw [ofJson?] at hr
      have hs := says_of_ofFields hd.self hr
      refine ⟨[], 0, fields, s.fields, rfl, toJson_eq s,
        hs.part fun f hf v hv => ih v.depth ?_ v rfl⟩
      exact hn ▸ Nat.lt_of_le_of_lt hv (Json.depth_lt_of_mem_obj hf)
    | _ => cases hr

end ServiceContract.Schema
