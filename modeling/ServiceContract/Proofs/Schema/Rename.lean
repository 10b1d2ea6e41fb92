import ServiceContract.Proofs.Schema.Asks
import ServiceContract.Proofs.Schema.References

/-! # Schemas with other references

All that is built of schemas is built in the same way when references are written differently, as
long as references that differ are still written differently. The compiler compares schemas in one
place only, where a tuple lists each schema once.
-/

namespace ServiceContract

open Source TypeCompiler

namespace Schema

mutual

/-- The schema with all references in it written differently. -/
def mapRefs (f : String → String) : Schema → Schema
  | ⟨r, t, fm, d, ps, rq, i, ap, vs, al, on, mi, ma, u, n, df, ex⟩ =>
    ⟨r.map f, t, fm, d,
      (match ps with | none => none | some ps => some (mapFields f ps)), rq,
      (match i with | none => none | some s => some (mapRefs f s)),
      (match ap with | none => none | some s => some (mapRefs f s)), vs,
      (match al with | none => none | some ss => some (mapAll f ss)),
      (match on with | none => none | some ss => some (mapAll f ss)), mi, ma, u, n, df, ex⟩

def mapFields (f : String → String) : List (String × Schema) → List (String × Schema)
  | [] => []
  | (key, s) :: rest => (key, mapRefs f s) :: mapFields f rest

def mapAll (f : String → String) : List Schema → List Schema
  | [] => []
  | s :: rest => mapRefs f s :: mapAll f rest

end

variable {f : String → String} {s : Schema}

/-- Properties with all references in them written differently. -/
def mapProperties (f : String → String) (ps : List (String × Schema)) : List (String × Schema) :=
  ps.map fun e => (e.1, e.2.mapRefs f)

theorem mapFields_eq (ps : List (String × Schema)) : mapFields f ps = mapProperties f ps := by
  induction ps with
  | nil => rfl
  | cons e rest ih => rw [mapFields, ih]; rfl

theorem mapAll_eq (ss : List Schema) : mapAll f ss = ss.map (mapRefs f) := by
  induction ss with
  | nil => rfl
  | cons s rest ih => rw [mapAll, ih]; rfl

theorem mapRefs_eq (s : Schema) : s.mapRefs f =
    { s with
      reference := s.reference.map f
      properties := s.properties.map (mapProperties f)
      items := s.items.map (mapRefs f)
      additionalProperties := s.additionalProperties.map (mapRefs f)
      allOf := s.allOf.map (List.map (mapRefs f))
      oneOf := s.oneOf.map (List.map (mapRefs f)) } := by
  obtain ⟨r, t, fm, d, ps, rq, i, ap, vs, al, on, mi, ma, u, n, df, ex⟩ := s
  cases ps <;> cases i <;> cases ap <;> cases al <;> cases on <;>
    simp only [mapRefs, mapFields_eq, mapAll_eq, Option.map_none, Option.map_some]

theorem beqList_eq (as bs : List Schema) : beqList as bs = (as == bs) := by
  induction as generalizing bs with
  | nil => cases bs <;> rfl
  | cons a as ih =>
    cases bs with
    | nil => rfl
    | cons b bs => exact congrArg (beq a b && ·) (ih bs)

theorem beqFields_eq (ps qs : List (String × Schema)) : beqFields ps qs = (ps == qs) := by
  induction ps generalizing qs with
  | nil => cases qs <;> rfl
  | cons e ps ih =>
    cases qs with
    | nil => rfl
    | cons e' qs => exact congrArg ((e.1 == e'.1 && beq e.2 e'.2) && ·) (ih qs)

theorem beqProperties_eq (ps qs : Option (List (String × Schema))) :
    beqProperties ps qs = (ps == qs) := by
  cases ps with
  | none => cases qs <;> rfl
  | some ps =>
    cases qs with
    | none => rfl
    | some qs => exact beqFields_eq ps qs

theorem beqLists_eq (as bs : Option (List Schema)) : beqLists as bs = (as == bs) := by
  cases as with
  | none => cases bs <;> rfl
  | some as =>
    cases bs with
    | none => rfl
    | some bs => exact beqList_eq as bs

theorem beqOption_eq (a b : Option Schema) : beqOption a b = (a == b) := by
  cases a <;> cases b <;> rfl

/-- Schemas are compared part by part. -/
theorem beq_eq (a b : Schema) : (a == b) = (a.reference == b.reference && a.type == b.type &&
    a.format == b.format && a.description == b.description && a.properties == b.properties &&
    a.required == b.required && a.items == b.items &&
    a.additionalProperties == b.additionalProperties && a.values == b.values &&
    a.allOf == b.allOf && a.oneOf == b.oneOf && a.minItems == b.minItems &&
    a.maxItems == b.maxItems && a.uniqueItems == b.uniqueItems && a.nullable == b.nullable &&
    a.default == b.default && a.extensions == b.extensions) := by
  rw [← beqProperties_eq, ← beqOption_eq, ← beqOption_eq, ← beqLists_eq, ← beqLists_eq]
  cases a
  rfl

/-- References to different components of such names are written differently. -/
def Distinguishes (f : String → String) (Name : String → Prop) : Prop :=
  ∀ m n, Name m → Name n → f (componentRoot ++ m) = f (componentRoot ++ n) → m = n

section Equality

variable {Name : String → Prop}

theorem reference_beq_map (hf : Distinguishes f Name) {a b : Schema} (ha : a.RefersTo Name)
    (hb : b.RefersTo Name) :
    (a.reference.map f == b.reference.map f) = (a.reference == b.reference) := by
  cases hr : a.reference with
  | none => cases b.reference <;> rfl
  | some r =>
    cases hr' : b.reference with
    | none => rfl
    | some r' =>
      obtain ⟨m, rfl, hm⟩ := ha r hr
      obtain ⟨n, rfl, hn⟩ := hb r' hr'
      rw [Bool.eq_iff_iff]
      simp only [Option.map_some, beq_iff_eq, Option.some.injEq]
      exact ⟨fun h => congrArg (componentRoot ++ ·) (hf m n hm hn h), fun h => congrArg f h⟩

theorem option_beq_map {α : Type} [BEq α] {g : α → α} {o o' : Option α}
    (h : ∀ x ∈ o, ∀ y ∈ o', (g x == g y) = (x == y)) : (o.map g == o'.map g) = (o == o') := by
  cases o with
  | none => cases o' <;> rfl
  | some x =>
    cases o' with
    | none => rfl
    | some y => exact h x rfl y rfl

theorem list_beq_map {α : Type} [BEq α] {g : α → α} {l l' : List α}
    (h : ∀ x ∈ l, ∀ y ∈ l', (g x == g y) = (x == y)) : (l.map g == l'.map g) = (l == l') := by
  induction l generalizing l' with
  | nil => cases l' <;> rfl
  | cons x l ih =>
    cases l' with
    | nil => rfl
    | cons y l' =>
      have hhead := h x List.mem_cons_self y List.mem_cons_self
      have hrest := ih fun x hx y hy =>
      h x (List.mem_cons_of_mem _ hx) y (List.mem_cons_of_mem _ hy)
      rw [List.map_cons, List.map_cons, List.cons_beq_cons, List.cons_beq_cons, hhead, hrest]

/-- Schemas are equal if they are when their references are written differently. -/
theorem beq_mapRefs (hf : Distinguishes f Name) {a b : Schema} (ha : Every (RefersTo Name) a)
    (hb : Every (RefersTo Name) b) : (a.mapRefs f == b.mapRefs f) = (a == b) := by
  induction a using induction_children generalizing b with
  | h a ih =>
  have href := reference_beq_map hf (every_iff.mp ha).1 (every_iff.mp hb).1
  have children : ∀ c ∈ a.children, ∀ c' ∈ b.children,
      (c.mapRefs f == c'.mapRefs f) = (c == c') := fun c hc c' hc' =>
    ih c hc ((every_iff.mp ha).2 c hc) ((every_iff.mp hb).2 c' hc')
  simp only [mem_children] at children
  have properties : (a.properties.map (mapProperties f) == b.properties.map (mapProperties f)) =
      (a.properties == b.properties) := by
    refine option_beq_map fun ps hps qs hqs => list_beq_map fun e he e' he' => ?_
    have hvalue := children e.2 (.inl ⟨ps, hps, e.1, he⟩) e'.2 (.inl ⟨qs, hqs, e'.1, he'⟩)
    exact congrArg (e.1 == e'.1 && ·) hvalue
  have items : (a.items.map (mapRefs f) == b.items.map (mapRefs f)) = (a.items == b.items) :=
    option_beq_map fun c hc c' hc' => children c (.inr (.inl hc)) c' (.inr (.inl hc'))
  have values : (a.additionalProperties.map (mapRefs f) ==
      b.additionalProperties.map (mapRefs f)) =
      (a.additionalProperties == b.additionalProperties) :=
    option_beq_map fun c hc c' hc' =>
      children c (.inr (.inr (.inl hc))) c' (.inr (.inr (.inl hc')))
  have allOf : (a.allOf.map (List.map (mapRefs f)) == b.allOf.map (List.map (mapRefs f))) =
      (a.allOf == b.allOf) :=
    option_beq_map fun cs hcs cs' hcs' => list_beq_map fun c hc c' hc' =>
      children c (.inr (.inr (.inr (.inl ⟨cs, hcs, hc⟩)))) c'
        (.inr (.inr (.inr (.inl ⟨cs', hcs', hc'⟩))))
  have oneOf : (a.oneOf.map (List.map (mapRefs f)) == b.oneOf.map (List.map (mapRefs f))) =
      (a.oneOf == b.oneOf) :=
    option_beq_map fun cs hcs cs' hcs' => list_beq_map fun c hc c' hc' =>
      children c (.inr (.inr (.inr (.inr ⟨cs, hcs, hc⟩)))) c'
        (.inr (.inr (.inr (.inr ⟨cs', hcs', hc'⟩))))
  rw [beq_eq, beq_eq, mapRefs_eq, mapRefs_eq]
  dsimp only
  rw [href, properties, items, values, allOf, oneOf]

end Equality

section Building

variable {key text : String} {value : Json} {members : List EnumMember}

theorem mapRefs_of_leaf (h : s.Leaf) : s.mapRefs f = s := by
  have empty {α : Type} {o : Option (List α)} {g : List α → List α} (hg : g [] = [])
      (ho : o.getD [] = []) : o.map g = o := by
    cases o with
    | none => rfl
    | some l =>
      obtain rfl : l = [] := ho
      exact congrArg some hg
  obtain ⟨hr, hc⟩ := h
  simp only [children, List.append_eq_nil_iff, List.map_eq_nil_iff, Option.toList_eq_nil_iff] at hc
  obtain ⟨⟨⟨⟨hps, hi⟩, hap⟩, hal⟩, hon⟩ := hc
  cases s
  subst hr hi hap
  rw [mapRefs_eq, empty rfl hps, empty rfl hal, empty rfl hon]
  rfl

theorem mapRefs_withExtension :
    (s.withExtension key value).mapRefs f = (s.mapRefs f).withExtension key value := by
  rw [mapRefs_eq, mapRefs_eq s]
  rfl

theorem mapRefs_withDescription (text : Option String) :
    (s.withDescription text).mapRefs f = (s.mapRefs f).withDescription text := by
  cases text with
  | none => rfl
  | some text =>
    rw [mapRefs_eq, mapRefs_eq s]
    rfl

theorem mapRefs_settle : s.settle.mapRefs f = (s.mapRefs f).settle := by
  rw [mapRefs_eq s]
  unfold settle decorated
  dsimp only
  rw [Option.isSome_map]
  split
  · rw [mapRefs_eq]
    simp [mapRefs_eq]
  · rw [mapRefs_eq]

theorem mapRefs_enumerate : (s.enumerate members).mapRefs f = (s.mapRefs f).enumerate members := by
  unfold enumerate
  dsimp only
  split
  · rw [mapRefs_eq, mapRefs_eq s]
  · rw [mapRefs_eq, mapRefs_eq s]
    rfl

theorem mapRefs_array : (array s).mapRefs f = array (s.mapRefs f) := by
  rw [mapRefs_eq]
  rfl

theorem mapRefs_object (ps : List (String × Schema)) (required : List String) :
    (object ps required).mapRefs f = object (mapProperties f ps) required := by
  rw [mapRefs_eq]
  rfl

theorem mapProperties_setKey (ps : List (String × Schema)) :
    mapProperties f (setKey key s ps) = setKey key (s.mapRefs f) (mapProperties f ps) := by
  induction ps with
  | nil => rfl
  | cons e ps ih =>
    obtain ⟨k, v⟩ := e
    by_cases hk : k = key
    · simp [setKey, mapProperties, hk]
    · simp only [mapProperties, List.map_cons, setKey, if_neg hk] at ih ⊢
      rw [ih]

theorem mapProperties_foldl_setKey (fields ps : List (String × Schema)) :
    mapProperties f (fields.foldl (fun ps (k, v) => setKey k v ps) ps) =
      (mapProperties f fields).foldl (fun ps (k, v) => setKey k v ps) (mapProperties f ps) := by
  induction fields generalizing ps with
  | nil => rfl
  | cons e fields ih =>
    rw [List.foldl_cons, ih, mapProperties_setKey]
    rfl

theorem mapRefs_taggedVariant (tag name : String) (payload : Option Schema) :
    (taggedVariant tag name payload).mapRefs f =
      taggedVariant tag name (payload.map (mapRefs f)) := by
  have htag : mapProperties f [(tag, oneText name)] = [(tag, oneText name)] := by
    rw [mapProperties, List.map_singleton, mapRefs_of_leaf ⟨rfl, rfl⟩]
  unfold taggedVariant
  cases payload with
  | none =>
    dsimp only [Option.map_none]
    rw [mapRefs_object, htag]
  | some s =>
    have hps : (s.mapRefs f).properties = s.properties.map (mapProperties f) := by rw [mapRefs_eq]
    have hrq : (s.mapRefs f).required = s.required := by rw [mapRefs_eq]
    dsimp only [Option.map_some]
    rw [hps, hrq]
    cases s.properties with
    | none =>
      dsimp only [Option.map_none]
      rw [mapRefs_eq]
      simp [mapRefs_object, htag]
    | some fields =>
      dsimp only [Option.map_some]
      rw [mapRefs_object, mapProperties_foldl_setKey, htag]

theorem mapRefs_variantSchema (tag : Option String) (name : String) (payload : Option Schema) :
    (variantSchema tag name payload).mapRefs f =
      variantSchema tag name (payload.map (mapRefs f)) := by
  cases tag with
  | none =>
    cases payload with
    | none => exact mapRefs_of_leaf ⟨rfl, rfl⟩
    | some s => exact mapRefs_object _ _
  | some tag => exact mapRefs_taggedVariant tag name payload

theorem mapRefs_documented (docs : Option String) :
    (documented docs s).mapRefs f = documented docs (s.mapRefs f) := by
  cases docs with
  | none => rfl
  | some text =>
    unfold documented
    rw [mapRefs_eq, mapRefs_eq s]

theorem mapRefs_withConstants (p : Program) (name : String) :
    (withConstants p name s).mapRefs f = withConstants p name (s.mapRefs f) := by
  have hvalues : (s.mapRefs f).values = s.values := by rw [mapRefs_eq]
  have hps : (s.mapRefs f).properties.isNone = s.properties.isNone := by
    rw [mapRefs_eq]
    exact Option.isNone_map
  unfold withConstants
  rw [hvalues, hps]
  split
  · cases EnumMember.ofConstants p name with
    | none => rfl
    | some members => exact mapRefs_enumerate
  · rfl

theorem mapRefs_described (p : Program) (d : TypeDecl) :
    (described p d s).mapRefs f = described p d (s.mapRefs f) := by
  unfold described
  rw [mapRefs_settle, mapRefs_withExtension, mapRefs_withConstants, mapRefs_documented]

theorem mapRefs_settled (t : FieldType) : t.settled.mapRefs f =
    ({ t with schema := t.schema.mapRefs f } : FieldType).settled := by
  unfold FieldType.settled
  rw [mapRefs_settle]
  split
  · rfl
  · rw [mapRefs_withExtension]

theorem mapRefs_ofField (field : Field) (container : SerialAttrs) (t : FieldType) :
    (FieldSchema.ofField field container t).schema.mapRefs f =
      (FieldSchema.ofField field container { t with schema := t.schema.mapRefs f }).schema := by
  unfold FieldSchema.ofField
  dsimp only
  rw [mapRefs_settle, ← mapRefs_settled, ← mapRefs_withDescription]
  split <;> split <;> simp only [mapRefs_withExtension]

theorem mapRefs_objectParts (o : ObjectParts) : o.schema.mapRefs f =
    ObjectParts.schema
      { properties := mapProperties f o.properties
        required := o.required
        flattened := o.flattened.map (mapRefs f) } := by
  unfold ObjectParts.schema
  dsimp only
  rw [List.isEmpty_map]
  split
  · rw [mapRefs_object]
  · rw [mapRefs_eq]
    simp [mapRefs_object]

section Tuple

variable {Name : String → Prop} (hf : Distinguishes f Name)

include hf

theorem contains_map {seen : List Schema} (hseen : ∀ s ∈ seen, Every (RefersTo Name) s)
    (hs : Every (RefersTo Name) s) :
    (seen.map (mapRefs f)).contains (s.mapRefs f) = seen.contains s := by
  induction seen with
  | nil => rfl
  | cons c seen ih =>
    obtain ⟨hc, hseen⟩ := List.forall_mem_cons.mp hseen
    rw [List.map_cons, List.contains_cons, List.contains_cons, beq_mapRefs hf hs hc, ih hseen]

theorem map_distinct {ss : List Schema} (h : ∀ s ∈ ss, Every (RefersTo Name) s) :
    distinct (ss.map (mapRefs f)) = (distinct ss).map (mapRefs f) := by
  have general (seen : List Schema) (hseen : ∀ s ∈ seen, Every (RefersTo Name) s) :
      (ss.map (mapRefs f)).foldl (fun seen s => if seen.contains s then seen else seen ++ [s])
        (seen.map (mapRefs f)) =
      (ss.foldl (fun seen s => if seen.contains s then seen else seen ++ [s]) seen).map
        (mapRefs f) := by
    induction ss generalizing seen with
    | nil => rfl
    | cons s ss ih =>
      obtain ⟨hs, hss⟩ := List.forall_mem_cons.mp h
      rw [List.map_cons, List.foldl_cons, List.foldl_cons, contains_map hf hseen hs]
      split
      · exact ih hss seen hseen
      · have hnext := ih hss (seen ++ [s])
          (List.forall_mem_append.mpr ⟨hseen, List.forall_mem_singleton.mpr hs⟩)
        rwa [List.map_append] at hnext
  exact general [] (by simp)

theorem mapRefs_tuple {ss : List Schema} (h : ∀ s ∈ ss, Every (RefersTo Name) s) :
    (tuple ss).mapRefs f = tuple (ss.map (mapRefs f)) := by
  unfold tuple
  rw [map_distinct hf h, List.length_map]
  generalize distinct ss = different
  rw [mapRefs_eq]
  match different with
  | [] => simp [array, mapRefs_eq]
  | [s] => simp [array]
  | s :: s' :: rest => simp [array, mapRefs_eq]

end Tuple

end Building

/-- Schemas that are the same when the references of each are written in its own way. -/
structure SameUnder (f g : String → String) (Name Name' : String → Prop) (s s' : Schema) :
    Prop where
  same : s.mapRefs f = s'.mapRefs g
  left : Every (RefersTo Name) s
  right : Every (RefersTo Name') s'

section SameUnder

variable {g : String → String} {Name Name' : String → Prop}

theorem SameUnder.map_eq {ss ss' : List Schema}
    (h : List.Forall₂ (SameUnder f g Name Name') ss ss') :
    ss.map (mapRefs f) = ss'.map (mapRefs g) ∧ (∀ s ∈ ss, Every (RefersTo Name) s) ∧
      ∀ s ∈ ss', Every (RefersTo Name') s := by
  induction h with
  | nil => simp
  | cons hs _ ih =>
    obtain ⟨heq, hl, hr⟩ := ih
    refine ⟨?_, List.forall_mem_cons.mpr ⟨hs.left, hl⟩, List.forall_mem_cons.mpr ⟨hs.right, hr⟩⟩
    rw [List.map_cons, List.map_cons, hs.same, heq]

theorem SameUnder.mapProperties_eq {ps qs : List (String × Schema)}
    (h : PropertiesAlike (SameUnder f g Name Name') ps qs) :
    mapProperties f ps = mapProperties g qs ∧ (∀ e ∈ ps, Every (RefersTo Name) e.2) ∧
      ∀ e ∈ qs, Every (RefersTo Name') e.2 := by
  induction h with
  | nil => simp [mapProperties]
  | @cons e e' _ _ he _ ih =>
    obtain ⟨heq, hl, hr⟩ := ih
    obtain ⟨hk, hs⟩ := he
    refine ⟨?_, List.forall_mem_cons.mpr ⟨hs.left, hl⟩, List.forall_mem_cons.mpr ⟨hs.right, hr⟩⟩
    simp only [mapProperties, List.map_cons] at heq ⊢
    rw [hk, hs.same, heq]

/-- All that the compiler builds of such schemas is such. -/
theorem schemaCongruence_sameUnder (p : Program) (hf : Distinguishes f Name)
    (hg : Distinguishes g Name') : SchemaCongruence (SameUnder f g Name Name') := by
  have left := (nodeRules_refersTo p Name).schemaRules
  have right := (nodeRules_refersTo p Name').schemaRules
  constructor
  case leaf =>
    intro s h
    refine ⟨?_, every_of_leaf h.1 h.2, every_of_leaf h.1 h.2⟩
    rw [mapRefs_of_leaf h, mapRefs_of_leaf h]
  case settled =>
    intro t t' h
    refine ⟨?_, left.settled h.schema.left, right.settled h.schema.right⟩
    rw [mapRefs_settled, mapRefs_settled, h.schema.same, h.optional, h.pointers]
  case field =>
    intro field container t t' h
    refine ⟨?_, left.field field container h.schema.left,
      right.field field container h.schema.right⟩
    rw [mapRefs_ofField, mapRefs_ofField, h.schema.same, h.optional, h.pointers]
  case array =>
    intro s s' h
    refine ⟨?_, left.array h.left, right.array h.right⟩
    rw [mapRefs_array, mapRefs_array, h.same]
  case fixed =>
    intro n s s' h
    refine ⟨?_, left.fixed n h.left, right.fixed n h.right⟩
    rw [mapRefs_eq, mapRefs_eq]
    simp only [array, Option.map_some, Option.map_none, h.same]
  case set =>
    intro s s' h
    refine ⟨?_, left.set h.left, right.set h.right⟩
    rw [mapRefs_eq, mapRefs_eq]
    simp only [array, Option.map_some, Option.map_none, h.same]
  case map =>
    intro s s' h
    refine ⟨?_, left.map h.left, right.map h.right⟩
    rw [mapRefs_eq, mapRefs_eq]
    simp only [typed, Option.map_some, Option.map_none, h.same]
  case tuple =>
    intro ss ss' h
    obtain ⟨heq, hl, hr⟩ := SameUnder.map_eq h
    refine ⟨?_, left.tuple hl, right.tuple hr⟩
    rw [mapRefs_tuple hf hl, mapRefs_tuple hg hr, heq]
  case object =>
    intro o o' h
    obtain ⟨hps, hpl, hpr⟩ := SameUnder.mapProperties_eq h.properties
    obtain ⟨hss, hsl, hsr⟩ := SameUnder.map_eq h.flattened
    refine ⟨?_, every_objectParts hpl hsl, every_objectParts hpr hsr⟩
    rw [mapRefs_objectParts, mapRefs_objectParts, hps, hss, h.required]
  case variant =>
    intro tag name text payload payload' h
    have hpayload : payload.map (mapRefs f) = payload'.map (mapRefs g) ∧
        (∀ s, payload = some s → Every (RefersTo Name) s) ∧
        ∀ s, payload' = some s → Every (RefersTo Name') s := by
      cases h with
      | none => simp
      | some h => simp [h.same, h.left, h.right]
    obtain ⟨heq, hl, hr⟩ := hpayload
    refine ⟨?_, left.variant tag name text hl, right.variant tag name text hr⟩
    rw [mapRefs_withDescription, mapRefs_withDescription, mapRefs_variantSchema,
      mapRefs_variantSchema, heq]
  case oneOf =>
    intro ss ss' h
    obtain ⟨heq, hl, hr⟩ := SameUnder.map_eq h
    refine ⟨?_, left.oneOf hl, right.oneOf hr⟩
    rw [mapRefs_eq, mapRefs_eq]
    simp only [Option.map_some, Option.map_none, heq]

theorem SameUnder.described (p : Program) (d : TypeDecl) {s s' : Schema}
    (h : SameUnder f g Name Name' s s') :
    SameUnder f g Name Name' (described p d s) (described p d s') where
  same := by rw [mapRefs_described, mapRefs_described, h.same]
  left := (nodeRules_refersTo p Name).ofType d h.left
  right := (nodeRules_refersTo p Name').ofType d h.right

end SameUnder

end Schema

end ServiceContract
