import ServiceContract.Proofs.Schema.Node
import Mathlib.Data.List.Forall2
import Mathlib.Data.Option.Basic
import Mathlib.Tactic.SplitIfs

/-! # What one level of expansion asks for

The compiler asks for the schemas of other types, one after the other, and puts together what it is
told. What it asks for never depends on the answers. One level of expansion is the use of a declared
struct or enum, which is a component, or else it asks for other types and does nothing more. So what
holds of all work is told by what holds of the uses.

Two such works with different answers are compared by a relation of schemas that everything built
of schemas respects.
-/

namespace ServiceContract

open Source TypeCompiler

/-- A schema without references and without schemas in it. -/
def Schema.Leaf (s : Schema) : Prop := s.reference = none ∧ s.children = []

theorem Schema.leaf_ofPrimitive? {name : String} {s : Schema} (h : ofPrimitive? name = some s) :
    s.Leaf := by
  unfold ofPrimitive? at h
  split_ifs at h <;> cases h <;> exact ⟨rfl, rfl⟩

theorem Schema.leaf_ofLibrary? {name : String} {s : Schema} (h : ofLibrary? name = some s) :
    s.Leaf := by
  unfold ofLibrary? at h
  split at h
  · cases h
    exact ⟨rfl, rfl⟩
  · split_ifs at h
    cases h
    exact ⟨rfl, rfl⟩

theorem Schema.leaf_enumerate (members : List EnumMember) :
    ((typed "string").enumerate members).Leaf :=
  ⟨reference_enumerate, children_enumerate⟩

section Alike

variable (R : Schema → Schema → Prop)

/-- Field types that differ in their schemas only, which are related. -/
structure FieldType.Alike (f g : FieldType) : Prop where
  schema : R f.schema g.schema
  optional : f.optional = g.optional
  pointers : f.pointers = g.pointers

structure FieldSchema.Alike (f g : FieldSchema) : Prop where
  name : f.name = g.name
  schema : R f.schema g.schema
  required : f.required = g.required

/-- Properties of the same names whose schemas are related. -/
def Schema.PropertiesAlike (ps qs : List (String × Schema)) : Prop :=
  List.Forall₂ (fun e e' => e.1 = e'.1 ∧ R e.2 e'.2) ps qs

structure TypeCompiler.ObjectParts.Alike (o o' : ObjectParts) : Prop where
  properties : Schema.PropertiesAlike R o.properties o'.properties
  required : o.required = o'.required
  flattened : List.Forall₂ R o.flattened o'.flattened

/-- A relation of schemas that everything the compiler builds respects. -/
structure SchemaCongruence : Prop where
  leaf : ∀ {s : Schema}, s.Leaf → R s s
  settled : ∀ {f g : FieldType}, f.Alike R g → R f.settled g.settled
  field : ∀ field container {f g : FieldType}, f.Alike R g →
    R (FieldSchema.ofField field container f).schema (FieldSchema.ofField field container g).schema
  array : ∀ {s s'}, R s s' → R (.array s) (.array s')
  fixed : ∀ n {s s'}, R s s' → R { Schema.array s with minItems := n, maxItems := n }
    { Schema.array s' with minItems := n, maxItems := n }
  set : ∀ {s s'}, R s s' → R { Schema.array s with uniqueItems := some true }
    { Schema.array s' with uniqueItems := some true }
  map : ∀ {s s'}, R s s' → R { Schema.typed "object" with additionalProperties := some s }
    { Schema.typed "object" with additionalProperties := some s' }
  tuple : ∀ {ss ss'}, List.Forall₂ R ss ss' → R (.tuple ss) (.tuple ss')
  object : ∀ {o o' : ObjectParts}, o.Alike R o' → R o.schema o'.schema
  variant : ∀ tag name text {s s'}, Option.Rel R s s' →
    R ((variantSchema tag name s).withDescription text)
      ((variantSchema tag name s').withDescription text)
  oneOf : ∀ {ss ss'}, List.Forall₂ R ss ss' → R { oneOf := some ss } { oneOf := some ss' }

end Alike

theorem Schema.PropertiesAlike.setKey {R : Schema → Schema → Prop}
    {ps qs : List (String × Schema)} {key : String} {s s' : Schema}
    (hp : Schema.PropertiesAlike R ps qs) (hs : R s s') :
    Schema.PropertiesAlike R (setKey key s ps) (setKey key s' qs) := by
  induction hp with
  | nil => exact .cons ⟨rfl, hs⟩ .nil
  | @cons e e' ps qs he hp ih =>
    obtain ⟨k, v⟩ := e
    obtain ⟨k', v'⟩ := e'
    obtain rfl : k = k' := he.1
    by_cases hk : k = key
    · rw [ServiceContract.setKey, ServiceContract.setKey, if_pos hk, if_pos hk]
      exact .cons ⟨rfl, hs⟩ hp
    · rw [ServiceContract.setKey, ServiceContract.setKey, if_neg hk, if_neg hk]
      exact .cons he ih

/-- Equality is such a relation. -/
theorem schemaCongruence_eq : SchemaCongruence Eq := by
  have field_eq {f g : FieldType} (h : f.Alike Eq g) : f = g := by
    obtain ⟨hs, ho, hp⟩ := h
    cases f
    cases g
    simp_all
  have list_eq {ss ss' : List Schema} (h : List.Forall₂ Eq ss ss') : ss = ss' := by
    rwa [List.forall₂_eq_eq_eq] at h
  have properties_eq {ps qs : List (String × Schema)} (h : Schema.PropertiesAlike Eq ps qs) :
      ps = qs :=
    List.forall₂_eq_eq_eq ▸ h.imp fun _ _ he => Prod.ext he.1 he.2
  refine ⟨fun _ => rfl, fun h => field_eq h ▸ rfl, fun _ _ _ _ h => field_eq h ▸ rfl,
    fun h => h ▸ rfl, fun _ _ _ h => h ▸ rfl, fun h => h ▸ rfl, fun h => h ▸ rfl,
    fun h => list_eq h ▸ rfl, fun {o o'} h => ?_, fun _ _ _ _ _ h => ?_, fun h => list_eq h ▸ rfl⟩
  · obtain ⟨hp, hr, hf⟩ := h
    obtain ⟨ps, rq, fl⟩ := o
    obtain ⟨ps', rq', fl'⟩ := o'
    obtain rfl : ps = ps' := properties_eq hp
    obtain rfl : rq = rq' := hr
    obtain rfl : fl = fl' := list_eq hf
    rfl
  · cases h <;> simp_all

/-- What is known of the types that a compiler is asked for is known of all that it asks for. -/
structure TypeRules (p : Program) (Q : TypeExpr → Prop) : Prop where
  arg : ∀ {segments args}, Q (.path segments args) → ∀ a ∈ args, Q a
  ref : ∀ {t}, Q (.ref t) → Q t
  slice : ∀ {t}, Q (.slice t) → Q t
  array : ∀ {t n}, Q (.array t n) → Q t
  tuple : ∀ {ts}, Q (.tuple ts) → ∀ t ∈ ts, Q t
  canonical : ∀ {t} module, Q t → Q (p.canonical module t)
  written : ∀ {path module d args}, p.findType path module = some d → (∀ a ∈ args, Q a) →
    ∀ t ∈ Program.writtenTypes d, Q ((d.substitution args).apply t)

theorem typeRules_true (p : Program) : TypeRules p fun _ => True :=
  ⟨fun _ _ _ => trivial, fun _ => trivial, fun _ => trivial, fun _ => trivial, fun _ _ _ => trivial,
    fun _ _ => trivial, fun _ _ _ _ => trivial⟩

variable {p : Program} {Q : TypeExpr → Prop} {W W' : TypeExpr → List String → Prop}
  {R : Schema → Schema → Prop} {inner inner' : TypeCompiler}

theorem TypeRules.layers (types : TypeRules p Q) {t : TypeExpr} (ht : Q t) :
    Q (Layers.ofType t).type := by
  fun_induction Layers.ofType t
  case case1 ih | case2 ih => exact ih (types.ref ht)
  case case3 ih | case4 ih | case5 ih => exact ih (types.arg ht _ List.mem_cons_self)
  case case6 | case7 => exact ht

theorem TypeRules.canonicalAll (types : TypeRules p Q) {args : List TypeExpr} (module : List String)
    (h : ∀ a ∈ args, Q a) : ∀ a ∈ p.canonicalAll module args, Q a := by
  induction args with
  | nil => simp [Program.canonicalAll]
  | cons a as ih =>
    rw [Program.canonicalAll, List.forall_mem_cons]
    exact ⟨types.canonical module (h a List.mem_cons_self),
      ih fun b hb => h b (List.mem_cons_of_mem _ hb)⟩

/-- The errors that work may end with on its own, for the name of the type that they are found in,
each with the type as written. -/
abbrev Faults := (String → Error) → TypeExpr → Prop

def Faults.none : Faults := fun _ _ => False

/-- Two works ask for the same types in the same order, and, if `h` holds, end with results that are
related, provided that the answers are. -/
inductive Asks (F : Faults) (W : TypeExpr → List String → Prop) (R : Schema → Schema → Prop)
    (inner inner' : TypeCompiler) :
    Prop → {α : Type} → (α → α → Prop) → Compile α → Compile α → Prop
  | pure {h : Prop} {α : Type} {S : α → α → Prop} {a b : α} :
    (h → S a b) → Asks F W R inner inner' h S (pure a) (pure b)
  | fail {h : Prop} {α : Type} {S : α → α → Prop} (e : String → Error) (written : TypeExpr) :
    F e written → (∀ c text, e c ≠ .endlessType text) →
    Asks F W R inner inner' h S (Compile.context written >>= fun c => throw (e c))
      (Compile.context written >>= fun c => throw (e c))
  | type {h : Prop} {t : TypeExpr} {module : List String} :
    W t module → Asks F W R inner inner' h (FieldType.Alike R) (inner t module) (inner' t module)
  | bind {h : Prop} {α β : Type} {S : α → α → Prop} {S' : β → β → Prop} {x y : Compile α}
    {f g : α → Compile β} : Asks F W R inner inner' h S x y →
    (∀ a b, Asks F W R inner inner' (h ∧ S a b) S' (f a) (g b)) →
    Asks F W R inner inner' h S' (x >>= f) (y >>= g)

namespace Asks

variable {F : Faults} {α β : Type} {S S' : α → α → Prop} {h h' : Prop} {x y : Compile α}

theorem weaken (hx : Asks F W R inner inner' h S x y) (hh : h' → h) :
    Asks F W R inner inner' h' S x y := by
  induction hx generalizing h' with
  | pure hs => exact .pure fun h => hs (hh h)
  | fail e written hF he => exact .fail e written hF he
  | type ht => exact .type ht
  | bind _ _ ihx ihf => exact .bind (ihx hh) fun a b => ihf a b fun h => ⟨hh h.1, h.2⟩

theorem mono (hx : Asks F W R inner inner' h S x y)
    (hW : ∀ {t module}, W t module → W' t module) : Asks F W' R inner inner' h S x y := by
  induction hx with
  | pure hs => exact .pure hs
  | fail e written hF he => exact .fail e written hF he
  | type ht => exact .type (hW ht)
  | bind _ _ ihx ihf => exact .bind ihx ihf

theorem map {T : β → β → Prop} {f : α → β} (hx : Asks F W R inner inner' h S x y)
    (hf : ∀ a b, h → S a b → T (f a) (f b)) : Asks F W R inner inner' h T (f <$> x) (f <$> y) := by
  rw [map_eq_pure_bind, map_eq_pure_bind]
  exact .bind hx fun a b => .pure fun h => hf a b h.1 h.2

theorem mapM {γ : Type} {f g : γ → Compile α} {l : List γ}
    (hf : ∀ c ∈ l, Asks F W R inner inner' h S (f c) (g c)) :
    Asks F W R inner inner' h (List.Forall₂ S) (l.mapM f) (l.mapM g) := by
  induction l generalizing h with
  | nil => exact .pure fun _ => .nil
  | cons c rest ih =>
    rw [List.mapM_cons, List.mapM_cons]
    refine .bind (hf c List.mem_cons_self) fun a b => ?_
    refine .bind (ih fun c hc => (hf c (List.mem_cons_of_mem _ hc)).weaken And.left) fun as bs => ?_
    exact .pure fun h => .cons h.1.2 h.2

section Compiler

variable (congr : SchemaCongruence R) {σ : Substitution} {module : List String}

include congr

theorem schemaOf {t : TypeExpr} (ht : W t module) :
    Asks F W R inner inner' h R (inner.schemaOf t module) (inner'.schemaOf t module) :=
  .bind (.type ht) fun _ _ => .pure fun hs => congr.settled hs.2

theorem tupleOf {ts : List TypeExpr} (hts : ∀ t ∈ ts, W t module) :
    Asks F W R inner inner' h R (inner.tupleOf ts module) (inner'.tupleOf ts module) :=
  .bind (.mapM fun t ht => schemaOf congr (hts t ht)) fun _ _ => .pure fun hs => congr.tuple hs.2

theorem fieldOf (field : Field) (container : SerialAttrs) {t : TypeExpr} (ht : W t module) :
    Asks F W R inner inner' h (FieldSchema.Alike R) (inner.fieldOf field t container module)
      (inner'.fieldOf field t container module) := by
  refine .bind (.type ht) fun f g => .pure fun hs => ⟨rfl, congr.field field container hs.2, ?_⟩
  simp only [FieldSchema.ofField, hs.2.optional]

theorem objectOf (container : SerialAttrs) {o o' : ObjectParts} {fields : List Field}
    (ho : h → o.Alike R o') (hq : ∀ f ∈ fields, W (σ.apply f.type) module) :
    Asks F W R inner inner' h R (inner.objectOf σ container module o fields)
      (inner'.objectOf σ container module o' fields) := by
  induction fields generalizing h o o' with
  | nil => exact .pure fun hh => congr.object (ho hh)
  | cons field rest ih =>
    obtain ⟨hfield, hrest⟩ := List.forall_mem_cons.mp hq
    unfold TypeCompiler.objectOf
    by_cases hskip : (SerialAttrs.ofAttrs field.attrs).skip = true
    · simp only [hskip, if_true]
      exact ih ho hrest
    · by_cases hflat : (SerialAttrs.ofAttrs field.attrs).flatten = true
      · by_cases hbytes : isBytes (σ.apply field.type) = true
        · simp only [hskip, hflat, hbytes, if_true]
          exact .pure fun _ => congr.leaf ⟨rfl, rfl⟩
        · simp only [hskip, hflat, hbytes, if_true]
          refine .bind (schemaOf congr hfield) fun s s' => ih (fun hs => ?_) hrest
          obtain ⟨hp, hr, hf⟩ := ho hs.1
          exact ⟨hp, hr, List.rel_append hf (.cons hs.2 .nil)⟩
      · simp only [hskip, hflat]
        refine .bind (fieldOf congr field container hfield) fun f f' => ih (fun hs => ?_) hrest
        obtain ⟨hp, hr, hf⟩ := ho hs.1
        obtain ⟨hn, hs, hreq⟩ := hs.2
        refine ⟨?_, ?_, hf⟩
        · simp only [ObjectParts.addField, hn]
          exact hp.setKey hs
        · simp only [ObjectParts.addField, hn, hreq, hr]

theorem unnamedOf {fields : List Field} (hq : ∀ f ∈ fields, W (σ.apply f.type) module) :
    Asks F W R inner inner' h R (inner.unnamedOf σ module fields)
      (inner'.unnamedOf σ module fields) := by
  have hts : ∀ t ∈ fields.map fun f => σ.apply f.type, W t module := List.forall_mem_map.mpr hq
  unfold TypeCompiler.unnamedOf
  generalize (fields.map fun f => σ.apply f.type) = ts at hts
  match ts, hts with
  | [t], hts => exact schemaOf congr (hts t List.mem_cons_self)
  | [], hts => exact tupleOf congr hts
  | _ :: _ :: _, hts => exact tupleOf congr hts

theorem structOf {d : Declared StructItem}
    (hq : ∀ t ∈ Program.writtenTypes (.struct d), W (σ.apply t) d.module) :
    Asks F W R inner inner' h R (inner.structOf σ d) (inner'.structOf σ d) := by
  have hf : ∀ f ∈ d.item.fields.toList, W (σ.apply f.type) d.module := fun f hf =>
    hq f.type (List.mem_map_of_mem hf)
  unfold TypeCompiler.structOf
  cases hd : d.item.fields with
  | unit => exact .pure fun _ => congr.leaf ⟨rfl, rfl⟩
  | unnamed fields => exact unnamedOf congr (by simpa [hd, Fields.toList] using hf)
  | named fields =>
    exact objectOf congr _ (fun _ => ⟨.nil, rfl, .nil⟩) (by simpa [hd, Fields.toList] using hf)

theorem payloadOf {v : Variant} (hq : ∀ f ∈ v.fields.toList, W (σ.apply f.type) module) :
    Asks F W R inner inner' h (Option.Rel R) (inner.payloadOf σ module v)
      (inner'.payloadOf σ module v) := by
  unfold TypeCompiler.payloadOf
  cases hv : v.fields with
  | unit => exact .pure fun _ => .none
  | unnamed fields =>
    exact .map (unnamedOf congr (by simpa [hv, Fields.toList] using hq)) fun _ _ _ => .some
  | named fields =>
    exact .map (objectOf congr _ (fun _ => ⟨.nil, rfl, .nil⟩)
      (by simpa [hv, Fields.toList] using hq)) fun _ _ _ => .some

theorem enumOf {d : Declared EnumItem}
    (hq : ∀ t ∈ Program.writtenTypes (.enum d), W (σ.apply t) d.module) :
    Asks F W R inner inner' h R (inner.enumOf p σ d) (inner'.enumOf p σ d) := by
  unfold TypeCompiler.enumOf
  cases EnumMember.ofVariants ⟨p, d.module, some d.item.name⟩ d.item with
  | some members => exact .pure fun _ => congr.leaf (Schema.leaf_enumerate members)
  | none =>
    refine .bind (.mapM fun v hv => ?_) fun _ _ => .pure fun hs => congr.oneOf hs.2
    have hv' : ∀ f ∈ v.fields.toList, W (σ.apply f.type) d.module := fun f hf =>
      hq f.type (List.mem_flatMap.mpr ⟨v, List.mem_of_mem_filter hv, List.mem_map_of_mem hf⟩)
    exact .bind (payloadOf congr hv') fun _ _ => .pure fun hs => congr.variant _ _ _ hs.2

end Compiler

end Asks

namespace TypeCompiler

/-- What the component of a use of a declaration is the description of. -/
def expansionOf (p : Program) (inner : TypeCompiler) (d : TypeDecl) (args : List TypeExpr) :
    Compile Schema :=
  match d with
  | .struct s => inner.structOf (d.substitution args) s
  | .enum e => inner.enumOf p (d.substitution args) e
  | .typeAlias a => inner.schemaOf ((d.substitution args).apply a.item.target) a.module

theorem asks_expansionOf (congr : SchemaCongruence R) {d : TypeDecl} {args : List TypeExpr}
    {h : Prop} (hq : ∀ t ∈ Program.writtenTypes d, W ((d.substitution args).apply t) d.module) :
    Asks .none W R inner inner' h R (expansionOf p inner d args) (expansionOf p inner' d args) := by
  cases d with
  | struct s => exact .structOf congr hq
  | enum e => exact .enumOf congr hq
  | typeAlias a => exact .schemaOf congr (hq _ List.mem_cons_self)

/-- A description asks for other types, or fails on its own, and does nothing more. -/
def OnlyAsks (F : Faults) (W : TypeExpr → List String → Prop) (x : TypeCompiler → Compile Schema) :
    Prop :=
  ∀ {R inner inner'} (h : Prop), SchemaCongruence R →
    Asks F W R inner inner' h R (x inner) (x inner')

/-- The types that a named type is described by, unless its name is looked up. -/
def builtinParts? (path : TypePath) : Option (List TypeExpr) :=
  if (Schema.ofPrimitive? path.name).isSome then some []
  else
    match path.args with
    | [] => none
    | item :: rest =>
      if lists.contains path.name || sets.contains path.name then some [item]
      else
        match rest with
        | value :: _ => if maps.contains path.name then some [value] else none
        | [] => none

theorem subset_of_builtinParts? {path : TypePath} {ts : List TypeExpr}
    (h : builtinParts? path = some ts) : ts ⊆ path.args := by
  obtain ⟨segments, args⟩ := path
  match args with
  | [] | [_] | _ :: _ :: _ =>
    unfold builtinParts? at h
    dsimp only at h
    split_ifs at h <;> cases h <;> simp

/-- A type without wrappers is refused with an error: it is a map whose keys are no texts, or its
name looks like that of a number and stands for nothing. -/
inductive Refused (p : Program) (module : List String) : TypeExpr → (String → Error) → Prop
  | mapKey {segments : List String} {key value : TypeExpr} {rest : List TypeExpr} :
    maps.contains (TypePath.name ⟨segments, key :: value :: rest⟩) = true →
    isTextKey p (p.types.length + 1) key module = false →
    Refused p module (.path segments (key :: value :: rest)) (.unsupportedMapKey key.text)
  | unknown {path : TypePath} : builtinParts? path = none → p.findType path module = none →
    Schema.ofLibrary? path.name = none → Schema.looksNumeric path.name = true →
    Refused p module path.toType (.unknownPrimitive path.name)

/-- The faults of a type without wrappers are its own. -/
def faultsOf (p : Program) (module : List String) (t : TypeExpr) : Faults :=
  fun e written => written = t ∧ Refused p module t e

/-- A name is looked up, or its description only asks for the types of its items or values. -/
theorem pathOf_cases (p : Program) (path : TypePath) (module : List String) :
    (builtinParts? path = none ∧
      ∀ inner : TypeCompiler, inner.pathOf p path module = inner.namedOf p path module) ∨
    ∃ ts, builtinParts? path = some ts ∧
      OnlyAsks (faultsOf p module path.toType) (fun t m => t ∈ ts ∧ m = module)
        fun inner => inner.pathOf p path module := by
  obtain ⟨segments, args⟩ := path
  unfold builtinParts? pathOf
  cases hp : Schema.ofPrimitive? (TypePath.name ⟨segments, args⟩) with
  | some s =>
    exact .inr ⟨[], by simp, fun _ congr => .pure fun _ => congr.leaf (Schema.leaf_ofPrimitive? hp)⟩
  | none =>
    rw [Option.isSome_none, if_neg Bool.false_ne_true]
    cases args with
    | nil => exact .inl ⟨rfl, fun inner => rfl⟩
    | cons item rest =>
      dsimp only
      by_cases hl : lists.contains (TypePath.name ⟨segments, item :: rest⟩) = true
      · simp only [hl, Bool.true_or, if_true]
        refine .inr ⟨_, rfl, fun _ congr => ?_⟩
        exact .bind (.schemaOf congr ⟨List.mem_cons_self, rfl⟩) fun _ _ =>
          .pure fun hs => congr.array hs.2
      by_cases hset : sets.contains (TypePath.name ⟨segments, item :: rest⟩) = true
      · simp only [hl, hset, Bool.or_true, if_true]
        refine .inr ⟨_, rfl, fun _ congr => ?_⟩
        exact .bind (.schemaOf congr ⟨List.mem_cons_self, rfl⟩) fun _ _ =>
          .pure fun hs => congr.set hs.2
      simp only [hl, hset, Bool.or_self, Bool.false_eq_true, if_false]
      cases rest with
      | nil => exact .inl ⟨rfl, fun inner => rfl⟩
      | cons value more =>
        dsimp only
        by_cases hm : maps.contains (TypePath.name ⟨segments, item :: value :: more⟩) = true
        · simp only [hm, if_true]
          refine .inr ⟨_, rfl, fun _ congr => ?_⟩
          by_cases hk : isTextKey p (p.types.length + 1) item module = true
          · simp only [hk, if_true]
            exact .bind (.schemaOf congr ⟨List.mem_cons_self, rfl⟩) fun _ _ =>
              .pure fun hs => congr.map hs.2
          · simp only [hk]
            exact .fail _ _ ⟨rfl, .mapKey hm (Bool.eq_false_iff.mpr hk)⟩ (by simp)
        · simp only [hm]
          exact .inl ⟨rfl, fun inner => rfl⟩

end TypeCompiler

/-- The types that stand directly in a type. -/
def TypeExpr.children : TypeExpr → List TypeExpr
  | .path _ ts | .tuple ts => ts
  | .ref t | .slice t | .array t _ => [t]
  | .dynamic | .unknown => []

/-- A type as written in a module. -/
structure Occurrence where
  type : TypeExpr
  module : List String

namespace Program

/-- What the description of a type without wrappers asks for in place: parts of the type, or the
target of the alias that it names. -/
def inPlace (p : Program) (x : Occurrence) : List Occurrence :=
  match x.type with
  | .ref t | .slice t | .array t _ => [⟨t, x.module⟩]
  | .tuple ts => ts.map (⟨·, x.module⟩)
  | .dynamic | .unknown => []
  | .path segments args =>
    match builtinParts? ⟨segments, args⟩ with
    | some ts => ts.map (⟨·, x.module⟩)
    | none =>
      match p.findType ⟨segments, args⟩ x.module with
      | some (.typeAlias a) =>
        [⟨((TypeDecl.typeAlias a).substitution args).apply a.item.target, a.module⟩]
      | _ => []

/-- The declared struct or enum that a type without wrappers is a use of, with the arguments. -/
def component? (p : Program) (x : Occurrence) : Option (TypeDecl × List TypeExpr) :=
  match x.type with
  | .path segments args =>
    match builtinParts? ⟨segments, args⟩, p.findType ⟨segments, args⟩ x.module with
    | none, some (.struct d) => some (.struct d, p.canonicalAll x.module args)
    | none, some (.enum d) => some (.enum d, p.canonicalAll x.module args)
    | _, _ => none
  | _ => none

end Program

/-- In place, a type leads to types in it or to the target of the alias that it names. -/
theorem mem_inPlace {x y : Occurrence} (hy : y ∈ p.inPlace x) :
    (∃ t ∈ x.type.children, y = ⟨t, x.module⟩) ∨
      ∃ segments args a, x.type = .path segments args ∧ builtinParts? ⟨segments, args⟩ = none ∧
        p.findType ⟨segments, args⟩ x.module = some (.typeAlias a) ∧
        y = ⟨((TypeDecl.typeAlias a).substitution args).apply a.item.target, a.module⟩ := by
  obtain ⟨t, module⟩ := x
  cases t with
  | ref t | slice t | array t n => exact .inl ⟨t, List.mem_cons_self, List.mem_singleton.mp hy⟩
  | tuple ts =>
    obtain ⟨t, ht, rfl⟩ := List.mem_map.mp hy
    exact .inl ⟨t, ht, rfl⟩
  | dynamic | unknown => cases hy
  | path segments args =>
    unfold Program.inPlace at hy
    cases hb : builtinParts? ⟨segments, args⟩ with
    | some ts =>
      simp only [hb] at hy
      obtain ⟨t, ht, rfl⟩ := List.mem_map.mp hy
      exact .inl ⟨t, subset_of_builtinParts? hb ht, rfl⟩
    | none =>
      simp only [hb] at hy
      split at hy
      · next a ha => exact .inr ⟨segments, args, a, rfl, hb, ha, List.mem_singleton.mp hy⟩
      · cases hy

theorem TypeRules.children (types : TypeRules p Q) {t u : TypeExpr} (ht : Q t)
    (hu : u ∈ t.children) : Q u := by
  cases t with
  | path segments args => exact types.arg ht u hu
  | tuple ts => exact types.tuple ht u hu
  | ref t => exact List.mem_singleton.mp hu ▸ types.ref ht
  | slice t => exact List.mem_singleton.mp hu ▸ types.slice ht
  | array t n => exact List.mem_singleton.mp hu ▸ types.array ht
  | dynamic | unknown => cases hu

theorem TypeRules.inPlace (types : TypeRules p Q) {x y : Occurrence} (hx : Q x.type)
    (hy : y ∈ p.inPlace x) : Q y.type := by
  rcases mem_inPlace hy with ⟨t, ht, rfl⟩ | ⟨segments, args, a, hpath, -, ha, rfl⟩
  · exact types.children hx ht
  · exact types.written ha (types.arg (hpath ▸ hx)) _ List.mem_cons_self

namespace TypeCompiler

theorem namedOf_cases (p : Program) {segments : List String} {args : List TypeExpr}
    {module : List String} (hb : builtinParts? ⟨segments, args⟩ = none) :
    (∃ d, p.findType ⟨segments, args⟩ module = some d ∧
      p.component? ⟨.path segments args, module⟩ = some (d, p.canonicalAll module args) ∧
      ∀ inner : TypeCompiler, inner.namedOf p ⟨segments, args⟩ module =
        componentOf p d (p.canonicalAll module args)
          (expansionOf p inner d (p.canonicalAll module args))) ∨
      p.component? ⟨.path segments args, module⟩ = none ∧
      OnlyAsks (faultsOf p module (.path segments args))
        (fun t m => ⟨t, m⟩ ∈ p.inPlace ⟨.path segments args, module⟩)
        fun inner => inner.namedOf p ⟨segments, args⟩ module := by
  unfold TypeCompiler.namedOf Program.component? Program.inPlace
  simp only [hb]
  cases hd : p.findType ⟨segments, args⟩ module with
  | none =>
    refine .inr ⟨rfl, fun _ congr => ?_⟩
    dsimp only
    cases hl : Schema.ofLibrary? (TypePath.name ⟨segments, args⟩) with
    | some s => exact .pure fun _ => congr.leaf (Schema.leaf_ofLibrary? hl)
    | none =>
      by_cases hn : Schema.looksNumeric (TypePath.name ⟨segments, args⟩) = true
      · simp only [hn, if_true]
        exact .fail _ _ ⟨rfl, .unknown hb hd hl hn⟩ (by simp)
      · simp only [hn]
        exact .pure fun _ => congr.leaf ⟨rfl, rfl⟩
  | some d =>
    cases d with
    | typeAlias a => exact .inr ⟨rfl, fun _ congr => .schemaOf congr List.mem_cons_self⟩
    | struct s => exact .inl ⟨_, rfl, rfl, fun _ => rfl⟩
    | enum e => exact .inl ⟨_, rfl, rfl, fun _ => rfl⟩

/-- The description of a type without wrappers is the component of a declared struct or enum, or it
only asks for what it needs in place. -/
theorem shapeOf_occurrence (p : Program) (x : Occurrence) :
    (∃ path d args, p.findType path x.module = some d ∧ x.type = .path path.segments path.args ∧
      args = p.canonicalAll x.module path.args ∧ p.component? x = some (d, args) ∧
      ∀ inner : TypeCompiler,
        inner.shapeOf p x.type x.module = componentOf p d args (expansionOf p inner d args)) ∨
      p.component? x = none ∧
      OnlyAsks (faultsOf p x.module x.type) (fun t m => ⟨t, m⟩ ∈ p.inPlace x)
        fun inner => inner.shapeOf p x.type x.module := by
  obtain ⟨t, module⟩ := x
  cases t with
  | ref t => exact .inr ⟨rfl, fun _ congr => .schemaOf congr List.mem_cons_self⟩
  | slice t =>
    refine .inr ⟨rfl, fun _ congr => ?_⟩
    exact .bind (.schemaOf congr List.mem_cons_self) fun _ _ => .pure fun hs => congr.array hs.2
  | array t n =>
    refine .inr ⟨rfl, fun _ congr => ?_⟩
    exact .bind (.schemaOf congr List.mem_cons_self) fun _ _ => .pure fun hs => congr.fixed n hs.2
  | tuple ts =>
    refine .inr ⟨rfl, fun _ congr => ?_⟩
    match ts with
    | [] => exact .pure fun _ => congr.leaf ⟨rfl, rfl⟩
    | t :: ts => exact .tupleOf congr fun t ht => List.mem_map_of_mem ht
  | dynamic => exact .inr ⟨rfl, fun _ congr => .pure fun _ => congr.leaf ⟨rfl, rfl⟩⟩
  | unknown => exact .inr ⟨rfl, fun _ congr => .pure fun _ => congr.leaf ⟨rfl, rfl⟩⟩
  | path segments args =>
    rcases pathOf_cases p ⟨segments, args⟩ module with ⟨hb, hnamed⟩ | ⟨ts, hb, hasks⟩
    · simp only [TypeCompiler.shapeOf, hnamed]
      refine (namedOf_cases p hb).imp_left ?_
      rintro ⟨d, hd, hc, heq⟩
      exact ⟨⟨segments, args⟩, d, _, hd, rfl, rfl, hc, heq⟩
    · refine .inr ⟨by simp [Program.component?, hb], fun hyp congr => ?_⟩
      refine (hasks hyp congr).mono fun {t m} ht => ?_
      obtain ⟨ht, rfl⟩ := ht
      simpa [Program.inPlace, hb] using ht

/-- A type that is written in a module is a use of a declared struct or enum, which its description
is a component of. -/
structure Uses (p : Program) (Q : TypeExpr → Prop) (t : TypeExpr) (module : List String)
    (d : TypeDecl) (args : List TypeExpr) : Prop where
  found : ∃ path, p.findType path module = some d
  known : ∀ a ∈ args, Q a
  shapeOf_eq : ∀ inner : TypeCompiler,
    inner.shapeOf p t module = componentOf p d args (expansionOf p inner d args)

theorem Uses.written (types : TypeRules p Q) {t : TypeExpr} {module : List String} {d : TypeDecl}
    {args : List TypeExpr} (use : Uses p Q t module d args) :
    ∀ t ∈ Program.writtenTypes d, Q ((d.substitution args).apply t) := by
  obtain ⟨path, hpath⟩ := use.found
  exact types.written hpath use.known

/-- A type without wrappers is a use of a declared struct or enum, or its description only asks for
other types. -/
theorem shapeOf_cases (types : TypeRules p Q) {t : TypeExpr} (module : List String) (ht : Q t) :
    (∃ d args, Uses p Q t module d args) ∨
      OnlyAsks (faultsOf p module t) (fun t _ => Q t)
        fun inner => inner.shapeOf p t module := by
  rcases shapeOf_occurrence p ⟨t, module⟩ with ⟨path, d, args, hd, rfl, rfl, -, heq⟩ | ⟨-, hasks⟩
  · exact .inl ⟨d, _, ⟨path, hd⟩, types.canonicalAll module (types.arg ht), heq⟩
  · exact .inr fun h congr => (hasks h congr).mono (types.inPlace ht)

end TypeCompiler

theorem Layers.ofType_type (t : TypeExpr) :
    ofType (ofType t).type = { type := (ofType t).type } := by
  fun_induction ofType t with
  | case1 t h ih => exact ih
  | case2 t h ih => exact ih
  | case3 segments a as name h ih => exact ih
  | case4 segments a as name h h' _ ih => exact ih
  | case5 segments a as name h h' h'' ih => exact ih
  | case6 segments a as name h h' h'' =>
    rw [ofType]
    simp only [name] at h h' h''
    rw [if_neg h, if_neg h', if_neg h'']
  | case7 t h h' => exact ofType.eq_3 t h h'

/-- A property that work has if its parts have it. -/
structure WorkClosed (P : ∀ α : Type, Compile α → Prop) : Prop where
  pure : ∀ {α} (a : α), P α (pure a)
  fail : ∀ {α} (e : String → Error) (written : TypeExpr), (∀ c text, e c ≠ .endlessType text) →
    P α (Compile.context written >>= fun c => MonadExcept.throw (e c))
  bind : ∀ {α β} {x : Compile α} {f : α → Compile β}, P α x → (∀ a, P β (f a)) → P β (x >>= f)

namespace WorkClosed

variable {P : ∀ α : Type, Compile α → Prop} (closed : WorkClosed P) {α : Type}

include closed

/-- Work that only asks for types has the property if the answers have. -/
theorem of_asks {F : Faults} {h : Prop} {S : α → α → Prop} {x y : Compile α}
    (hi : ∀ t module, W t module → P FieldType (inner t module))
    (hx : Asks F W R inner inner' h S x y) : P α x := by
  induction hx with
  | pure _ => exact closed.pure _
  | fail e written _ he => exact closed.fail e written he
  | type ht => exact hi _ _ ht
  | bind _ _ ihx ihf => exact closed.bind ihx fun a => ihf a a

theorem of_asks_right {F : Faults} {h : Prop} {S : α → α → Prop} {x y : Compile α}
    (hi : ∀ t module, W t module → P FieldType (inner' t module))
    (hx : Asks F W R inner inner' h S x y) : P α y := by
  induction hx with
  | pure _ => exact closed.pure _
  | fail e written _ he => exact closed.fail e written he
  | type ht => exact hi _ _ ht
  | bind _ _ ihx ihf => exact closed.bind ihx fun a => ihf a a

theorem mapM {γ : Type} {f : γ → Compile α} {l : List γ} (hf : ∀ c ∈ l, P α (f c)) :
    P (List α) (l.mapM f) := by
  induction l with
  | nil => exact closed.pure _
  | cons c rest ih =>
    rw [List.mapM_cons]
    refine closed.bind (hf c List.mem_cons_self) fun a => closed.bind ?_ fun as => closed.pure _
    exact ih fun c hc => hf c (List.mem_cons_of_mem _ hc)

theorem expansionOf {d : TypeDecl} {args : List TypeExpr}
    (hi : ∀ t module, W t module → P FieldType (inner t module))
    (hq : ∀ t ∈ Program.writtenTypes d, W ((d.substitution args).apply t) d.module) :
    P Schema (expansionOf p inner d args) := by
  have hasks : Asks .none W Eq inner inner True Eq (TypeCompiler.expansionOf p inner d args)
      (TypeCompiler.expansionOf p inner d args) := asks_expansionOf schemaCongruence_eq hq
  exact closed.of_asks hi hasks

end WorkClosed

/-- A property of work that all work of the compiler has, as long as the uses of declared types
have it. -/
structure WorkRules (p : Program) (Q : TypeExpr → Prop) (P : ∀ α : Type, Compile α → Prop) : Prop
    extends WorkClosed P where
  types : TypeRules p Q
  throw : ∀ {α} (e : Error), P α (throw e)
  component : ∀ {t module d args n}, Uses p Q t module d args →
    Layers.ofType t = { type := t } → P Schema (expansionOf p (within p n) d args) →
    P Schema (componentOf p d args (expansionOf p (within p n) d args))

namespace WorkRules

variable {P : ∀ α : Type, Compile α → Prop} (rules : WorkRules p Q P)

include rules

theorem shapeOf {n : Nat} (hi : ∀ t module, Q t → P FieldType (TypeCompiler.within p n t module))
    {t : TypeExpr} (module : List String) (ht : Q t) (hl : Layers.ofType t = { type := t }) :
    P Schema (TypeCompiler.shapeOf p (TypeCompiler.within p n) t module) := by
  rcases shapeOf_cases rules.types module ht with ⟨d, args, use⟩ | hasks
  · rw [use.shapeOf_eq]
    have hexpand : P Schema (TypeCompiler.expansionOf p (TypeCompiler.within p n) d args) :=
      rules.expansionOf hi (use.written rules.types)
    exact rules.component use hl hexpand
  · have hasks : Asks _ (fun t _ => Q t) Eq (TypeCompiler.within p n) (TypeCompiler.within p n) True
      Eq _ _ := hasks True schemaCongruence_eq
    exact rules.of_asks hi hasks

theorem within (n : Nat) {t : TypeExpr} (module : List String) (ht : Q t) :
    P FieldType (TypeCompiler.within p n t module) := by
  induction n generalizing t module with
  | zero => exact rules.throw _
  | succ n ih =>
    have hshape := rules.shapeOf (fun t module ht => ih module ht) module (rules.types.layers ht)
      (Layers.ofType_type t)
    exact rules.bind hshape fun _ => rules.pure _

theorem compileType {t : TypeExpr} (module : List String) (ht : Q t) :
    P Schema (p.compileType t module) :=
  rules.bind (rules.within _ module ht) fun _ => rules.pure _

theorem fieldOf (field : Field) (container : SerialAttrs) {t : TypeExpr} (module : List String)
    (ht : Q t) : P FieldSchema (TypeCompiler.fieldOf p.compileField field t container module) :=
  rules.bind (rules.within _ module ht) fun _ => rules.pure _

end WorkRules

end ServiceContract
