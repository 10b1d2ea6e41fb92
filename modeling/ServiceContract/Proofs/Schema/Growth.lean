import ServiceContract.Proofs.Schema.Naming
import ServiceContract.Proofs.Schema.References
import ServiceContract.Proofs.Schema.Table

/-! # What every call of the compiler keeps

A call adds components to the table, and touches none that was there before, whether it ends well
or fails. Throughout, the table of names is the inverse of the table of components: a new component
gets a free name, and names are never changed.
-/

namespace ServiceContract

open Source TypeCompiler Schema

namespace SchemaTable

variable {t t' t'' : SchemaTable} {key name : String} {schema : Option Schema} {s : Schema}
  {d : Definition}

@[simp] theorem definition?_push : (t.push key).definition? = t.definition? := rfl

/-- The names and the components of a table are inverse to each other. -/
structure Inverse (t : SchemaTable) : Prop where
  keys : (t.definitions.map Prod.fst).Nodup
  names : (t.names.map Prod.fst).Nodup
  lookup_iff : ∀ {name key},
    t.names.lookup name = some key ↔ ∃ d, t.definition? key = some d ∧ d.name = name

theorem inverse_empty : ({} : SchemaTable).Inverse :=
  ⟨.nil, .nil, by simp [definition?]⟩

theorem Inverse.key_unique (h : t.Inverse) {key' : String} {d' : Definition}
    (hd : t.definition? key = some d) (hd' : t.definition? key' = some d')
    (hn : d.name = d'.name) : key = key' := by
  have hk := h.lookup_iff.mpr ⟨d, hd, rfl⟩
  have hk' := h.lookup_iff.mpr ⟨d', hd', rfl⟩
  rw [hn] at hk
  exact Option.some.inj (hk.symm.trans hk')

theorem Inverse.isTaken_iff (h : t.Inverse) : t.isTaken name ↔ t.Named name := by
  rw [isTaken, Option.isSome_iff_exists]
  exact exists_congr fun _ => h.lookup_iff

/-- A component with a new key and a free name keeps the tables inverse. -/
theorem Inverse.enter (h : t.Inverse) (hk : t.definition? key = none)
    (hn : t.isTaken name = false) : (t.enter key name schema).Inverse where
  keys := nodup_map_fst_setKey h.keys
  names := nodup_map_fst_setKey h.names
  lookup_iff {n k} := by
    have taken : ∀ d, t.definition? k = some d → d.name ≠ name := by
      rintro d hd rfl
      rw [h.isTaken_iff.mpr ⟨k, d, hd, rfl⟩] at hn
      cases hn
    rw [definition?_enter]
    by_cases hne : n = name
    · subst hne
      have hl : (t.enter key n schema).names.lookup n = some key := lookup_setKey_self
      rw [hl, Option.some.injEq]
      constructor
      · rintro rfl
        exact ⟨_, if_pos rfl, rfl⟩
      · rintro ⟨d, hd, hdn⟩
        split at hd
        · next he => exact he.symm
        · exact absurd hdn (taken d hd)
    · have hl : (t.enter key name schema).names.lookup n = t.names.lookup n :=
        lookup_setKey_of_ne hne
      rw [hl, h.lookup_iff]
      by_cases he : k = key
      · subst he
        rw [if_pos rfl, hk]
        constructor
        · rintro ⟨d, hd, -⟩
          cases hd
        · rintro ⟨d, hd, hdn⟩
          cases hd
          exact absurd hdn.symm hne
      · rw [if_neg he]

theorem Inverse.resolve (h : t.Inverse) (hd : t.definition? key = some d) :
    (t.resolve key s).Inverse where
  keys := by
    rw [SchemaTable.resolve, hd]
    exact nodup_map_fst_setKey h.keys
  names := by
    rw [SchemaTable.resolve, hd]
    exact h.names
  lookup_iff {n k} := by
    have hl : (t.resolve key s).names = t.names := by rw [SchemaTable.resolve, hd]
    rw [hl, h.lookup_iff, definition?_resolve hd]
    by_cases he : k = key
    · subst he
      rw [if_pos rfl, hd]
      simp
    · rw [if_neg he]

theorem stack_resolve : (t.resolve key s).stack = t.stack := by
  unfold SchemaTable.resolve
  split <;> rfl

/-- Every component of a table is one of the other, as it was, and the tables stay inverse. -/
structure Grows (t t' : SchemaTable) : Prop where
  kept : ∀ {key d}, t.definition? key = some d → t'.definition? key = some d
  stack : t'.stack = t.stack
  inverse : t.Inverse → t'.Inverse
  /-- A table changes only by new components. -/
  eq_of_known : (∀ key, (t'.definition? key).isSome → (t.definition? key).isSome) → t' = t

theorem Grows.refl (t : SchemaTable) : Grows t t := ⟨id, rfl, id, fun _ => rfl⟩

theorem Grows.trans (h : Grows t t') (h' : Grows t' t'') : Grows t t'' where
  kept hd := h'.kept (h.kept hd)
  stack := h'.stack.trans h.stack
  inverse hi := h'.inverse (h.inverse hi)
  eq_of_known known := by
    have mid : t'' = t' := h'.eq_of_known fun key hk => by
      obtain ⟨d, hd⟩ := Option.isSome_iff_exists.mp (known key hk)
      exact Option.isSome_iff_exists.mpr ⟨d, h.kept hd⟩
    subst mid
    exact h.eq_of_known known

theorem Grows.named (h : Grows t t') (hn : t.Named name) : t'.Named name := by
  obtain ⟨key, d, hd, hdn⟩ := hn
  exact ⟨key, d, h.kept hd, hdn⟩

theorem definition?_eq_none_of_grows (h : Grows t t') (hk : t'.definition? key = none) :
    t.definition? key = none := by
  by_contra hne
  obtain ⟨d, hd⟩ := Option.ne_none_iff_exists'.mp hne
  rw [h.kept hd] at hk
  cases hk

theorem grows_enter (hk : t.definition? key = none) (hn : t.isTaken name = false) :
    Grows t (t.enter key name schema) where
  kept := definition?_enter_of_some hk
  stack := rfl
  inverse h := h.enter hk hn
  eq_of_known known := by
    have hs := known key (by rw [definition?_enter, if_pos rfl]; rfl)
    rw [hk] at hs
    cases hs

/-- The component that is being expanded is in the table. -/
theorem Grows.entered (h : Grows ((t.enter key name none).push key) t') :
    t'.definition? key = some ⟨name, none⟩ :=
  h.kept (definition?_enter.trans (if_pos rfl))

/-- An expansion that has come to its end, by a failure or not, leaves a grown table. -/
theorem Grows.pop (hk : t.definition? key = none) (hn : t.isTaken name = false)
    (h : Grows ((t.enter key name none).push key) t') : Grows t t'.pop where
  kept hd := h.kept (definition?_enter_of_some hk hd)
  stack := by rw [SchemaTable.pop, h.stack]; rfl
  inverse hi :=
    have he : (t.enter key name none).Inverse := hi.enter hk hn
    have hi' := h.inverse ⟨he.keys, he.names, he.lookup_iff⟩
    ⟨hi'.keys, hi'.names, hi'.lookup_iff⟩
  eq_of_known known := by
    have hs := known key (Option.isSome_iff_exists.mpr ⟨_, h.entered⟩)
    rw [hk] at hs
    cases hs

theorem Grows.resolve (h : Grows t t') (hk : t.definition? key = none)
    (hd : t'.definition? key = some d) : Grows t (t'.resolve key s) where
  kept {k d'} hd' := by
    have hne : k ≠ key := by
      rintro rfl
      rw [hk] at hd'
      cases hd'
    rw [definition?_resolve hd, if_neg hne]
    exact h.kept hd'
  stack := stack_resolve.trans h.stack
  inverse hi := (h.inverse hi).resolve hd
  eq_of_known known := by
    have hs := known key (by rw [definition?_resolve hd, if_pos rfl]; rfl)
    rw [hk] at hs
    cases hs

theorem grows_registerBuiltin (name : String) (s : Schema) :
    Grows t (t.registerBuiltin name s).2 := by
  cases hk : t.definition? (builtinKey name) with
  | some d =>
    rw [registerBuiltin, hk]
    exact .refl t
  | none =>
    rw [registerBuiltin_of_none hk]
    exact grows_enter hk (t.isTaken_freeName [] name)

/-- What the use of a declared type can do: its component is known, or it is entered and expanded.
An expansion that ends well gives it its schema. -/
theorem componentOf_cases {p : Program} {decl : TypeDecl} {args : List TypeExpr}
    {expand : Compile Schema} {r : Except Error Schema} (hg : ∀ t, Grows t (expand.runOn t).2)
    (hr : (componentOf p decl args expand).runOn t = (r, t')) :
    (∃ d, t.definition? (decl.key args) = some d ∧ r = .ok (.ref d.name) ∧ t' = t) ∨
      t.definition? (decl.key args) = none ∧ ∃ name r₁ t₁, t.isTaken name = false ∧
        expand.runOn ((t.enter (decl.key args) name none).push (decl.key args)) = (r₁, t₁) ∧
        t₁.pop.definition? (decl.key args) = some ⟨name, none⟩ ∧
        (r, t') = match r₁ with
          | .ok s₁ => (.ok (.ref name), t₁.pop.resolve (decl.key args) (described p decl s₁))
          | .error e => (.error e, t₁.pop) := by
  rw [runOn_componentOf] at hr
  cases hk : t.definition? (decl.key args) with
  | some d =>
    rw [hk] at hr
    cases hr
    exact .inl ⟨d, rfl, rfl, rfl⟩
  | none =>
    rw [hk] at hr
    dsimp only at hr
    have hg₁ := hg ((t.enter (decl.key args) (t.freeName decl.module (decl.componentName args))
      none).push (decl.key args))
    rcases hr₁ : expand.runOn _ with ⟨r₁, t₁⟩
    rw [hr₁] at hr hg₁
    refine .inr ⟨rfl, _, r₁, t₁, t.isTaken_freeName _ _, hr₁, hg₁.entered, hr.symm.trans ?_⟩
    cases r₁ <;> rfl

/-- The use of a declared type that ends well: its component is known, or it was entered, expanded
and given its schema. -/
theorem componentOf_eq_ok {p : Program} {decl : TypeDecl} {args : List TypeExpr}
    {expand : Compile Schema} (hg : ∀ t, Grows t (expand.runOn t).2)
    (hr : (componentOf p decl args expand).runOn t = (.ok s, t')) :
    (∃ d, t.definition? (decl.key args) = some d ∧ s = .ref d.name ∧ t' = t) ∨
      t.definition? (decl.key args) = none ∧ ∃ name s₁ t₁, t.isTaken name = false ∧
        expand.runOn ((t.enter (decl.key args) name none).push (decl.key args)) = (.ok s₁, t₁) ∧
        t₁.pop.definition? (decl.key args) = some ⟨name, none⟩ ∧ s = .ref name ∧
        t' = t₁.pop.resolve (decl.key args) (described p decl s₁) := by
  rcases componentOf_cases hg hr with ⟨d, hd, hs, ht⟩ | ⟨hk, name, r₁, t₁, hn, hr₁, hd₁, heq⟩
  · exact .inl ⟨d, hd, Except.ok.inj hs, ht⟩
  · cases r₁ with
    | ok s₁ =>
      cases heq
      exact .inr ⟨hk, name, s₁, t₁, hn, hr₁, hd₁, rfl, rfl⟩
    | error e => cases heq

/-- The use of a declared type that fails has entered its component, which stays. -/
theorem componentOf_eq_error {p : Program} {decl : TypeDecl} {args : List TypeExpr} {e : Error}
    {expand : Compile Schema} (hg : ∀ t, Grows t (expand.runOn t).2)
    (hr : (componentOf p decl args expand).runOn t = (.error e, t')) :
    t.definition? (decl.key args) = none ∧ ∃ name t₁, t.isTaken name = false ∧
      expand.runOn ((t.enter (decl.key args) name none).push (decl.key args)) = (.error e, t₁) ∧
      t₁.pop.definition? (decl.key args) = some ⟨name, none⟩ ∧ t' = t₁.pop := by
  rcases componentOf_cases hg hr with ⟨d, -, hs, -⟩ | ⟨hk, name, r₁, t₁, hn, hr₁, hd₁, heq⟩
  · cases hs
  · cases r₁ with
    | ok s₁ => cases heq
    | error e =>
      cases heq
      exact ⟨hk, name, t₁, hn, hr₁, hd₁, rfl⟩

end SchemaTable

open SchemaTable

/-- The table grows, whether work ends well or fails. -/
def growing : Effects SchemaTable where
  Step := Grows
  Fails _ := Grows
  refl := Grows.refl
  trans := Grows.trans
  fails_trans := Grows.trans

/-- References to components of the table are kept by the compiler of types. -/
theorem nameRules_refersTo (p : Program) : NameRules p (fun t => Every (RefersTo t.Named))
    (fun t => ObjectParts.Every (RefersTo t.Named)) :=
  NodeRules.nameRules (fun t => nodeRules_refersTo p t.Named) refersTo_ref fun hn h => h.mono hn

/-- Compiling types makes the table grow, and refers to its components only. -/
theorem compileRules_growing (p : Program) :
    CompileRules p growing (fun t => Every (RefersTo t.Named))
      (fun t => ObjectParts.Every (RefersTo t.Named)) where
  schemas := (nameRules_refersTo p).schemas
  mono h := (nameRules_refersTo p).mono fun _ => h.named
  mono_parts h := (nameRules_refersTo p).mono_parts fun _ => h.named
  known hd := every_ref ⟨_, _, hd, rfl⟩
  component {t t' s} d args hk h _ := by
    have hp := h.pop hk (t.isTaken_freeName _ _)
    have hd : t'.pop.definition? (d.key args) = _ := h.entered
    exact ⟨hp.resolve hk hd, every_ref ⟨_, _, (definition?_resolve hd).trans (if_pos rfl), rfl⟩⟩
  component_fails {e t t'} d args hk h := h.pop hk (t.isTaken_freeName _ _)
  endless t _ := .refl t
  unknown t _ _ _ := .refl t
  mapKey t _ _ := .refl t

/-- A call of the compiler of types. -/
inductive SchemaCall
  | type (written : TypeExpr) (module : List String)
  | field (written : TypeExpr) (module : List String)
  | member (field : Field) (written : TypeExpr) (container : SerialAttrs) (module : List String)
  | builtin (name : String) (schema : Schema)

/-- The table after a call, also after one that failed. -/
def SchemaCall.next (p : Program) (t : SchemaTable) : SchemaCall → SchemaTable
  | .type written module => ((p.compileType written module).runOn t).2
  | .field written module => ((p.compileField written module).runOn t).2
  | .member f written container module =>
    ((fieldOf p.compileField f written container module).runOn t).2
  | .builtin name schema => (t.registerBuiltin name schema).2

/-- The table after a sequence of calls. -/
def SchemaTable.after (p : Program) (t : SchemaTable) (calls : List SchemaCall) : SchemaTable :=
  calls.foldl (SchemaCall.next p) t

namespace SchemaTable

variable {p : Program} {t : SchemaTable}

theorem grows_of_meets {α : Type} {work : Compile α} {P : SchemaTable → α → Prop}
    (h : Work.Meets growing work t P) : Grows t (work.runOn t).2 := by
  rcases hr : work.runOn t with ⟨e | a, t'⟩
  · exact h.error hr
  · exact (h.ok hr).1

theorem grows_next (call : SchemaCall) : Grows t (call.next p t) := by
  have rules := compileRules_growing p
  cases call with
  | type written module => exact grows_of_meets (rules.compileType written)
  | field written module => exact grows_of_meets (rules.compileField written module t)
  | member f written container module =>
    exact grows_of_meets (rules.fieldOf rules.compileField f written container)
  | builtin name schema => exact grows_registerBuiltin name schema

theorem grows_after (calls : List SchemaCall) : Grows t (after p t calls) := by
  induction calls generalizing t with
  | nil => exact .refl t
  | cons call rest ih => exact (grows_next call).trans ih

/-- A table that calls have made of the empty one is inverse to its names. -/
theorem inverse_of_after (calls : List SchemaCall) : (after p {} calls).Inverse :=
  (grows_after calls).inverse inverse_empty

end SchemaTable

end ServiceContract
