import ServiceContract.Proofs.Schema.Compiles

/-! # How the table of components grows

Components are never removed, keep their names, and are resolved by the work that entered them. So
work that ends well leaves no component without a schema that was not there before, and if all
schemas of the table were good they still are.
-/

namespace ServiceContract

open TypeCompiler

namespace SchemaTable

/-- A component has the name. -/
def Named (t : SchemaTable) (name : String) : Prop :=
  ∃ key d, t.definition? key = some d ∧ d.name = name

/-- The schemas of all components are good. -/
def Closed (Good : SchemaTable → Schema → Prop) (t : SchemaTable) : Prop :=
  ∀ e ∈ t.definitions, ∀ s, e.2.schema = some s → Good t s

/-- A table grows: its components stay and no more of them are unresolved. -/
structure Advances (Good : SchemaTable → Schema → Prop) (t t' : SchemaTable) : Prop where
  named : ∀ {key d}, t.definition? key = some d →
    ∃ d', t'.definition? key = some d' ∧ d'.name = d.name
  unresolved : ∀ {key d}, t'.definition? key = some d → d.schema = none →
    ∃ d', t.definition? key = some d' ∧ d'.schema = none
  closed : t.Closed Good → t'.Closed Good

variable {Good : SchemaTable → Schema → Prop} {t t' t'' : SchemaTable} {name : String}

theorem Advances.refl (t : SchemaTable) : Advances Good t t :=
  ⟨fun h => ⟨_, h, rfl⟩, fun h hs => ⟨_, h, hs⟩, id⟩

theorem Advances.trans (h : Advances Good t t') (h' : Advances Good t' t'') :
    Advances Good t t'' where
  named hd := by
    obtain ⟨d', hd', hn⟩ := h.named hd
    obtain ⟨d'', hd'', hn'⟩ := h'.named hd'
    exact ⟨d'', hd'', hn'.trans hn⟩
  unresolved hd hs := by
    obtain ⟨d', hd', hs'⟩ := h'.unresolved hd hs
    exact h.unresolved hd' hs'
  closed hc := h'.closed (h.closed hc)

theorem Advances.names (h : Advances Good t t') (hn : t.Named name) : t'.Named name := by
  obtain ⟨key, d, hd, rfl⟩ := hn
  obtain ⟨d', hd', hn⟩ := h.named hd
  exact ⟨key, d', hd', hn⟩

/-- Entering a component under a new key keeps all others. -/
theorem definition?_enter_of_some {key k : String} {schema : Option Schema} {d : Definition}
    (hk : t.definition? key = none) (hd : t.definition? k = some d) :
    (t.enter key name schema).definition? k = some d := by
  rw [definition?_enter, if_neg]
  · exact hd
  · rintro rfl
    simp [hk] at hd

end SchemaTable

open SchemaTable

/-- The table grows, and only fatal errors occur. -/
def advancing (Good : SchemaTable → Schema → Prop) : Effects SchemaTable where
  Step := Advances Good
  Fails e _ _ := e.isFatal = true
  refl := Advances.refl
  trans := Advances.trans
  fails_trans _ h := h

/-- The rules for a property of schemas that depends on no more than the names of components. -/
structure NameRules (p : Program) (Good : SchemaTable → Schema → Prop)
    (Parts : SchemaTable → ObjectParts → Prop) : Prop where
  schemas : ∀ t, SchemaRules p (Good t) (Parts t)
  ref : ∀ {t name}, Named t name → Good t (.ref name)
  mono : ∀ {t t' s}, (∀ name, Named t name → Named t' name) → Good t s → Good t' s
  mono_parts : ∀ {t t' o}, (∀ name, Named t name → Named t' name) → Parts t o → Parts t' o

namespace NameRules

variable {p : Program} {Good : SchemaTable → Schema → Prop}
  {Parts : SchemaTable → ObjectParts → Prop} (rules : NameRules p Good Parts)
  {t t' : SchemaTable} {key name : String}

include rules

theorem advances_push : Advances Good t (t.push key) :=
  ⟨fun h => ⟨_, h, rfl⟩, fun h hs => ⟨_, h, hs⟩, fun hc e he s hs =>
    rules.mono (fun _ (h : Named t _) => h) (hc e he s hs)⟩

theorem advances_pop : Advances Good t t.pop :=
  ⟨fun h => ⟨_, h, rfl⟩, fun h hs => ⟨_, h, hs⟩, fun hc e he s hs =>
    rules.mono (fun _ (h : Named t _) => h) (hc e he s hs)⟩

/-- Resolving a component only adds a good schema. -/
theorem advances_resolve {d : Definition} {s : Schema} (hd : t.definition? key = some d)
    (hs : Good t s) : Advances Good t (t.resolve key s) := by
  have named : ∀ {k d'}, t.definition? k = some d' →
      ∃ d'', (t.resolve key s).definition? k = some d'' ∧ d''.name = d'.name := by
    intro k d' hd'
    rw [definition?_resolve hd]
    split
    · next hk =>
      subst hk
      obtain rfl : d = d' := Option.some.inj (hd.symm.trans hd')
      exact ⟨_, rfl, rfl⟩
    · exact ⟨d', hd', rfl⟩
  have names : ∀ n, Named t n → Named (t.resolve key s) n := by
    rintro n ⟨k, d', hd', rfl⟩
    obtain ⟨d'', hd'', hn⟩ := named hd'
    exact ⟨k, d'', hd'', hn⟩
  refine ⟨named, fun {k d'} hd' hs' => ?_, fun hc e he s' hs' => rules.mono names ?_⟩
  · rw [definition?_resolve hd] at hd'
    split at hd'
    · cases hd'
      cases hs'
    · exact ⟨d', hd', hs'⟩
  · rw [resolve, hd] at he
    rcases mem_setKey he with rfl | he
    · exact Option.some.inj hs' ▸ hs
    · exact hc e he s' hs'

/-- Entering a component under a new key adds a name, and its schema if it has one. -/
theorem closed_enter {schema : Option Schema} (hk : t.definition? key = none)
    (hs : ∀ s, schema = some s → Good t s) (h : t.Closed Good) :
    (t.enter key name schema).Closed Good := by
  have names : ∀ n, Named t n → Named (t.enter key name schema) n := by
    rintro n ⟨k, d, hd, rfl⟩
    exact ⟨k, d, definition?_enter_of_some hk hd, rfl⟩
  intro e he s hs'
  refine rules.mono names ?_
  rcases mem_setKey he with rfl | he
  · exact hs s hs'
  · exact h e he s hs'

/-- A component that is entered under a new key and resolved at last makes the table grow. -/
theorem advances_of_enter {d : Definition} (hk : t.definition? key = none)
    (h : Advances Good (t.enter key name none) t') (hd : t'.definition? key = some d)
    (hs : d.schema ≠ none) : Advances Good t t' := by
  refine ⟨fun hd' => h.named (definition?_enter_of_some hk hd'), fun {k d'} hd' hs' => ?_,
    fun hc => h.closed (rules.closed_enter hk (by simp) hc)⟩
  have hne : k ≠ key := by
    rintro rfl
    exact hs (Option.some.inj (hd.symm.trans hd') ▸ hs')
  obtain ⟨d'', hd'', hs''⟩ := h.unresolved hd' hs'
  rw [definition?_enter, if_neg hne] at hd''
  exact ⟨d'', hd'', hs''⟩

/-- The schema of a component that no declaration stands for is good if its reference is used. -/
theorem registerBuiltin (name : String) {s : Schema} (hs : Good t s) :
    Advances Good t (t.registerBuiltin name s).2 ∧
      Good (t.registerBuiltin name s).2 (t.registerBuiltin name s).1 := by
  unfold SchemaTable.registerBuiltin
  dsimp only
  split
  · next d hd => exact ⟨.refl t, rules.ref ⟨_, d, hd, rfl⟩⟩
  · next hk =>
    refine ⟨⟨fun hd => ⟨_, definition?_enter_of_some hk hd, rfl⟩, fun {k d} hd hn => ?_,
      rules.closed_enter hk ?_⟩, rules.ref ⟨_, _, definition?_enter.trans (if_pos rfl), rfl⟩⟩
    · rw [definition?_enter] at hd
      split at hd
      · cases hd
        cases hn
      · exact ⟨d, hd, hn⟩
    · rintro _ ⟨⟩
      exact hs

/-- Compiling types makes the table grow, and compiled schemas are good. -/
theorem compileRules : CompileRules p (advancing Good) Good Parts where
  schemas := rules.schemas
  mono h := rules.mono fun _ => h.names
  mono_parts h := rules.mono_parts fun _ => h.names
  known hd := rules.ref ⟨_, _, hd, rfl⟩
  component {t t' s} d args hk h hs := by
    have hp := (rules.advances_push.trans h).trans rules.advances_pop
    obtain ⟨found, hd, hn⟩ := hp.named (definition?_enter.trans (if_pos rfl))
    have hg : Good t'.pop (described p d s) :=
      rules.mono (fun _ (h : Named t' _) => h) ((rules.schemas t').described d hs)
    have hd' := (definition?_resolve (s := described p d s) hd).trans (if_pos rfl)
    refine ⟨rules.advances_of_enter hk (hp.trans (rules.advances_resolve hd hg)) hd' ?_, ?_⟩
    · simp
    · exact rules.ref ⟨_, _, hd', hn⟩
  component_fails _ _ _ h := h
  endless _ _ := rfl
  unknown _ _ _ _ := rfl
  mapKey _ _ _ := rfl

end NameRules

end ServiceContract
