import ServiceContract.Proofs.Schema.Replay

/-! # Components are descriptions

A component that has a schema is the description of the use of a declaration, which says the same
when it is expanded again. This holds whether the run that made it ended well or failed. A run that
ended well has given a schema to all that it entered.
-/

namespace ServiceContract

open Source TypeCompiler SchemaTable

variable {p : Program} {Q : TypeExpr → Prop}

namespace SchemaTable

variable {t t' t'' T : SchemaTable} {key : String} {c : Definition}

/-- A component is the description of the use of a declaration, expanded in the table. -/
def Expanded (p : Program) (Q : TypeExpr → Prop) (t : SchemaTable) (key : String)
    (c : Definition) : Prop :=
  ∃ d args n s, (∃ path module, p.findType path module = some d) ∧ (∀ a ∈ args, Q a) ∧
    d.key args = key ∧ c.schema = some (described p d s) ∧
    (expansionOf p (within p n) d args).runOn t = (.ok s, t)

/-- The components with schemas that a table has more than another one are expanded. -/
def Expands (p : Program) (Q : TypeExpr → Prop) (t t' : SchemaTable) : Prop :=
  ∀ key c, t'.definition? key = some c → t.definition? key = none → c.schema ≠ none →
    Expanded p Q t' key c

theorem Expanded.mono (h : Expanded p Q t key c) (hT : t.CoveredBy T) : Expanded p Q T key c := by
  obtain ⟨d, args, n, s, hd, ha, hk, hs, hr⟩ := h
  have rules := workRules_replays (typeRules_true p)
  have replays : Replays (expansionOf p (within p n) d args) :=
    rules.expansionOf (fun _ module ht => rules.within n module ht) fun _ _ => trivial
  exact ⟨d, args, n, s, hd, ha, hk, hs, replays.ok hr hT⟩

theorem Expands.refl (t : SchemaTable) : Expands p Q t t := by
  intro key c hc hk
  cases hk.symm.trans hc

theorem Expands.trans (h : Expands p Q t t') (hg : Grows t' t'') (h' : Expands p Q t' t'') :
    Expands p Q t t'' := by
  intro key c hc hk hs
  cases hk' : t'.definition? key with
  | none => exact h' key c hc hk' hs
  | some c' =>
    obtain rfl : c' = c := Option.some.inj ((hg.kept hk').symm.trans hc)
    exact (h key c' hk' hk hs).mono hg.coveredBy

theorem Finishes.refl (t : SchemaTable) : t.Finishes t := by
  intro key c hc hk
  cases hk.symm.trans hc

theorem Finishes.trans (h : t.Finishes t') (hg : Grows t' t'') (h' : t'.Finishes t'') :
    t.Finishes t'' := by
  intro key c hc hk
  cases hk' : t'.definition? key with
  | none => exact h' key c hc hk'
  | some c' =>
    obtain rfl : c' = c := Option.some.inj ((hg.kept hk').symm.trans hc)
    exact h key c' hk' hk

/-- What is entered under a key has a schema only if it was expanded. -/
theorem Expands.pop {name : String}
    (h : Expands p Q ((t.enter key name none).push key) t')
    (hd : t'.definition? key = some ⟨name, none⟩) : Expands p Q t t'.pop := by
  intro k c hc hk hs
  have hne : k ≠ key := by
    rintro rfl
    cases hd.symm.trans hc
    exact hs rfl
  have hk' : (t.enter key name none).definition? k = none := by
    rw [definition?_enter, if_neg hne, hk]
  exact (h k c hc hk' hs).mono fun _ d hd => ⟨d, hd, rfl⟩

end SchemaTable

section Component

variable {written : TypeExpr} {module : List String} {d : TypeDecl} {args : List TypeExpr} {n : Nat}

theorem expands_componentOf (use : Uses p Q written module d args)
    (replays : Replays (expansionOf p (within p n) d args))
    (expands : ∀ t r t', (expansionOf p (within p n) d args).runOn t = (r, t') → Expands p Q t t')
    (t : SchemaTable) (r : Except Error Schema) (t' : SchemaTable)
    (hr : (componentOf p d args (expansionOf p (within p n) d args)).runOn t = (r, t')) :
    Expands p Q t t' := by
  rcases r with e | b
  · obtain ⟨-, name, t₁, -, hr₁, hd₁, rfl⟩ := componentOf_eq_error replays.grows hr
    exact (expands _ _ _ hr₁).pop hd₁
  · rcases componentOf_eq_ok replays.grows hr with
      ⟨d', -, -, rfl⟩ | ⟨-, name, s, t₁, -, hr₁, hd₁, -, rfl⟩
    · exact .refl _
    · have hT : t₁.CoveredBy (t₁.pop.resolve (d.key args) (described p d s)) :=
        coveredBy_resolve hd₁
      intro key c hc hk hs
      rw [definition?_resolve hd₁] at hc
      by_cases hkey : key = d.key args
      · rw [if_pos hkey] at hc
        cases hc
        exact ⟨d, args, n, s, ⟨_, module, use.found.choose_spec⟩, use.known, hkey.symm, rfl,
          replays.ok hr₁ hT⟩
      · rw [if_neg hkey] at hc
        exact ((expands _ _ _ hr₁).pop hd₁ key c hc hk hs).mono (coveredBy_resolve hd₁)

theorem finishes_componentOf {expand : Compile Schema} (replays : Replays expand)
    (finishes : ∀ t s t', expand.runOn t = (.ok s, t') → t.Finishes t')
    (t : SchemaTable) (b : Schema) (t' : SchemaTable)
    (hr : (componentOf p d args expand).runOn t = (.ok b, t')) : t.Finishes t' := by
  intro key c hc hk
  rcases componentOf_eq_ok replays.grows hr with
    ⟨d', -, -, rfl⟩ | ⟨-, name, s, t₁, -, hr₁, hd₁, -, rfl⟩
  · cases hk.symm.trans hc
  · rw [definition?_resolve hd₁] at hc
    by_cases hkey : key = d.key args
    · rw [if_pos hkey] at hc
      cases hc
      simp
    · rw [if_neg hkey] at hc
      refine finishes _ s t₁ hr₁ key c hc ?_
      rw [definition?_push, definition?_enter, if_neg hkey, hk]

end Component

/-- Whatever work enters is expanded as soon as it has a schema, and it has one if the work ends
well. -/
theorem workRules_expands (types : TypeRules p Q) : WorkRules p Q fun _ x =>
    Replays x ∧ (∀ t r t', x.runOn t = (r, t') → Expands p Q t t') ∧
      ∀ t a t', x.runOn t = (.ok a, t') → t.Finishes t' where
  types := types
  pure a := by
    refine ⟨.pure a, fun t r t' hr => ?_, fun t b t' hr => ?_⟩
    · cases hr
      exact .refl t
    · cases hr
      exact .refl t
  throw e := by
    refine ⟨.throw e, fun t r t' hr => ?_, fun t b t' hr => by cases hr⟩
    cases hr
    exact .refl t
  fail e written _ := by
    refine ⟨.fail e written, fun t r t' hr => ?_, fun t b t' hr => by cases hr⟩
    cases hr
    exact .refl t
  bind {α β x f} hx hf := by
    refine ⟨hx.1.bind fun a => (hf a).1, fun t r t' hr => ?_, fun t b t' hr => ?_⟩
    · rw [Work.runOn_bind] at hr
      rcases hr₁ : x.runOn t with ⟨e | a, t₁⟩ <;> rw [hr₁] at hr
      · cases hr
        exact hx.2.1 t _ t' hr₁
      · exact (hx.2.1 t _ t₁ hr₁).trans ((hf a).1.grows_of_runOn hr) ((hf a).2.1 t₁ r t' hr)
    · obtain ⟨a, t₁, hr₁, hr₂⟩ := Work.runOn_bind_eq_ok.mp hr
      exact (hx.2.2 t a t₁ hr₁).trans ((hf a).1.grows_of_runOn hr₂) ((hf a).2.2 t₁ b t' hr₂)
  component use _ he := by
    obtain ⟨replays, expands, finishes⟩ := he
    exact ⟨.componentOf _ _ replays, expands_componentOf use replays expands,
      finishes_componentOf replays finishes⟩

namespace SchemaTable

variable {t t' : SchemaTable}

/-- Every component with a schema is expanded, but for those that no declaration stands for. -/
def AllExpanded (p : Program) (t : SchemaTable) : Prop :=
  ∀ key c, t.definition? key = some c → c.schema ≠ none → (∀ name, key ≠ builtinKey name) →
    Expanded p (fun _ => True) t key c

theorem AllExpanded.of_expands (h : t.AllExpanded p) (hg : Grows t t')
    (h' : Expands p (fun _ => True) t t') : t'.AllExpanded p := by
  intro key c hc hs hkey
  cases hk : t.definition? key with
  | none => exact h' key c hc hk hs
  | some c' =>
    obtain rfl : c' = c := Option.some.inj ((hg.kept hk).symm.trans hc)
    exact (h key c' hk hs hkey).mono hg.coveredBy

theorem AllExpanded.registerBuiltin (h : t.AllExpanded p) (name : String) (s : Schema) :
    (t.registerBuiltin name s).2.AllExpanded p := by
  have hg : Grows t (t.registerBuiltin name s).2 := grows_registerBuiltin name s
  intro key c hc hs hkey
  have hk : t.definition? key = some c := by
    unfold SchemaTable.registerBuiltin at hc
    dsimp only at hc
    split at hc
    · exact hc
    · rwa [definition?_enter, if_neg (hkey name)] at hc
  exact (h key c hk hs hkey).mono hg.coveredBy

theorem AllExpanded.next (h : t.AllExpanded p) (call : SchemaCall) :
    (call.next p t).AllExpanded p := by
  have rules := workRules_expands (typeRules_true p)
  cases call with
  | type written module =>
    exact h.of_expands (grows_next (.type written module))
      ((rules.compileType module trivial).2.1 t _ _ rfl)
  | field written module =>
    exact h.of_expands (grows_next (.field written module))
      ((rules.within _ module trivial).2.1 t _ _ rfl)
  | member f written container module =>
    exact h.of_expands (grows_next (.member f written container module))
      ((rules.fieldOf f container module trivial).2.1 t _ _ rfl)
  | builtin name s => exact h.registerBuiltin name s

/-- The keys of components that no declaration stands for are written apart. -/
theorem ne_builtinKey {key : String} (h : key.toList.head? ≠ some '<') (name : String) :
    key ≠ builtinKey name := by
  rintro rfl
  exact h (by simp [builtinKey])

/-- Whatever is compiled, the components are the descriptions of uses of declarations. -/
theorem allExpanded_after (p : Program) (calls : List SchemaCall) :
    (after p {} calls).AllExpanded p := by
  have kept : ∀ t : SchemaTable, t.AllExpanded p → (after p t calls).AllExpanded p := by
    induction calls with
    | nil => exact fun _ h => h
    | cons call rest ih => exact fun t h => ih _ (h.next call)
  exact kept {} fun key c hc => by cases hc

end SchemaTable

end ServiceContract
