import ServiceContract.Proofs.Schema.Growth

/-! # The finished components

The components that a document shows are those of the table that have a schema, sorted by name. No
two components share a name, so none is lost, and the order in which the table lists them does not
matter.
-/

namespace ServiceContract

section Sorted

variable {α : Type} {l l' acc : List (String × α)}

/-- Entries with keys of their own stay when they are inserted one by one. -/
theorem foldl_insertSorted_perm (hi : Increasing acc) (h : ((l ++ acc).map Prod.fst).Nodup) :
    let sorted := l.foldl (fun acc e => insertSorted e.1 e.2 acc) acc
    Increasing sorted ∧ sorted.Perm (l ++ acc) := by
  induction l generalizing acc with
  | nil => exact ⟨hi, .refl _⟩
  | cons e rest ih =>
    obtain ⟨k, v⟩ := e
    have hk : k ∉ acc.map Prod.fst := by
      intro hm
      obtain ⟨e, he, hek⟩ := List.mem_map.mp hm
      exact (List.nodup_cons.mp h).1 (List.mem_map.mpr ⟨e, List.mem_append_right rest he, hek⟩)
    have hp : (insertSorted k v acc).Perm ((k, v) :: acc) := by
      have hp : (insertSorted k v acc).Perm _ := hi.insertSorted_perm
      rwa [filter_ne_of_lookup_eq_none (lookup_eq_none_iff.mpr hk)] at hp
    have hmid : (rest ++ insertSorted k v acc).Perm ((k, v) :: rest ++ acc) :=
      (hp.append_left rest).trans List.perm_middle
    obtain ⟨hs, hsp⟩ := ih hi.insertSorted ((hmid.map Prod.fst).nodup_iff.mpr h)
    exact ⟨hs, hsp.trans hmid⟩

/-- An increasing list is determined by its entries. -/
theorem Increasing.eq_of_perm (h : Increasing l) (h' : Increasing l') (hp : l.Perm l') : l = l' :=
  hp.eq_of_pairwise (fun _ _ _ _ hab hba => absurd hba (String.lt_asymm hab)) h h'

end Sorted

namespace SchemaTable

variable {p : Program} {t : SchemaTable} {name : String} {s : Schema}

/-- The components that have a schema, by name. -/
def finished (definitions : List (String × Definition)) : List (String × Schema) :=
  definitions.filterMap fun e => e.2.schema.map fun s => (e.2.name, s)

theorem foldl_eq_foldl_finished (ds : List (String × Definition)) (acc : List (String × Schema)) :
    ds.foldl (fun acc (_, d) => match d.schema with
      | some s => insertSorted d.name s acc
      | none => acc) acc = (finished ds).foldl (fun acc e => insertSorted e.1 e.2 acc) acc := by
  induction ds generalizing acc with
  | nil => rfl
  | cons e rest ih =>
    obtain ⟨key, n, _ | s⟩ := e
    · exact ih acc
    · exact ih (insertSorted n s acc)

theorem components_eq (t : SchemaTable) : t.components =
    (finished t.definitions).foldl (fun acc e => insertSorted e.1 e.2 acc) [] :=
  foldl_eq_foldl_finished t.definitions []

theorem mem_definitions_iff (h : t.Inverse) {e : String × Definition} :
    e ∈ t.definitions ↔ t.definition? e.1 = some e.2 :=
  ⟨fun he => lookup_of_mem h.keys he, mem_of_lookup⟩

theorem mem_finished_iff (h : t.Inverse) :
    (name, s) ∈ finished t.definitions ↔ ∃ key, t.definition? key = some ⟨name, some s⟩ := by
  rw [finished, List.mem_filterMap]
  constructor
  · rintro ⟨⟨key, n, _ | s'⟩, he, hs⟩
    · cases hs
    · obtain ⟨rfl, rfl⟩ := Prod.mk.inj (Option.some.inj hs)
      exact ⟨key, (mem_definitions_iff h).mp he⟩
  · rintro ⟨key, hd⟩
    exact ⟨(key, ⟨name, some s⟩), (mem_definitions_iff h).mpr hd, rfl⟩

/-- Components have names of their own. -/
theorem nodup_finished (h : t.Inverse) : ((finished t.definitions).map Prod.fst).Nodup := by
  have nodup : (t.definitions.map fun e => e.2.name).Nodup := by
    refine List.Nodup.map_on (fun e he e' he' hn => ?_) h.keys.of_map
    rw [mem_definitions_iff h] at he he'
    have hk := h.key_unique he he' hn
    exact Prod.ext hk (Option.some.inj (he.symm.trans (hk ▸ he')))
  refine nodup.sublist ?_
  induction t.definitions with
  | nil => exact .slnil
  | cons e rest ih =>
    obtain ⟨key, n, _ | s⟩ := e
    · exact .cons _ ih
    · exact .cons_cons _ ih

/-- The components are the finished ones in the order of their names. -/
theorem components_perm (h : t.Inverse) :
    Increasing t.components ∧ t.components.Perm (finished t.definitions) := by
  rw [components_eq]
  have hn := nodup_finished h
  rw [← List.append_nil (finished t.definitions)] at hn
  have := foldl_insertSorted_perm List.Pairwise.nil hn
  rwa [List.append_nil] at this

theorem mem_components_iff (h : t.Inverse) :
    (name, s) ∈ t.components ↔ ∃ key, t.definition? key = some ⟨name, some s⟩ :=
  (components_perm h).2.mem_iff.trans (mem_finished_iff h)

/-- The order in which a table lists its components does not show. -/
theorem components_congr (h : t.Inverse) {l : List (String × Definition)}
    (hp : l.Perm t.definitions) : ({ t with definitions := l } : SchemaTable).components =
      t.components := by
  have hf : (finished l).Perm (finished t.definitions) := hp.filterMap _
  have hn : ((finished l ++ []).map Prod.fst).Nodup := by
    rw [List.append_nil]
    exact (hf.map Prod.fst).nodup_iff.mpr (nodup_finished h)
  rw [components_eq ({ t with definitions := l })]
  obtain ⟨hs, hsp⟩ := foldl_insertSorted_perm List.Pairwise.nil hn
  rw [List.append_nil] at hsp
  exact hs.eq_of_perm (components_perm h).1 (hsp.trans (hf.trans (components_perm h).2.symm))

/-- After any calls, failed ones included, names and components are inverse to each other, and
whatever is called later, a component stays as it is. The search for a free name comes to an end in
every table. So the finished components are exactly those that have a schema, however the table
lists them. -/
theorem inverse_after (p : Program) (calls later : List SchemaCall) :
    let t := after p {} calls
    (∀ name key, t.names.lookup name = some key ↔
        ∃ d, t.definition? key = some d ∧ d.name = name) ∧
      (∀ key key' d d', t.definition? key = some d → t.definition? key' = some d' →
        d.name = d'.name → key = key') ∧
      (∀ key d, t.definition? key = some d → (after p t later).definition? key = some d) ∧
      (∀ (u : SchemaTable) module base, ∃ i,
        u.freeName module base = candidate i module.reverse base ∧
          u.isTaken (u.freeName module base) = false ∧
          ∀ j < i, u.isTaken (candidate j module.reverse base) = true) ∧
      (∀ (u : SchemaTable) name s, u.definition? (builtinKey name) = none →
        u.registerBuiltin name s = (.ref (u.freeName [] name),
          u.enter (builtinKey name) (u.freeName [] name) (some s))) ∧
      (∀ name s, (name, s) ∈ t.components ↔ ∃ key, t.definition? key = some ⟨name, some s⟩) ∧
      ∀ l, l.Perm t.definitions →
        ({ t with definitions := l } : SchemaTable).components = t.components := by
  intro t
  have h : t.Inverse := inverse_of_after calls
  refine ⟨fun _ _ => h.lookup_iff, fun _ _ _ _ => h.key_unique, fun _ _ => (grows_after later).kept,
    freeName_eq, fun _ _ _ => registerBuiltin_of_none, fun _ _ => mem_components_iff h, ?_⟩
  exact fun _ => components_congr h

end SchemaTable

end ServiceContract
