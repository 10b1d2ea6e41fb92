import ServiceContract.Schema.Table
import Mathlib.Data.List.Nodup
import Mathlib.Data.List.Perm.Subperm
import Std.Data.String.ToNat

/-! # Free names for components

A component gets the first free name of a sequence that does not end: the name of its type, the
same with the modules around it in front, one after the other, and then with numbers behind. A
table has fewer names than there are numbers, so the search comes to an end.
-/

namespace ServiceContract

theorem Text.decimal_injective : Function.Injective Text.decimal := by
  intro m n h
  refine Nat.repr_injective ?_
  rw [Nat.repr_eq_ofList_toDigits, Nat.repr_eq_ofList_toDigits]
  exact h

namespace SchemaTable

variable {t : SchemaTable} {name : String}

/-- The names that are tried for a type: its own name, then with ever more modules in front, the
nearest first, then with numbers from two on. -/
def candidate : Nat → List String → String → String
  | 0, _, name => name
  | i + 1, [], name => name ++ Text.decimal (i + 2)
  | i + 1, m :: outer, name => candidate i outer (WordCase.upperCamel m ++ name)

theorem isTaken_iff : t.isTaken name ↔ name ∈ t.names.map Prod.fst := by
  rw [isTaken, ← Decidable.not_iff_not, ← lookup_eq_none_iff, Option.not_isSome_iff_eq_none]

/-- Of one more numbered names than the table has names, one is free. -/
theorem exists_not_isTaken (t : SchemaTable) (name : String) :
    ∃ c ∈ (List.range' 2 (t.names.length + 1)).map fun n => name ++ Text.decimal n,
      t.isTaken c = false := by
  by_contra h
  push Not at h
  have injective : Function.Injective fun n => name ++ Text.decimal n := by
    intro m n hmn
    exact Text.decimal_injective (String.append_right_inj name |>.mp hmn)
  have nodup := (List.nodup_range' (s := 2) (n := t.names.length + 1)).map injective
  have subset : ((List.range' 2 (t.names.length + 1)).map fun n => name ++ Text.decimal n) ⊆
      t.names.map Prod.fst :=
    fun c hc => isTaken_iff.mp (by simpa using h c hc)
  have := (nodup.subperm subset).length_le
  simp only [List.length_map, List.length_range'] at this
  omega

/-- A number makes a free name, and no smaller one does. -/
theorem numbered_eq (t : SchemaTable) (name : String) :
    ∃ i, t.numbered name = name ++ Text.decimal (i + 2) ∧ t.isTaken (t.numbered name) = false ∧
      ∀ j < i, t.isTaken (name ++ Text.decimal (j + 2)) = true := by
  obtain ⟨c, hc, hfree⟩ := t.exists_not_isTaken name
  have found : (((List.range' 2 (t.names.length + 1)).map fun n => name ++ Text.decimal n).find?
      fun c => !t.isTaken c).isSome :=
    List.find?_isSome.mpr ⟨c, hc, by rw [hfree]; rfl⟩
  obtain ⟨d, hd⟩ := Option.isSome_iff_exists.mp found
  have hn : t.numbered name = d := by rw [numbered, hd]; rfl
  obtain ⟨hp, i, hi, hget, hlt⟩ := List.find?_eq_some_iff_getElem.mp hd
  rw [List.getElem_map, List.getElem_range', Nat.one_mul, Nat.add_comm] at hget
  refine ⟨i, hn.trans hget.symm, ?_, fun j hj => ?_⟩
  · rw [hn]
    simpa using hp
  · have := hlt j hj
    rw [List.getElem_map, List.getElem_range', Nat.one_mul, Nat.add_comm] at this
    simpa using this

/-- The modules around a type and numbers are tried in the order of the candidates. -/
theorem withModules_eq (ms : List String) (htaken : t.isTaken name = true) :
    let found := match t.withModules ms name with
      | (c, true) => c
      | (c, false) => t.numbered c
    ∃ i, found = candidate (i + 1) ms name ∧ t.isTaken found = false ∧
      ∀ j ≤ i, t.isTaken (candidate j ms name) = true := by
  induction ms generalizing name with
  | nil =>
    obtain ⟨i, hi, hfree, hlt⟩ := t.numbered_eq name
    refine ⟨i, hi, hfree, fun j hj => ?_⟩
    cases j with
    | zero => exact htaken
    | succ j => exact hlt j hj
  | cons m outer ih =>
    by_cases h : t.isTaken (WordCase.upperCamel m ++ name) = true
    · obtain ⟨i, hi, hfree, hlt⟩ := ih h
      simp only [withModules, h, if_true]
      refine ⟨i + 1, hi, hfree, fun j hj => ?_⟩
      cases j with
      | zero => exact htaken
      | succ j => exact hlt j (Nat.le_of_succ_le_succ hj)
    · rw [withModules, if_neg h]
      refine ⟨0, rfl, eq_false_of_ne_true h, fun j hj => ?_⟩
      obtain rfl := Nat.le_zero.mp hj
      exact htaken

/-- The search for a free name ends with the first candidate that is free. -/
theorem freeName_eq (t : SchemaTable) (module : List String) (base : String) :
    ∃ i, t.freeName module base = candidate i module.reverse base ∧
      t.isTaken (t.freeName module base) = false ∧
      ∀ j < i, t.isTaken (candidate j module.reverse base) = true := by
  by_cases h : t.isTaken base = true
  · obtain ⟨i, hi, hfree, hlt⟩ := withModules_eq module.reverse h
    simp only [freeName, h, if_true]
    exact ⟨i + 1, hi, hfree, fun j hj => hlt j (Nat.le_of_lt_succ hj)⟩
  · rw [freeName, if_neg h]
    exact ⟨0, rfl, eq_false_of_ne_true h, fun j hj => absurd hj j.not_lt_zero⟩

theorem isTaken_freeName (t : SchemaTable) (module : List String) (base : String) :
    t.isTaken (t.freeName module base) = false := by
  obtain ⟨-, -, hfree, -⟩ := t.freeName_eq module base
  exact hfree

/-- A component that no declaration stands for is named like a type outside all modules. -/
theorem registerBuiltin_of_none {schema : Schema} (h : t.definition? (builtinKey name) = none) :
    t.registerBuiltin name schema = (.ref (t.freeName [] name),
      t.enter (builtinKey name) (t.freeName [] name) (some schema)) := by
  unfold registerBuiltin
  simp only [h]
  rfl

end SchemaTable

end ServiceContract
