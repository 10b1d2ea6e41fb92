import ServiceContract.Program.Lookup
import Mathlib.Data.List.Basic

/-! # What a lookup finds

A lookup chooses among the declarations of the program, so whatever it finds is one of them.
-/

namespace ServiceContract

variable {α : Type} {a : α} {as : List α}

theorem mem_of_firstMax {score : α → Nat} (h : firstMax score as = some a) : a ∈ as := by
  induction as generalizing a with
  | nil => simp [firstMax] at h
  | cons b bs ih =>
    unfold firstMax at h
    cases hb : firstMax score bs with
    | none => simp_all
    | some c =>
      simp only [hb] at h
      split at h <;> cases h
      · exact List.mem_cons_of_mem _ (ih hb)
      · exact List.mem_cons_self

theorem mem_of_pickClosest {moduleOf : α → List String} {module : List String}
    (h : pickClosest moduleOf module as = some a) : a ∈ as := by
  unfold pickClosest at h
  split at h
  · next hf => cases h; exact List.mem_of_find?_eq_some hf
  · exact mem_of_firstMax h

theorem firstMax_eq_some {score : α → Nat} (h : firstMax score as = some a) :
    ∃ before after, as = before ++ a :: after ∧ ∀ b ∈ before, score b < score a := by
  induction as generalizing a with
  | nil => cases h
  | cons b bs ih =>
    unfold firstMax at h
    cases hc : firstMax score bs with
    | none =>
      rw [hc] at h
      cases h
      exact ⟨[], bs, rfl, by simp⟩
    | some c =>
      simp only [hc] at h
      split at h <;> cases h
      · next hlt =>
        obtain ⟨before, after, rfl, hbefore⟩ := ih hc
        exact ⟨b :: before, after, rfl, List.forall_mem_cons.mpr ⟨hlt, hbefore⟩⟩
      · exact ⟨[], bs, rfl, by simp⟩

/-- Of the candidates in one module, only the first one is ever chosen. -/
theorem find?_of_pickClosest {moduleOf : α → List String} {module : List String}
    (h : pickClosest moduleOf module as = some a) :
    (as.find? fun b => moduleOf b == moduleOf a) = some a := by
  unfold pickClosest at h
  split at h
  · next hf =>
    cases h
    have hm : moduleOf a = module := by simpa using List.find?_some hf
    rwa [hm]
  · obtain ⟨before, after, rfl, hbefore⟩ := firstMax_eq_some h
    refine List.find?_eq_some_iff_append.mpr ⟨by simp, before, after, rfl, fun b hb => ?_⟩
    have hlt := hbefore b hb
    simp only [Bool.not_eq_true', beq_eq_false_iff_ne]
    intro he
    rw [he] at hlt
    exact absurd hlt (Nat.lt_irrefl _)

theorem firstMax_isSome {score : α → Nat} (h : as ≠ []) : ∃ a, firstMax score as = some a := by
  cases as with
  | nil => exact absurd rfl h
  | cons a as =>
    rw [firstMax]
    cases firstMax score as with
    | none => exact ⟨a, rfl⟩
    | some b => exact ⟨_, (apply_ite some _ _ _).symm⟩

/-- If all candidates are the same, the closest one is that. -/
theorem pickClosest_eq_some {moduleOf : α → List String} {module : List String} (hmem : a ∈ as)
    (h : ∀ b ∈ as, b = a) : pickClosest moduleOf module as = some a := by
  obtain ⟨b, hb⟩ : ∃ b, pickClosest moduleOf module as = some b := by
    unfold pickClosest
    split
    · next c _ => exact ⟨c, rfl⟩
    · exact firstMax_isSome (List.ne_nil_of_mem hmem)
  rw [hb, h b (mem_of_pickClosest hb)]

theorem moduleMatches_iff {module qualifier : List String} :
    moduleMatches module qualifier = true ↔ qualifier <:+ module := by
  rw [moduleMatches, List.isPrefixOf_iff_prefix, List.reverse_prefix]

namespace Program

theorem name_of_findType {p : Program} {path : TypePath} {module : List String} {d : TypeDecl}
    (h : p.findType path module = some d) : d.name = path.name := by
  have hd := List.of_mem_filter (mem_of_pickClosest h)
  simp only [Bool.and_eq_true, beq_iff_eq] at hd
  exact hd.1

/-- Of the types declared under one name in one module, only the first one is ever found. -/
theorem find?_of_findType {p : Program} {path : TypePath} {module : List String} {d : TypeDecl}
    (h : p.findType path module = some d) :
    (p.types.find? fun e => e.module == d.module && e.name == d.name) = some d := by
  have hd := List.of_mem_filter (mem_of_pickClosest h)
  have hfirst := find?_of_pickClosest h
  rw [List.find?_filter] at hfirst
  rw [← hfirst]
  congr 1
  funext e
  simp only [Bool.and_eq_true, beq_iff_eq] at hd
  rw [Bool.eq_iff_iff]
  by_cases hm : e.module = d.module
  · simp [hm, hd.1, hd.2]
  · simp [hm]

theorem mem_types_of_findType {p : Program} {path : TypePath} {module : List String} {d : TypeDecl}
    (h : p.findType path module = some d) : d ∈ p.types :=
  List.mem_of_find?_eq_some (find?_of_findType h)

theorem mem_structs_of_mem_types {p : Program} {d : Declared Source.StructItem}
    (h : TypeDecl.struct d ∈ p.types) : d ∈ p.structs := by
  simpa [types] using h

theorem mem_enums_of_mem_types {p : Program} {d : Declared Source.EnumItem}
    (h : TypeDecl.enum d ∈ p.types) : d ∈ p.enums := by
  simpa [types] using h

variable {p : Program} {f : FnDecl} {module segments : List String} {owner name : String}

/-- A struct is found where it is declared. -/
theorem place_of_findStruct {d : Declared Source.StructItem} {module : List String}
    (h : p.findStruct module name = some d) : d.module = module ∧ d.item.name = name := by
  simpa using List.find?_some h

/-- A struct that is found by a path is the first one of its name in its module. -/
theorem findStruct_of_findType {d : Declared Source.StructItem} {path : TypePath}
    (h : p.findType path module = some (.struct d)) :
    p.findStruct d.module d.item.name = some d := by
  have hfirst := find?_of_findType h
  rw [types, List.append_assoc, List.find?_append, List.find?_map] at hfirst
  rcases Option.or_eq_some_iff.mp hfirst with hstruct | ⟨-, hother⟩
  · obtain ⟨e, he, heq⟩ := Option.map_eq_some_iff.mp hstruct
    cases heq
    exact he
  · have hmem := List.mem_of_find?_eq_some hother
    simp at hmem

theorem mem_fns_of_ownedMethod (h : p.ownedMethod owner name = some f) : f ∈ p.fns :=
  List.mem_of_mem_filter (List.mem_of_find?_eq_some h)

theorem mem_fns_of_uniqueMethod (h : p.uniqueMethod name = some f) : f ∈ p.fns := by
  unfold uniqueMethod at h
  split at h <;> cases h
  next hf => exact List.mem_of_mem_filter (hf ▸ List.mem_singleton_self f)

theorem mem_fns_of_freeFn (h : p.freeFn segments module = some f) : f ∈ p.fns := by
  unfold freeFn at h
  split at h
  · cases h
  · exact List.mem_of_mem_filter (mem_of_pickClosest h)

theorem mem_fns_of_methodByPath {path : TypePath} (h : p.methodByPath path module name = some f) :
    f ∈ p.fns := by
  unfold methodByPath at h
  split at h
  · exact mem_fns_of_ownedMethod h
  · exact List.mem_of_mem_filter (mem_of_pickClosest h)

theorem mem_fns_of_resolveCall {owner : Option String}
    (h : p.resolveCall segments module owner = some f) : f ∈ p.fns := by
  unfold resolveCall at h
  split at h
  · cases h
  · exact mem_fns_of_freeFn h
  · split at h
    · obtain ⟨_, _, h⟩ := Option.bind_eq_some_iff.mp h
      exact mem_fns_of_ownedMethod h
    · split at h
      · exact mem_fns_of_methodByPath h
      · exact mem_fns_of_freeFn h

end Program

end ServiceContract
