import ServiceContract.Operator.Fields
import ServiceContract.Proofs.Program.Lookup

/-! # The fields that are found

The search for the located fields of an operator fails only for a field without a location. What it
finds are fields of declared structs, with what their own attributes say.
-/

namespace ServiceContract

open Source

namespace LocatedField

/-- The field stands in a declared struct, and the attribute is its own. -/
def Stands (p : Program) (site : LocatedField) : Prop :=
  ∃ d ∈ p.structs, ∃ fields, d.item.fields = .named fields ∧ site.field ∈ fields ∧
    ParamAttr.ofAttrs site.field.attrs = some site.param

/-- A search fails only for a field without a location, and what it gives is as described. -/
def Finds {α : Type} (operator : String) (P : α → Prop) (x : Search α) : Prop :=
  ∀ visited, match x.run visited with
    | .ok (a, _) => P a
    | .error e => ∃ field, e = .missingLocation operator field

section Finds

variable {α β : Type} {operator : String} {P : α → Prop} {Q : β → Prop} {x : Search α}

theorem Finds.pure {a : α} (h : P a) : Finds operator P (pure a : Search α) := fun _ => h

theorem Finds.bind {f : α → Search β} (hx : Finds operator P x)
    (hf : ∀ a, P a → Finds operator Q (f a)) : Finds operator Q (x >>= f) := by
  intro visited
  have hrun := hx visited
  rw [StateT.run_bind]
  rcases hr : x.run visited with e | ⟨a, visited'⟩
  · rw [hr] at hrun
    exact hrun
  · rw [hr] at hrun
    exact hf a hrun visited'

theorem Finds.mapM {γ : Type} {l : List γ} {f : γ → Search α}
    (h : ∀ c ∈ l, Finds operator P (f c)) :
    Finds operator (fun as => ∀ a ∈ as, P a) (l.mapM f) := by
  induction l with
  | nil => exact .pure (by simp)
  | cons c rest ih =>
    obtain ⟨hc, hrest⟩ := List.forall_mem_cons.mp h
    rw [List.mapM_cons]
    exact hc.bind fun a ha => (ih hrest).bind fun as has =>
      .pure (List.forall_mem_cons.mpr ⟨ha, has⟩)

end Finds

variable {p : Program} {operator : String} {d : Declared StructItem} {fields : List Field}
  {field : Field}

theorem finds_ofField {inner : Declared StructItem → Search (List LocatedField)}
    (h : ∀ d ∈ p.structs, Finds operator (fun sites => ∀ site ∈ sites, site.Stands p) (inner d))
    (hd : d ∈ p.structs) (hfields : d.item.fields = .named fields) (hfield : field ∈ fields) :
    Finds operator (fun sites => ∀ site ∈ sites, site.Stands p)
      (ofField p operator inner d field) := by
  unfold ofField
  split
  · exact .pure (by simp)
  · split
    · split
      · next struct hstruct =>
        refine h struct (Program.mem_structs_of_mem_types ?_)
        obtain ⟨path, -, hpath⟩ := Option.bind_eq_some_iff.mp hstruct
        split at hpath <;> cases hpath
        next hfound => exact Program.mem_types_of_findType hfound
      · exact .pure (by simp)
    · split
      · next param location hparam =>
        obtain ⟨param', hattr, hlocation⟩ := Option.bind_eq_some_iff.mp hparam
        obtain ⟨_, -, heq⟩ := Option.map_eq_some_iff.mp hlocation
        cases heq
        exact .pure (List.forall_mem_singleton.mpr ⟨d, hd, fields, hfields, hfield, hattr⟩)
      · split
        · exact fun _ => ⟨_, rfl⟩
        · exact .pure (by simp)

theorem finds_ofStruct (n : Nat) (hd : d ∈ p.structs) :
    Finds operator (fun sites => ∀ site ∈ sites, site.Stands p) (ofStruct p operator n d) := by
  induction n generalizing d with
  | zero => exact .pure (by simp)
  | succ n ih =>
    unfold ofStruct
    refine .bind (P := fun _ => True) (fun _ => trivial) fun visited _ => ?_
    split
    · exact .pure (by simp)
    · refine .bind (P := fun _ => True) (fun _ => trivial) fun _ _ => ?_
      split
      · next fields hfields =>
        refine (Finds.mapM fun field hfield =>
          finds_ofField (fun d hd => ih hd) hd hfields hfield).bind fun found hfound => .pure ?_
        exact List.forall_mem_flatten.mpr hfound
      · exact .pure (by simp)

/-- The located fields of a struct stand in structs, if no field is without a location. -/
theorem all_spec (hd : d ∈ p.structs) : match all p operator d with
    | .ok sites => ∀ site ∈ sites, site.Stands p
    | .error e => ∃ field, e = .missingLocation operator field := by
  have hfinds : Finds operator (fun sites => ∀ site ∈ sites, site.Stands p)
      (ofStruct p operator (p.structs.length + 1) d) := finds_ofStruct _ hd
  have hrun := hfinds []
  unfold all
  rcases hr : (ofStruct p operator (p.structs.length + 1) d).run [] with e | ⟨found, _⟩
  all_goals
    rw [hr] at hrun
    exact hrun

theorem stands_of_all {sites : List LocatedField} (hd : d ∈ p.structs)
    (h : all p operator d = .ok sites) : ∀ site ∈ sites, site.Stands p := by
  have hspec := @all_spec p operator d hd
  rwa [h] at hspec

theorem eq_missingLocation_of_all {e : Error} (hd : d ∈ p.structs)
    (h : all p operator d = .error e) : ∃ field, e = .missingLocation operator field := by
  have hspec := @all_spec p operator d hd
  rwa [h] at hspec

end LocatedField

end ServiceContract
