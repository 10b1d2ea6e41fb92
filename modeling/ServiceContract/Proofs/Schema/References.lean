import ServiceContract.Proofs.Schema.NodeRules

/-! # References to components

A reference is handed out while the component it refers to may still be expanded. So references
are only said to have the name of a component of the table; a component is never removed and keeps
its name, and the work that entered a component also resolves it.
-/

namespace ServiceContract

namespace Schema

/-- A reference in the schema is one to a component whose name is as described. -/
def RefersTo (Name : String → Prop) (s : Schema) : Prop :=
  ∀ r, s.reference = some r → ∃ name, r = componentRoot ++ name ∧ Name name

variable {Name : String → Prop} {s s' : Schema}

theorem every_of_reference_eq_none (hr : s.reference = none)
    (hc : ∀ c ∈ s.children, Every (RefersTo Name) c) : Every (RefersTo Name) s :=
  every_iff.mpr ⟨fun r h => by simp [hr] at h, hc⟩

theorem every_of_leaf (hr : s.reference = none) (hc : s.children = []) :
    Every (RefersTo Name) s :=
  every_of_reference_eq_none hr (by simp [hc])

theorem Every.refersTo_congr (h : Every (RefersTo Name) s) (hr : s'.reference = s.reference)
    (hc : s'.children = s.children) : Every (RefersTo Name) s' :=
  h.of_children_eq (fun r hr' => h s (.self s) r (hr ▸ hr')) hc

theorem RefersTo.mono {Name' : String → Prop} (h : s.RefersTo Name)
    (hn : ∀ name, Name name → Name' name) : s.RefersTo Name' :=
  fun r hr => (h r hr).imp fun name hname => ⟨hname.1, hn name hname.2⟩

theorem refersTo_ref {name : String} (h : Name name) : (ref name).RefersTo Name :=
  fun _ hr => ⟨name, (Option.some.inj hr).symm, h⟩

theorem every_ref {name : String} (h : Name name) : Every (RefersTo Name) (ref name) :=
  every_iff.mpr ⟨refersTo_ref h, by simp [ref, children]⟩

theorem every_settle (h : Every (RefersTo Name) s) : Every (RefersTo Name) s.settle := by
  unfold settle
  split
  · refine every_of_reference_eq_none rfl fun c hc => ?_
    obtain rfl : c = { reference := s.reference } := by simpa [children] using hc
    exact every_iff.mpr ⟨(every_iff.mp h).1, by simp [children]⟩
  · exact h

/-- References of such names are kept by whatever is said about a schema. -/
theorem nodeRules_refersTo (p : Program) (Name : String → Prop) :
    NodeRules p (RefersTo Name) (Every (RefersTo Name)) where
  fresh h := fun r hr => by simp [h.reference] at hr
  said h := h
  described _ h := h.refersTo_congr rfl rfl
  extended _ _ h := h.refersTo_congr rfl rfl
  enumerated _ _ h := h.refersTo_congr reference_enumerate children_enumerate
  settled := every_settle
  undescribed h := h.refersTo_congr rfl rfl

/-- It does not matter here whether the names of the parts are distinct. -/
theorem every_objectParts {o : TypeCompiler.ObjectParts}
    (hp : ∀ e ∈ o.properties, Every (RefersTo Name) e.2)
    (hf : ∀ s ∈ o.flattened, Every (RefersTo Name) s) : Every (RefersTo Name) o.schema := by
  have hobject : Every (RefersTo Name) (object o.properties o.required) := by
    refine every_of_reference_eq_none rfl fun c hc => ?_
    obtain ⟨k, he⟩ : ∃ k, (k, c) ∈ o.properties := by simpa [object, children] using hc
    exact hp _ he
  unfold TypeCompiler.ObjectParts.schema
  dsimp only
  split
  · exact hobject
  · refine every_of_reference_eq_none rfl ?_
    simpa [children, or_imp, forall_and] using ⟨hf, hobject⟩

end Schema

end ServiceContract
