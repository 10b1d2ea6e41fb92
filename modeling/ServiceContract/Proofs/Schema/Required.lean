import ServiceContract.Proofs.Schema.Inside

/-! # What objects require

Inside a component stand the objects that its declaration gives properties to. What they require are
properties of theirs; it agrees with the fields unless one that demands a value is followed by
another one of its name.
-/

namespace ServiceContract

open Source TypeCompiler Schema Property

/-- Every object with properties inside a schema has properties as given. It requires none but
these, and it agrees with them exactly if none that demands a value is shadowed. -/
def Schema.DemandsOf (Given : List Property → Prop) (s : Schema) : Prop :=
  Every (fun n => n.properties ≠ none → ∃ given, Given given ∧ n.Holds given ∧
    n.RequiresProperties ∧ (n.Agrees given ↔ Unshadowed given)) s

/-- The properties of every object inside a schema are as given. -/
def Schema.HoldsOf (Given : List Property → Prop) (n : Schema) : Prop :=
  n.properties ≠ none → ∃ given, Given given ∧ n.Holds given

theorem Schema.demandsOf_iff {Given : List Property → Prop} {s : Schema} :
    s.DemandsOf Given ↔ Every (HoldsOf Given) s := by
  refine ⟨fun h => h.imp fun n hn hp => ?_, fun h => h.imp fun n hn hp => ?_⟩
  · obtain ⟨given, hg, hh, -⟩ := hn hp
    exact ⟨given, hg, hh⟩
  · obtain ⟨given, hg, hh⟩ := hn hp
    exact ⟨given, hg, hh, hh.requiresProperties, hh.agrees_iff⟩

namespace Surroundings

variable {x : Surroundings} {d : TypeDecl} {p : Program} {s : Schema} {Given : List Property → Prop}

theorem inside_holdsOf (Given : List Property → Prop) : Inside (HoldsOf Given) where
  bare _ h hp := absurd h.properties hp
  name _ hp := absurd rfl hp
  parts _ _ hp := absurd rfl hp
  description n text h hp := by
    cases text with
    | none => exact h hp
    | some text =>
      obtain ⟨given, hg, hh⟩ := h hp
      exact ⟨given, hg, hh.withDescription (some text)⟩

theorem Shape.holdsOf (h : x.Shape d s) : Every (HoldsOf (x.Gives d)) s := by
  refine h.every (inside_holdsOf _) (fun given hg _ => ⟨given, hg, holds_objectWith given⟩)
    (fun _ hp => absurd rfl hp) (fun e members _ _ hp => ?_) fun _ _ _ _ hp => absurd rfl hp
  obtain ⟨_, _, henum⟩ := enumerate_eq members (typed "string")
  exact absurd (by rw [henum]; rfl) hp

theorem every_holdsOf_described (h : Every (HoldsOf Given) s) :
    Every (HoldsOf Given) (described p d s) := by
  refine every_described h ?_ fun _ hp => absurd rfl hp
  intro hp
  cases hr : s.reference with
  | none =>
    obtain ⟨_, _, _, hd, -⟩ := described_eq (p := p) (d := d) hr
    rw [hd] at hp ⊢
    obtain ⟨given, hg, hh⟩ := h s (.self s) hp
    exact ⟨given, hg, hh.properties, hh.required⟩
  | some r =>
    obtain ⟨_, _, _, hd⟩ := described_reference (p := p) (d := d) hr
    rw [hd] at hp
    exact absurd rfl hp

end Surroundings

namespace SchemaTable

variable {p : Program} {calls : List SchemaCall} {key : String} {c : Definition} {s : Schema}

/-- The objects inside a component have the properties that its declaration gives. -/
theorem demandsOf_component (hc : (after p {} calls).definition? key = some c)
    (hs : c.schema = some s) (hkey : ∀ name, key ≠ builtinKey name) :
    ∃ d args n, d ∈ p.types ∧ d.key args = key ∧
      s.DemandsOf ((d.surroundings p n (after p {} calls) args).Gives d) := by
  obtain ⟨d, args, n, s₀, hd, hdkey, rfl, hshape⟩ := shape_of_component hc hs hkey
  exact ⟨d, args, n, hd, hdkey,
    demandsOf_iff.mpr (Surroundings.every_holdsOf_described hshape.holdsOf)⟩

end SchemaTable

end ServiceContract
