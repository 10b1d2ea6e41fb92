import ServiceContract.Proofs.Document.Schemas
import ServiceContract.Schema.Codec

/-! # References stand alone

What is said about a reference is put beside it first, at several places of the compilers; the
reference is settled before it is handed on. In between, nothing but a description, a default and
extensions may stand beside a reference, or what does is lost.
-/

namespace ServiceContract

namespace Schema

variable {s : Schema}

/-- A reference says nothing else. -/
def Alone (s : Schema) : Prop := ∀ r, s.reference = some r → s = { reference := some r }

/-- All schemas inside are settled, and a reference that does not stand alone is settled next. -/
structure Settleable (s : Schema) : Prop where
  children : ∀ c ∈ s.children, Every Alone c
  beside : ∀ r, s.reference = some r → s.decorated = true ∨ s = { reference := some r }

theorem Settleable.of_decorated (hc : ∀ c ∈ s.children, Every Alone c)
    (hd : s.decorated = true) : s.Settleable := ⟨hc, fun _ _ => .inl hd⟩

theorem Settleable.settle (h : s.Settleable) : Every Alone s.settle := by
  have alone {s : Schema} (hr : s.reference = none) (hc : ∀ c ∈ s.children, Every Alone c) :
      Every Alone s := every_iff.mpr ⟨fun r h => by simp [hr] at h, hc⟩
  have reference (r : String) : Every Alone { reference := some r } :=
    every_iff.mpr ⟨fun r' h => by rw [← h], by simp [Schema.children]⟩
  cases hr : s.reference with
  | none =>
    rw [settle_of_reference_eq_none hr]
    exact alone hr h.children
  | some r =>
    rcases h.beside r hr with hd | rfl
    · rw [settle_of_decorated hr hd]
      exact alone rfl (by simpa [Schema.children] using reference r)
    · exact reference r

/-- Whatever is said about a reference, it is alone once it is settled. -/
theorem nodeRules_alone (p : Program) : NodeRules p Alone Settleable where
  fresh h := fun r hr => by simp [h.reference] at hr
  said h := ⟨(every_iff.mp h).2, fun r hr => .inr ((every_iff.mp h).1 r hr)⟩
  described _ h := .of_decorated h.children rfl
  extended _ _ h := .of_decorated h.children decorated_withExtension
  enumerated {s members} _ hlabel h := by
    have hc : ∀ c ∈ (s.enumerate members).children, Every Alone c := by
      rw [children_enumerate]
      exact h.children
    rcases hlabel with hs | hlabel
    · exact ⟨hc, fun r h => by simp [hs.reference] at h⟩
    · exact .of_decorated hc (decorated_enumerate hlabel)
  settled := Settleable.settle
  undescribed h := every_iff.mpr
    ⟨fun r hr => by rw [(every_iff.mp h).1 r hr], (every_iff.mp h).2⟩

end Schema

open Schema

theorem operatorRules_alone (p : Program) : OperatorRules p (fun _ => Every Alone)
    (fun _ => TypeCompiler.ObjectParts.Every Alone) (fun _ => FormParts.Every Alone) :=
  NodeRules.operatorRules (fun _ => nodeRules_alone p)
    (fun _ _ _ h => .of_decorated h.children (by simp [decorated]))
    (fun _ _ hr => by rw [← hr]; rfl) fun _ h => h

namespace Generation

/-- Wherever a reference stands in a generated document, nothing stands beside it: no keyword and
no extension. What is said about a reference stands on an `allOf` around it. -/
theorem references_alone {p : Program} {config : Config} {g : Generation}
    (h : ofProgram p config = .ok g) :
    (∀ s ∈ g.document.schemas, ∀ n, Schema.Node n s → ∀ r, n.reference = some r →
      n = { reference := some r } ∧ n.toJson = .obj [("$ref", .str r)]) ∧
    ∀ s : Schema, ∀ r, s.reference = some r → s.decorated = true →
      s.settle = { allOf := some [{ reference := some r }], description := s.description,
                   default := s.default, extensions := s.extensions } := by
  obtain ⟨tree, state, -, hr⟩ := ofProgram_eq_ok.mp h
  obtain ⟨-, -, hschemas⟩ := (operatorRules_alone p).document hr
  refine ⟨fun s hs n hn r hnr => ?_, fun s r => settle_of_decorated⟩
  have alone : n = { reference := some r } := hschemas s hs n hn r hnr
  refine ⟨alone, ?_⟩
  rw [alone]
  rfl

theorem references_alone_shop : ∃ g, ofProgram shop {} = .ok g ∧
    (∀ s ∈ g.document.schemas, ∀ n, Schema.Node n s → ∀ r, n.reference = some r →
      n = { reference := some r } ∧ n.toJson = .obj [("$ref", .str r)]) ∧
    ∀ s : Schema, ∀ r, s.reference = some r → s.decorated = true →
      s.settle = { allOf := some [{ reference := some r }], description := s.description,
                   default := s.default, extensions := s.extensions } :=
  have ⟨g, hg⟩ := exists_ofProgram_shop
  ⟨g, hg, references_alone hg⟩

end Generation

end ServiceContract
