import ServiceContract.Proofs.Document.Schemas
import ServiceContract.Proofs.Schema.References

/-! # The references of a document

Every reference in a generated document is one to a component of the document, also where routes
have been skipped: no component is left without a schema.
-/

namespace ServiceContract

open Schema SchemaTable

/-- References to components of the table are kept in all that is built. -/
theorem operatorRules_refersTo (p : Program) :
    OperatorRules p (fun t => Every (RefersTo t.Named))
      (fun t => TypeCompiler.ObjectParts.Every (RefersTo t.Named))
      (fun t => FormParts.Every (RefersTo t.Named)) :=
  NodeRules.operatorRules (fun t => nodeRules_refersTo p t.Named)
    (fun _ _ _ h => h.refersTo_congr rfl rfl) refersTo_ref fun hn h => h.mono hn

namespace Generation

/-- Every reference in a generated document is one to a component that the document has, and no
type that was entered is left without a schema. -/
theorem references_resolve {p : Program} {config : Config} {g : Generation}
    (h : ofProgram p config = .ok g) :
    (∀ s ∈ g.document.schemas, ∀ n, Schema.Node n s → ∀ r, n.reference = some r →
      ∃ name, r = componentRoot ++ name ∧ name ∈ g.document.components.schemas.map Prod.fst) ∧
    ∃ tree state, RouteTree.ofProgram p config.entryPoints = .ok tree ∧
      (ofRoutes p config tree.routes).runOn {} = (.ok g, state) ∧
      ∀ key d, state.table.definition? key = some d → d.schema ≠ none := by
  obtain ⟨tree, state, ht, hr⟩ := ofProgram_eq_ok.mp h
  obtain ⟨progress, hcomponents, hschemas⟩ := (operatorRules_refersTo p).document hr
  have resolved : ∀ key d, state.table.definition? key = some d → d.schema ≠ none := by
    intro key d hd hn
    obtain ⟨d', hd', -⟩ := progress.table.unresolved hd hn
    simp [SchemaTable.definition?] at hd'
  refine ⟨fun s hs n hn r hnr => ?_, tree, state, ht, hr, resolved⟩
  obtain ⟨name, hname, key, d, hd, hdn⟩ := hschemas s hs n hn r hnr
  refine ⟨name, hname, hcomponents ▸ mem_keys_addComponents (Or.inr ⟨(key, d), ?_, hdn, ?_⟩)⟩
  · exact mem_of_lookup hd
  · exact resolved key d hd

theorem references_resolve_shop : ∃ g, ofProgram shop {} = .ok g ∧
    (∀ s ∈ g.document.schemas, ∀ n, Schema.Node n s → ∀ r, n.reference = some r →
      ∃ name, r = componentRoot ++ name ∧ name ∈ g.document.components.schemas.map Prod.fst) ∧
    ∃ tree state, RouteTree.ofProgram shop ({} : Config).entryPoints = .ok tree ∧
      (ofRoutes shop {} tree.routes).runOn {} = (.ok g, state) ∧
      ∀ key d, state.table.definition? key = some d → d.schema ≠ none :=
  have ⟨g, hg⟩ := exists_ofProgram_shop
  ⟨g, hg, references_resolve hg⟩

end Generation

end ServiceContract
