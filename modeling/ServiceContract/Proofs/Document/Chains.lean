import ServiceContract.Proofs.Document.Orderly
import ServiceContract.Proofs.Route.Ends
import ServiceContract.Proofs.StatusError.Merge

/-! # The chains of operations

Every operation of a document was made of a chain of operators, to which those of its route were
compiled when the turn of this route came.
-/

namespace ServiceContract

variable {search : ErrorSearch} {s s' : CompilerState} {routes : List Route}
  {outcomes : List Outcome} {r : Route} {e : Endpoint} {chain front : List Operator}
  {leaf : Operator}

theorem Work.length_eq_of_mapM {σ α β : Type} {f : α → Work σ β} {l : List α} {bs : List β}
    {s s' : σ} (h : (l.mapM f).runOn s = (.ok bs, s')) : bs.length = l.length := by
  induction l generalizing s bs with
  | nil =>
    cases h
    rfl
  | cons a l ih =>
    rw [List.mapM_cons] at h
    obtain ⟨b, s₁, -, h⟩ := runOn_bind_eq_ok.mp h
    obtain ⟨bs', s₂, hbs, h⟩ := runOn_bind_eq_ok.mp h
    cases h
    rw [List.length_cons, List.length_cons, ih hbs]

/-- The operators of a route are compiled to a chain when its turn comes, after all routes before
it. -/
def Compiles (search : ErrorSearch) (s : CompilerState) (routes : List Route) (r : Route)
    (chain : List Operator) : Prop :=
  ∃ earlier later outcomes s₁ s₂, routes = earlier ++ r :: later ∧
    Surveys search s earlier outcomes s₁ ∧
      (r.chain.mapM (Operator.compile search)).runOn s₁ = (.ok chain, s₂)

/-- The endpoint of a route is folded from the chain that its operators are compiled to. -/
theorem Surveys.exists_compiles (h : Surveys search s routes outcomes s')
    (he : (r, .ok e) ∈ outcomes) :
    ∃ chain, Compiles search s routes r chain ∧ e = .fold chain r.label := by
  induction h with
  | nil => cases he
  | group hg _ ih =>
    obtain ⟨chain, ⟨earlier, later, os, s₁, s₂, rfl, hs, hc⟩, heq⟩ := ih he
    exact ⟨chain, ⟨_ :: earlier, later, os, s₁, s₂, rfl, .group hg hs, hc⟩, heq⟩
  | @compiled s s₁ s' r₀ chain rs os hg hc _ ih =>
    rcases List.mem_cons.mp he with he | he
    · cases he
      exact ⟨chain, ⟨[], rs, [], s, s₁, rfl, .nil, hc⟩, rfl⟩
    · obtain ⟨chain', ⟨earlier, later, os, s₁, s₂, rfl, hs, hc'⟩, heq⟩ := ih he
      exact ⟨chain', ⟨_ :: earlier, later, _, s₁, s₂, rfl, .compiled hg hc hs, hc'⟩, heq⟩
  | failed hg hc hf _ ih =>
    obtain ⟨chain, ⟨earlier, later, os, s₁, s₂, rfl, hs, hc'⟩, heq⟩ := ih (by simpa using he)
    exact ⟨chain, ⟨_ :: earlier, later, _, s₁, s₂, rfl, .failed hg hc hf hs, hc'⟩, heq⟩

namespace Compiles

theorem mem (h : Compiles search s routes r chain) : r ∈ routes := by
  obtain ⟨earlier, later, -, -, -, rfl, -⟩ := h
  exact List.mem_append_right _ List.mem_cons_self

/-- The chain of a route of a program has an operator at its end. -/
theorem exists_leaf {t : RouteTree} (h : Compiles search s t.routes r chain) :
    ∃ front leaf, chain = front ++ [leaf] := by
  obtain ⟨op, hop⟩ := RouteTree.exists_leaf h.mem
  obtain ⟨_, _, _, _, _, -, -, hc⟩ := h
  rcases List.eq_nil_or_concat chain with rfl | ⟨front, leaf, rfl⟩
  · have hnil : r.chain = [] := List.length_eq_zero_iff.mp (Work.length_eq_of_mapM hc).symm
    simp [Route.leaf?, hnil] at hop
  · exact ⟨front, leaf, by simp⟩

end Compiles

namespace Endpoint

variable {label : String}

@[simp] theorem leaf_fold : (fold (front ++ [leaf]) label).leaf = leaf := by
  simp [fold]

/-- The last operator contributes all that it has, and so does middleware before it. -/
theorem contributions_append_singleton :
    contributions (front ++ [leaf]) =
      front.map (fun op => (op, op.middleware)) ++ [(leaf, true)] := by
  rw [contributions, List.zipIdx_append, List.map_append]
  congr 1
  · refine List.ext_getElem (by simp) fun i hi _ => ?_
    have hlt : i < front.length := by simpa using hi
    simp [Nat.ne_of_lt hlt]
  · simp

/-- The errors of an endpoint are the first of each identity among those of middleware and of the
last operator. -/
theorem statusErrors_fold : (fold (front ++ [leaf]) label).statusErrors =
    StatusError.firsts ((front.filter (·.middleware) ++ [leaf]).flatMap (·.statusErrors)) := by
  have hfront : ((front.map fun op => (op, op.middleware)).flatMap fun c =>
      if c.2 then c.1.statusErrors else []) =
        (front.filter (·.middleware)).flatMap (·.statusErrors) := by
    induction front with
    | nil => rfl
    | cons op front ih =>
      rw [List.map_cons, List.flatMap_cons, ih, List.filter_cons]
      cases hm : op.middleware <;> simp
  have heq : (fold (front ++ [leaf]) label).statusErrors =
      StatusError.merge [] ((contributions (front ++ [leaf])).flatMap fun c =>
        if c.2 then c.1.statusErrors else []) := rfl
  rw [heq, StatusError.merge_nil_left, contributions_append_singleton, List.flatMap_append, hfront,
    List.flatMap_append]
  simp

end Endpoint

/-- An operation that comes of an endpoint has its method and path. -/
theorem Fate.eq_of_operation? {make : Endpoint → Operation} {es : List Endpoint}
    {o : Method × String × Operation} (h : (ofEndpoint es e).operation? make = some o) :
    Method.ofName? e.method = some o.1 ∧ o = (o.1, e.path, make e) := by
  unfold ofEndpoint at h
  split at h
  · cases h
  · next m hm =>
    split at h
    · cases h
      exact ⟨hm, rfl⟩
    · cases h

namespace Generation

variable {p : Program}

/-- There is a schema for errors unless no endpoint has any. -/
theorem statusErrors_eq_nil {formatter : Option ErrorFormatter} {es : List Endpoint}
    (h : (responseSchema p formatter es).runOn s = (.ok none, s')) (he : e ∈ es) :
    e.statusErrors = [] := by
  unfold responseSchema at h
  split at h
  · rw [map_eq_pure_bind] at h
    obtain ⟨_, _, -, h⟩ := Work.runOn_bind_eq_ok.mp h
    cases h
  · next hany => simpa using List.any_eq_false.mp (Bool.eq_false_iff.mpr hany) e he

/-- Every operation of a document is that of a chain which a route of the program was compiled
to. -/
theorem exists_compiles {config : Config} {g : Generation} {t : RouteTree}
    (ht : RouteTree.ofProgram p config.entryPoints = .ok t)
    (h : (ofRoutes p config t.routes).runOn {} = (.ok g, s')) :
    ∃ schema, ∀ o ∈ g.document.operations, ∃ r front leaf,
      Compiles (.ofProgram p) {} t.routes r (front ++ [leaf]) ∧
      let e := Endpoint.fold (front ++ [leaf]) r.label
      Method.ofName? e.method = some o.1 ∧
        o = (o.1, e.path, operation schema (ErrorFormatter.detect? p) e) ∧
        e.Made ∧ (schema = none → e.statusErrors = []) := by
  obtain ⟨outcomes, s₁, schema, hs, hd, hschema, rfl⟩ := runOn_ofRoutes_eq_ok.mp h
  refine ⟨schema, fun o ho => ?_⟩
  obtain ⟨e, he, hop⟩ := List.mem_filterMap.mp ((placed_placement hd).operations.mem_iff.mp ho)
  obtain ⟨r, hr⟩ := mem_sortedEndpoints.mp he
  obtain ⟨chain, hc, rfl⟩ := hs.exists_compiles hr
  obtain ⟨front, leaf, rfl⟩ := hc.exists_leaf
  obtain ⟨hm, ho⟩ := Fate.eq_of_operation? hop
  have hmade := hs.made CompilerState.settled_empty (RouteTree.declared_routes ht) r _ hr
  refine ⟨r, front, leaf, hc, hm, ho, hmade, ?_⟩
  rintro rfl
  exact statusErrors_eq_nil hschema he

end Generation

end ServiceContract
