import ServiceContract.Proofs.Document.Survey
import ServiceContract.Proofs.Operator.Cache
import ServiceContract.Proofs.Route.Order

/-! # The errors of a run

All operators in the tree of routes are groups or declared structs, and none is in progress when
one is compiled. So a run never meets the two errors that stand for the contrary, and it skips a
route for each field without a location. What is left are the errors that a user can cause.
-/

namespace ServiceContract

open Source Work

/-- The errors that a run can end in. -/
inductive Error.EndsRun : Error → Prop
  | noRootRouter (entryPoints) : EndsRun (.noRootRouter entryPoints)
  | duplicateOperationId (id first second) : EndsRun (.duplicateOperationId id first second)
  | unsupportedMapKey (key context) : EndsRun (.unsupportedMapKey key context)
  | unknownPrimitive (name context) : EndsRun (.unknownPrimitive name context)

theorem Error.OfType.endsRun {e : Error} (h : e.OfType) :
    e.EndsRun ∨ ∃ type, e = .endlessType type := by
  cases e with
  | unsupportedMapKey key context => exact .inl (.unsupportedMapKey key context)
  | unknownPrimitive name context => exact .inl (.unknownPrimitive name context)
  | endlessType type => exact .inr ⟨type, rfl⟩
  | _ => cases h

theorem RouteTree.eq_noRootRouter_of_ofProgram {p : Program} {entryPoints : List String}
    {e : Error} (h : ofProgram p entryPoints = .error e) :
    e = .noRootRouter (Text.join ", " entryPoints) := by
  unfold ofProgram at h
  dsimp only at h
  split at h <;> cases h
  rfl

theorem Endpoint.eq_of_duplicate? {seen : List (String × String)} {es : List Endpoint} {e : Error}
    (h : duplicate? seen es = some e) :
    ∃ id first second, e = .duplicateOperationId id first second := by
  induction es generalizing seen with
  | nil => cases h
  | cons endpoint rest ih =>
    unfold duplicate? at h
    split at h
    · cases h
      exact ⟨_, _, _, rfl⟩
    · exact ih h

namespace Generation

variable {search : ErrorSearch} {s s' : CompilerState} {routes : List Route} {e : Error}
  {found : List Endpoint} {skipped : List Skipped}

/-- The operators that are called for are those of the routes. -/
def CallsIn (routes : List Route) (calls : List CompilerCall) : Prop :=
  ∀ op, .operator op ∈ calls → ∃ r ∈ routes, op ∈ r.chain

theorem CallsIn.mono {routes' : List Route} {calls : List CompilerCall} (h : CallsIn routes calls)
    (hsub : routes ⊆ routes') : CallsIn routes' calls := fun op hop =>
  let ⟨r, hr, hc⟩ := h op hop
  ⟨r, hsub hr, hc⟩

theorem CallsIn.append {calls calls' : List CompilerCall} (h : CallsIn routes calls)
    (h' : CallsIn routes calls') : CallsIn routes (calls ++ calls') := fun op hop =>
  (List.mem_append.mp hop).elim (h op) (h' op)

/-- What is known of operators while routes are compiled comes from calls for their operators. -/
theorem exists_calls_of_endpoints (search : ErrorSearch) (s : CompilerState) (routes : List Route)
    (skipped : List Skipped) (found : List Endpoint) : ∃ ops : List OperatorRef,
      CallsIn routes (ops.map .operator) ∧
      ((endpoints search skipped found routes).runOn s).2 =
        s.after search (ops.map .operator) := by
  induction routes generalizing s skipped found with
  | nil => exact ⟨[], by simp [CallsIn], rfl⟩
  | cons r rs ih =>
    cases hg : r.endsInGroup with
    | true =>
      obtain ⟨ops, hops, hs⟩ := ih s skipped found
      exact ⟨ops, hops.mono (List.subset_cons_self r rs), by rw [endpoints_group hg, hs]⟩
    | false =>
      obtain ⟨n, hn⟩ := Operator.exists_take_of_mapM search s r.chain
      have hchain : CallsIn (r :: rs) ((r.chain.take n).map .operator) := fun op hop => by
        obtain ⟨_, hop, ⟨⟩⟩ := List.mem_map.mp hop
        exact ⟨r, List.mem_cons_self, List.mem_of_mem_take hop⟩
      -- the calls of the chain come before those of the routes after it
      have further (skipped found) : ∃ ops : List OperatorRef,
          CallsIn (r :: rs) (ops.map .operator) ∧
          ((endpoints search skipped found rs).runOn
            ((r.chain.mapM (Operator.compile search)).runOn s).2).2 =
              s.after search (ops.map .operator) := by
        obtain ⟨ops, hops, hs⟩ :=
          ih ((r.chain.mapM (Operator.compile search)).runOn s).2 skipped found
        refine ⟨r.chain.take n ++ ops, ?_, ?_⟩
        · rw [List.map_append]
          exact hchain.append (hops.mono (List.subset_cons_self r rs))
        · rw [hs, hn, List.map_append]
          exact List.foldl_append.symm
      rw [runOn_endpoints_cons hg]
      rcases hc : (r.chain.mapM (Operator.compile search)).runOn s with ⟨e | chain, s₁⟩
      · dsimp only
        split
        · exact ⟨_, hchain, by rw [← hn, hc]⟩
        · simpa only [hc] using further _ _
      · simpa only [hc] using further _ _

/-- Where all operators are groups or declared structs, only a type ends the survey of routes. -/
theorem ofType_of_endpoints (h : ∀ r ∈ routes, ∀ op ∈ r.chain, op.Declared search.program)
    (hs : s.Settled) (he : (endpoints search skipped found routes).runOn s = (.error e, s')) :
    e.OfType := by
  induction routes generalizing s skipped found with
  | nil => cases he
  | cons r rs ih =>
    obtain ⟨hr, hrs⟩ := List.forall_mem_cons.mp h
    cases hg : r.endsInGroup with
    | true =>
      rw [endpoints_group hg] at he
      exact ih hrs hs he
    | false =>
      rw [runOn_endpoints_cons hg] at he
      rcases hc : (r.chain.mapM (Operator.compile search)).runOn s with ⟨e' | chain, s₁⟩ <;>
        rw [hc] at he <;> dsimp only at he
      · obtain ⟨hsettled, htype⟩ := (Operator.settles_chain hs hr).error hc
        split at he
        · next hfatal =>
          cases he
          exact htype.resolve_right (by simp [hfatal])
        · exact ih hrs (hsettled hs) he
      · exact ih hrs (((Operator.settles_chain hs hr).ok hc).1 hs) he

/-- The schema of error responses fails only for a type. -/
theorem meets_responseSchema (p : Program) (formatter : Option ErrorFormatter)
    (es : List Endpoint) (s : CompilerState) :
    Meets (compiling fun _ => False) (responseSchema p formatter es) s fun _ _ => True := by
  unfold responseSchema
  split
  · refine .map ?_
    cases formatter with
    | none => exact ⟨rfl, trivial⟩
    | some f => exact Operator.meets_onTable ((compileRules_typeErrors p).compileType _)
  · exact .pure trivial

theorem operators_responseSchema (p : Program) (formatter : Option ErrorFormatter)
    (es : List Endpoint) (s : CompilerState) :
    ((responseSchema p formatter es).runOn s).2.operators = s.operators := by
  have h := meets_responseSchema p formatter es s
  rcases hr : (responseSchema p formatter es).runOn s with ⟨e | _, s'⟩
  · exact (h.error hr).1
  · exact (h.ok hr).1

variable {p : Program} {config : Config}

/-- What is known of operators after a run comes from calls for those of its routes. -/
theorem exists_calls_of_ofRoutes (p : Program) (config : Config) (s : CompilerState)
    (routes : List Route) : ∃ ops : List OperatorRef, CallsIn routes (ops.map .operator) ∧
      ((ofRoutes p config routes).runOn s).2.operators =
        (s.after (.ofProgram p) (ops.map .operator)).operators := by
  obtain ⟨ops, hops, hs⟩ := exists_calls_of_endpoints (.ofProgram p) s routes [] []
  refine ⟨ops, hops, ?_⟩
  rw [← hs]
  unfold ofRoutes
  dsimp only
  rw [runOn_bind]
  rcases (endpoints (.ofProgram p) [] [] routes).runOn s with ⟨e | ⟨found, skipped⟩, s₁⟩
  · rfl
  · dsimp only
    cases Endpoint.duplicate? [] (found.mergeSort Endpoint.le) with
    | some e => rfl
    | none =>
      dsimp only
      rw [runOn_bind, ← operators_responseSchema p (ErrorFormatter.detect? p)
        (found.mergeSort Endpoint.le) s₁]
      rcases (responseSchema p (ErrorFormatter.detect? p) (found.mergeSort Endpoint.le)).runOn s₁
        with ⟨e | schema, s₂⟩ <;> rfl

theorem error_of_ofRoutes (h : ∀ r ∈ routes, ∀ op ∈ r.chain, op.Declared p) (hs : s.Settled)
    (he : (ofRoutes p config routes).runOn s = (.error e, s')) :
    e.EndsRun ∨ ∃ type, e = .endlessType type := by
  unfold ofRoutes at he
  dsimp only at he
  rw [runOn_bind] at he
  rcases hf : (endpoints (.ofProgram p) [] [] routes).runOn s with ⟨e' | ⟨found, skipped⟩, s₁⟩ <;>
    rw [hf] at he <;> dsimp only at he
  · cases he
    exact (ofType_of_endpoints h hs hf).endsRun
  · cases hd : Endpoint.duplicate? [] (found.mergeSort Endpoint.le) with
    | some e' =>
      rw [hd] at he
      cases he
      obtain ⟨id, first, second, rfl⟩ := Endpoint.eq_of_duplicate? hd
      exact .inl (.duplicateOperationId id first second)
    | none =>
      rw [hd] at he
      dsimp only at he
      rw [runOn_bind] at he
      rcases hr : (responseSchema p (ErrorFormatter.detect? p)
        (found.mergeSort Endpoint.le)).runOn s₁ with ⟨e' | schema, s₂⟩ <;> rw [hr] at he
      · cases he
        exact (((meets_responseSchema p _ _ s₁).error hr).2.resolve_right id).endsRun
      · cases he

/-- A run that fails found no root, or two endpoints with one identifier, or a type that cannot be
described; the expansion of a type that does not end gives no answer. Routes hold only groups and
structs that are found under their module and name. After any calls for them, with calls for types
between them, no operator is in progress; the calls of the run are among these. -/
theorem ofProgram_errors (p : Program) (config : Config) :
    (∀ e, ofProgram p config = .error e → e.EndsRun ∨ ∃ type, e = .endlessType type) ∧
      ∀ tree, RouteTree.ofProgram p config.entryPoints = .ok tree →
        (∀ r ∈ tree.routes, ∀ module name, .type module name ∈ r.chain →
          ∃ d, p.findStruct module name = some d) ∧
        (∀ calls, CallsIn tree.routes calls → ∀ key,
          (CompilerState.after (.ofProgram p) {} calls).operators.lookup key ≠
            some .inProgress) ∧
        ∃ ops : List OperatorRef, CallsIn tree.routes (ops.map .operator) ∧
          ((ofRoutes p config tree.routes).runOn {}).2.operators =
            (CompilerState.after (.ofProgram p) {} (ops.map .operator)).operators := by
  refine ⟨fun e he => ?_, fun tree ht => ?_⟩
  · change (RouteTree.ofProgram p config.entryPoints).bind _ = _ at he
    cases ht : RouteTree.ofProgram p config.entryPoints with
    | error e' =>
      rw [ht] at he
      cases he
      obtain rfl := RouteTree.eq_noRootRouter_of_ofProgram ht
      exact .inl (.noRootRouter _)
    | ok tree =>
      rw [ht] at he
      exact error_of_ofRoutes (RouteTree.declared_routes ht) CompilerState.settled_empty
        (Prod.ext he rfl)
  · have declared := RouteTree.declared_routes ht
    refine ⟨fun r hr module name hop => declared r hr _ hop, fun calls hcalls => ?_,
      exists_calls_of_ofRoutes p config {} tree.routes⟩
    refine (Operator.settled_after CompilerState.settled_empty fun op hop => ?_).finished
    obtain ⟨r, hr, hc⟩ := hcalls op hop
    exact declared r hr op hc

section Programs

open Source

/-- An entry point that calls a function, which registers an operator. -/
def callingMount : Program where
  structs := [structOf "Ping" .unit]
  statics := [groupStatic "R" "/a"]
  fns :=
    [fnIn [] "main" [.expr [] (callOf "mount") true, serveOf (pathOf ["R"])],
     fnIn [] "mount" [registerOf "R" (routerOf (pathOf ["Ping"]))]]

/-- A function that is called and is an entry point itself is evaluated twice, so its operator is
registered twice, and there is no document. There is one if it is no entry point. -/
theorem ofProgram_callingMount :
    ofProgram callingMount { entryPoints := ["main", "mount"] } =
        .error (.duplicateOperationId "Ping" "Group(/a) > Ping" "Group(/a) > Ping") ∧
      ∃ g, ofProgram callingMount { entryPoints := ["main"] } = .ok g ∧
        g.document.operations.map (fun o => o.2.2.operationId) = ["Ping"] := by
  refine ⟨ofProgram_eq_error_of_inOrder? (by decide +kernel), ?_⟩
  have hmain : (inOrder? callingMount { entryPoints := ["main"] }).any (fun r => r.toOption.any
      fun g => g.document.operations.map (fun o => o.2.2.operationId) == ["Ping"]) = true := by
    decide +kernel
  obtain ⟨g, hg, hids⟩ := exists_ofProgram_of_inOrder? hmain
  exact ⟨g, hg, beq_iff_eq.mp hids⟩

end Programs

end Generation

end ServiceContract
