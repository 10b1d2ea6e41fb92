import ServiceContract.Proofs.Document.Chains

/-! # What the operators of a chain add up to

An endpoint has what the operators of its chain contribute. Of several parameters of one name and
location the first counts, of several schemes of one name the first, and of several bodies the last.
-/

namespace ServiceContract

namespace Endpoint

variable {chain front : List Operator} {leaf : Operator} {label : String}

/-- The parameters that a chain has to offer: all those of middleware and of the last operator, and
the path parameters of the others. -/
def offered : List Operator → List Parameter
  | [] => []
  | [leaf] => leaf.parameters
  | op :: rest =>
    (op.parameters.filter fun x => op.middleware || x.location == "path") ++ offered rest

theorem offered_append_singleton : offered (front ++ [leaf]) =
    (front.flatMap fun op => op.parameters.filter fun x =>
      op.middleware || x.location == "path") ++ leaf.parameters := by
  induction front with
  | nil => rfl
  | cons op front ih =>
    have hne : front ++ [leaf] ≠ [] := by simp
    rw [List.cons_append, offered.eq_3 _ _ fun h => hne h, ih, List.flatMap_cons, List.append_assoc]

theorem flatMap_contributed : (contributions chain).flatMap contributed = offered chain := by
  rcases List.eq_nil_or_concat chain with rfl | ⟨front, leaf, rfl⟩
  · rfl
  · rw [List.concat_eq_append, contributions_append_singleton, offered_append_singleton,
      List.flatMap_append, List.flatMap_map]
    simp [contributed, ParamLocation.text]

/-- An endpoint has what a chain adds up to. -/
structure Gathers (e : Endpoint) (chain : List Operator) : Prop where
  parameters : e.parameters = firstsBy (fun x => (x.name, x.location)) (offered chain)
  requestBody : e.requestBody = (chain.filterMap (·.requestBody)).getLast?
  security : e.security = firstsBy Prod.fst (chain.flatMap (·.security))

theorem gathers_fold (chain : List Operator) (label : String) :
    (fold chain label).Gathers chain where
  parameters := by
    rw [← flatMap_contributed]
    exact foldl_nil_eq_firstsBy (fun x : Parameter => (x.name, x.location)) (fun _ _ => rfl) _
  requestBody := requestBody_fold
  security := foldl_nil_eq_firstsBy Prod.fst (fun _ _ => rfl) _

end Endpoint

/-- A parameter has a location where parameters stand, and is required in a path. -/
structure Parameter.Stands (x : Parameter) : Prop where
  location : x.location ∈ ["path", "query", "header", "cookie"]
  required : x.location = "path" → x.required = true

theorem ParamLocation.text_mem_of_isParameter {l : ParamLocation} :
    l.isParameter = true → l.text ∈ ["path", "query", "header", "cookie"] := by
  cases l <;> decide

theorem ParamLocation.eq_path_of_text_eq {l : ParamLocation} : l.text = "path" → l = .path := by
  cases l <;> decide

namespace RequestParts

variable {r : RequestParts} {site : LocatedField} {f : FieldSchema} {name : String}

theorem stands_addParameter (h : ∀ x ∈ r.parameters, x.Stands)
    (hsite : site.location.isParameter = true) :
    ∀ x ∈ (r.addParameter name site f).parameters, x.Stands := by
  refine List.forall_mem_append.mpr ⟨h, List.forall_mem_singleton.mpr ?_⟩
  refine ⟨ParamLocation.text_mem_of_isParameter hsite, fun hpath => ?_⟩
  simp [ParamLocation.eq_path_of_text_eq hpath]

/-- Fields of forms, bodies and keys are no parameters, so all parameters that are gathered stand
where parameters do. -/
theorem Gathered.stands (h : r.Gathered) : ∀ x ∈ r.parameters, x.Stands := by
  induction h with
  | nil => exact nofun
  | @add r site f _ ih =>
    unfold addField
    cases hsite : site.location with
    | form | urlEncoded | multipart => exact ih
    | body =>
      dsimp only [ParamLocation.formMediaType?]
      rw [if_pos (by decide), addBody]
      split <;> exact ih
    | query | path | cookie | header =>
      dsimp only [ParamLocation.formMediaType?]
      rw [if_neg (by decide)]
      split
      · exact ih
      · exact stands_addParameter ih (by rw [hsite]; rfl)

end RequestParts

theorem Operator.Made.stands {op : Operator} (h : op.Made) : ∀ x ∈ op.parameters, x.Stands := by
  cases h with
  | group => exact nofun
  | struct hrequest hparameters => exact hparameters ▸ hrequest.stands

theorem Endpoint.Made.stands {e : Endpoint} (h : e.Made) : ∀ x ∈ e.parameters, x.Stands := by
  obtain ⟨chain, label, rfl, hchain⟩ := h
  intro x hx
  obtain ⟨op, hop, hx⟩ := mem_parameters_fold hx
  exact (hchain op hop).stands x hx

namespace Generation

/-- Every endpoint has what its chain adds up to. So an operation of a generated document has the
parameters, the body and the schemes of a chain; no two of its parameters have one name and one
location, and each stands in the path, the query, a header or a cookie, and is required in the
path. -/
theorem ofProgram_gathers :
    (∀ chain label, (Endpoint.fold chain label).Gathers chain) ∧
    ∀ p config g, ofProgram p config = .ok g → ∃ tree,
      RouteTree.ofProgram p config.entryPoints = .ok tree ∧
      ∀ o ∈ g.document.operations,
        (∃ r chain, Compiles (.ofProgram p) {} tree.routes r chain ∧
          let e := Endpoint.fold chain r.label
          o.2.1 = e.path ∧ o.2.2.operationId = e.leaf.id ∧
            o.2.2.parameters = e.parameters ∧ o.2.2.requestBody = e.requestBody ∧
            o.2.2.security = e.security.map fun s => [(s.1, [])]) ∧
        (o.2.2.parameters.map fun x => (x.name, x.location)).Nodup ∧
        ∀ x ∈ o.2.2.parameters, x.Stands := by
  refine ⟨Endpoint.gathers_fold, fun p config g h => ?_⟩
  obtain ⟨tree, s', ht, hr⟩ := ofProgram_eq_ok.mp h
  obtain ⟨schema, hops⟩ := exists_compiles ht hr
  refine ⟨tree, ht, fun o ho => ?_⟩
  obtain ⟨r, front, leaf, hc, -, heq, hm, -⟩ := hops o ho
  rw [heq]
  refine ⟨⟨r, _, hc, rfl, rfl, rfl, rfl, rfl⟩, ?_, hm.stands⟩
  show ((Endpoint.fold (front ++ [leaf]) r.label).parameters.map _).Nodup
  rw [(Endpoint.gathers_fold (front ++ [leaf]) r.label).parameters]
  exact nodup_map_firstsBy _ _

section Tenants

open Source

/-- A field that is read from a location. -/
def fieldIn (location name : String) : Field where
  attrs := [⟨{ segments := ["param"] }, .list [.ident location]⟩]
  exported := true
  name := some name
  type := .path ["String"] []

/-- Behind middleware that reads a header and an operator that reads the path and the query, there
is one that reads the path and the header of the middleware. -/
def tenants : Program where
  structs :=
    [structOf "Trace" (.named [fieldIn "header" "trace"]),
     structOf "Tenant" (.named [fieldIn "path" "tenant", fieldIn "query" "note"]),
     structOf "GetUser" (.named [fieldIn "header" "trace", fieldIn "path" "id"])]
  fns :=
    [methodIn "Trace" "context_key" [],
     methodIn "Tenant" "path" [.expr [] (.lit (.str "/tenants/:tenant")) false],
     methodIn "GetUser" "path" [.expr [] (.lit (.str "users//:id/:version/")) false],
     fnIn [] "main"
      [.binding (.name "root") [] (some (routerOf (.array [pathOf ["Trace"], pathOf ["Tenant"]])))
        none,
       registerOf "root" (routerOf (pathOf ["GetUser"])), serveOf (pathOf ["root"])]]

/-- The header is read once, and the query of the operator in the middle is left out. -/
theorem ofProgram_gathers_tenants : ∃ g, ofProgram tenants {} = .ok g ∧
    ∃ o ∈ g.document.operations,
      o.2.2.parameters.map (fun x => (x.name, x.location)) =
        [("trace", "header"), ("tenant", "path"), ("id", "path")] ∧
      ∀ x ∈ o.2.2.parameters, x.Stands := by
  obtain ⟨g, hg, hnames⟩ : ∃ g, ofProgram tenants {} = .ok g ∧
      (g.document.operations.map (fun o => o.2.2.parameters.map fun x => (x.name, x.location)) ==
        [[("trace", "header"), ("tenant", "path"), ("id", "path")]]) = true :=
    exists_ofProgram_of_inOrder? (by decide +kernel)
  obtain ⟨tree, -, hgathers⟩ := ofProgram_gathers.2 _ _ g hg
  obtain ⟨o, hops, heq⟩ := List.map_eq_singleton_iff.mp (eq_of_beq hnames)
  have ho : o ∈ g.document.operations := hops ▸ List.mem_cons_self
  exact ⟨g, hg, o, ho, heq, (hgathers o ho).2.2⟩

end Tenants

end Generation

end ServiceContract
