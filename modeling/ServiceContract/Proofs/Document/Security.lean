import ServiceContract.Proofs.Document.Account
import ServiceContract.Proofs.Document.Chains
import ServiceContract.Proofs.Operator.Security

/-! # The security schemes of a document

A document has one scheme for each name that an operation of it demands. Of several schemes of one
name the first counts, first within a chain and then over all operations in the order in which they
are placed; so what an operation finds under a name may be another operation's scheme.
-/

namespace ServiceContract

open Work

theorem Surveys.holds {search : ErrorSearch} {s s' : CompilerState} {routes : List Route}
    {outcomes : List Outcome} (h : Surveys search s routes outcomes s')
    (hs : s.Holds (Operator.Demands search.program)) :
    s'.Holds (Operator.Demands search.program) := by
  induction h with
  | nil => exact hs
  | group _ _ ih => exact ih hs
  | compiled _ hc _ ih => exact ih (((Operator.demands_chain hs).ok hc).1 hs)
  | failed _ hc _ _ ih => exact ih ((Operator.demands_chain hs).error hc hs)

/-- The operators of every chain of a program demand the schemes of their own fields. -/
theorem Compiles.demands {search : ErrorSearch} {routes : List Route} {r : Route}
    {chain : List Operator} (h : Compiles search {} routes r chain) :
    ∀ op ∈ chain, op.Demands search.program := by
  obtain ⟨_, _, _, s₁, _, -, hs, hc⟩ := h
  have hholds : s₁.Holds (Operator.Demands search.program) := hs.holds fun key op => by simp
  exact ((Operator.demands_chain hholds).ok hc).2

section FirstOfName

variable {schemes acc : List (String × SecurityScheme)} {n : String}

/-- Within a chain the first scheme of a name counts. -/
theorem Endpoint.lookup_foldl_addScheme :
    (schemes.foldl addScheme acc).lookup n = (acc.lookup n).or (schemes.lookup n) := by
  refine lookup_foldl_of_forall_or fun acc scheme => ?_
  unfold addScheme
  split
  · next hany =>
    obtain ⟨found, hmem, hkey⟩ := List.any_eq_true.mp hany
    have hsome : (acc.lookup scheme.1).isSome := Option.isSome_iff_ne_none.mpr fun hnone =>
      lookup_eq_none_iff.mp hnone (List.mem_map.mpr ⟨found, hmem, eq_of_beq hkey⟩)
    exact (lookup_or_singleton hsome).symm
  · exact List.lookup_append

/-- Over all operations the first scheme of a name counts. -/
theorem Generation.lookup_foldl_addScheme :
    (schemes.foldl addScheme acc).lookup n = (acc.lookup n).or (schemes.lookup n) := by
  refine lookup_foldl_of_forall_or fun acc scheme => ?_
  unfold addScheme
  split
  · next hsome => exact (lookup_or_singleton hsome).symm
  · next hnone =>
    rw [lookup_insertSorted, lookup_cons_ite, List.lookup_nil]
    by_cases hn : n = scheme.1
    · rw [if_pos hn, if_pos hn, hn, Option.not_isSome_iff_eq_none.mp hnone, Option.none_or]
    · rw [if_neg hn, if_neg hn, Option.or_none]

end FirstOfName

/-- The endpoint that is served with its method. -/
def Fate.served? : Fate → Option (Method × Endpoint)
  | served m e => some (m, e)
  | _ => none

theorem Fate.operation?_eq_map {make : Endpoint → Operation} {f : Fate} :
    f.operation? make = f.served?.map fun x => (x.1, x.2.path, make x.2) := by
  cases f <;> rfl

theorem Fate.eq_of_served? {es : List Endpoint} {e : Endpoint} {x : Method × Endpoint}
    (h : (ofEndpoint es e).served? = some x) : x.2 = e := by
  have houtcome : (ofEndpoint es e).outcome = .ok e := outcome_ofEndpoint
  cases hf : ofEndpoint es e with
  | served m e' =>
    rw [hf] at h houtcome
    cases h
    cases houtcome
    rfl
  | _ => simp [hf, served?] at h

namespace Generation

/-- The endpoints with a place in the document, in the order in which they are placed. -/
def servedEndpoints (es : List Endpoint) : List (Method × Endpoint) :=
  es.filterMap fun e => (Fate.ofEndpoint es e).served?

variable {make : Endpoint → Operation} {es done rest : List Endpoint} {before : List Skipped}
  {e : Endpoint} {s : Placement}

/-- An endpoint that gets its place brings its schemes, and one that is skipped brings none. -/
theorem Placed.schemes_add (h : Placed make (done ++ e :: rest) before done s)
    (hn : ((done ++ e :: rest).map (·.leaf.id)).Nodup) :
    (s.add make e).schemes =
      ((Fate.ofEndpoint (done ++ e :: rest) e).served?.toList.flatMap fun x =>
        x.2.security).foldl addScheme s.schemes := by
  unfold Placement.add
  cases hm : Method.ofName? e.method with
  | none =>
    rw [Fate.ofEndpoint_of_none hm]
    rfl
  | some m =>
    have hat : operationAt? s.paths m e.path = _ := h.first m e.path
    dsimp only
    change (if (operationAt? s.paths m e.path).isSome then _ else _ : Placement).schemes = _
    cases hd : done.find? (·.isFor m e.path) with
    | none =>
      rw [hat, hd, Option.map_none, Option.isSome_none, if_neg (by simp),
        Fate.ofEndpoint_of_first hm hd]
      simp [Fate.served?]
    | some first =>
      rw [hat, hd, Option.map_some, Option.isSome_some, if_pos rfl,
        Fate.ofEndpoint_of_later hn hm hd]
      rfl

theorem Placed.schemes_foldl_add (h : Placed make (done ++ rest) before done s)
    (hn : ((done ++ rest).map (·.leaf.id)).Nodup) :
    (rest.foldl (Placement.add make) s).schemes =
      ((rest.filterMap fun e => (Fate.ofEndpoint (done ++ rest) e).served?).flatMap fun x =>
        x.2.security).foldl addScheme s.schemes := by
  induction rest generalizing done s with
  | nil => rfl
  | cons e rest ih =>
    have hadd := h.schemes_add hn
    have hstep := h.add hn
    rw [List.append_cons] at hn hstep
    rw [List.foldl_cons, ih hstep hn, hadd, ← List.append_cons, List.filterMap_cons]
    cases (Fate.ofEndpoint (done ++ e :: rest) e).served? with
    | none => rfl
    | some x => simp

/-- The schemes of a placement are those of the endpoints that got their places. -/
theorem lookup_schemes_placement {outcomes : List Outcome} {n : String}
    (hd : Endpoint.duplicate? [] (sortedEndpoints outcomes) = none) :
    (placement make outcomes).schemes.lookup n =
      ((servedEndpoints (sortedEndpoints outcomes)).flatMap fun x => x.2.security).lookup n := by
  have h : (placement make outcomes).schemes =
      ((servedEndpoints (sortedEndpoints outcomes)).flatMap fun x =>
        x.2.security).foldl addScheme [] :=
    Placed.nil.schemes_foldl_add (Endpoint.duplicate?_eq_none.mp hd).1
  rw [h, lookup_foldl_addScheme]
  rfl

theorem map_servedEndpoints_sublist : ((servedEndpoints es).map Prod.snd).Sublist es := by
  have h : ((servedEndpoints es).map Prod.snd).Sublist (es.map id) :=
    map_filterMap_sublist (fun _ _ hx => Fate.eq_of_served? hx) es
  rwa [List.map_id] at h

end Generation

/-- What a document says of security comes of the endpoints that are served, in the order in which
they are placed. -/
structure Document.Secures (d : Document) (p : Program) (routes : List Route)
    (served : List (Method × Endpoint)) : Prop where
  operations : (d.operations.map fun o => (o.1, o.2.1, o.2.2.operationId, o.2.2.security)).Perm
    (served.map fun x => (x.1, x.2.path, x.2.leaf.id, x.2.security.map fun s => [(s.1, [])]))
  ordered : (served.map Prod.snd).Pairwise fun a b => Endpoint.le a b = true
  /-- An endpoint demands the first scheme of each name that the fields in its chain declare. -/
  chains : ∀ x ∈ served, ∃ r chain, Compiles (.ofProgram p) {} routes r chain ∧
    x.2 = .fold chain r.label ∧ (∀ op ∈ chain, op.Demands p) ∧
      ∀ n, x.2.security.lookup n = (chain.flatMap (·.security)).lookup n
  /-- The first endpoint that demands a scheme of a name decides what stands under this name. -/
  schemes : ∀ n, d.components.securitySchemes.lookup n =
    (served.flatMap fun x => x.2.security).lookup n
  locations : ∀ s ∈ d.components.securitySchemes, ∃ location ∈ LocatedField.keyLocations,
    s.2 = .apiKey s.1 location.text
  required : ∀ o ∈ d.operations, ∀ requirement ∈ o.2.2.security, ∃ n scheme,
    requirement = [(n, [])] ∧ d.components.securitySchemes.lookup n = some scheme
  /-- The scheme under a name is an endpoint's own exactly if it has the same location, and it
  always is where all endpoints that demand one of this name agree. -/
  own : ∀ x ∈ served, ∀ s ∈ x.2.security, ∃ scheme,
    d.components.securitySchemes.lookup s.1 = some scheme ∧
      (scheme = s.2 ↔ scheme.location = s.2.location) ∧
      ((∀ y ∈ served, ∀ s' ∈ y.2.security, s'.1 = s.1 → s'.2.location = s.2.location) →
        scheme = s.2)

/-- A chain demands only keys, which its operators demand. -/
theorem Endpoint.apiKey_of_mem_security {p : Program} {chain : List Operator} {label : String}
    (hd : ∀ op ∈ chain, op.Demands p) {s : String × SecurityScheme}
    (hs : s ∈ (fold chain label).security) :
    ∃ location ∈ LocatedField.keyLocations, s.2 = .apiKey s.1 location.text := by
  have hmem := (mem_or_mem_of_mem_foldl hs).resolve_left List.not_mem_nil
  obtain ⟨op, hop, hs⟩ := List.mem_flatMap.mp hmem
  exact (hd op hop).apiKey hs

section Lookups

variable {table : List (String × SecurityScheme)} {served : List (Method × Endpoint)}
  {x : Method × Endpoint} {s : String × SecurityScheme}
  (schemes : ∀ n, table.lookup n = (served.flatMap fun x => x.2.security).lookup n)
  (keys : ∀ x ∈ served, ∀ s ∈ x.2.security, ∃ location ∈ LocatedField.keyLocations,
    s.2 = .apiKey s.1 location.text)

include schemes

/-- Every scheme that is found under a name is one that an endpoint demands. -/
theorem exists_mem_security {n : String} {scheme : SecurityScheme}
    (h : table.lookup n = some scheme) : ∃ x ∈ served, (n, scheme) ∈ x.2.security := by
  rw [schemes] at h
  exact List.mem_flatMap.mp (mem_of_lookup h)

/-- Under every name that an endpoint demands a scheme of one is found. -/
theorem exists_lookup_schemes (hx : x ∈ served) (hs : s ∈ x.2.security) :
    ∃ scheme, table.lookup s.1 = some scheme := by
  refine Option.ne_none_iff_exists'.mp fun hnone => ?_
  rw [schemes] at hnone
  exact lookup_eq_none_iff.mp hnone
    (List.mem_map_of_mem (List.mem_flatMap.mpr ⟨x, hx, hs⟩))

include keys

/-- Two schemes of one name differ in their locations only. -/
theorem lookup_eq_iff (hx : x ∈ served) (hs : s ∈ x.2.security) {scheme : SecurityScheme}
    (h : table.lookup s.1 = some scheme) : scheme = s.2 ↔ scheme.location = s.2.location := by
  obtain ⟨y, hy, hmem⟩ := exists_mem_security schemes h
  obtain ⟨first, -, hfirst⟩ := keys y hy _ hmem
  obtain ⟨own, -, hown⟩ := keys x hx s hs
  have hfirst : scheme = .apiKey s.1 first.text := hfirst
  rw [hfirst, hown]
  constructor
  · exact fun heq => heq ▸ rfl
  · intro hlocation
    have hlocation : first.text = own.text := hlocation
    rw [hlocation]

end Lookups

namespace Generation

/-- What a generated document says of security comes of the chains that are served. -/
theorem ofProgram_secures {p : Program} {config : Config} {g : Generation}
    (h : ofProgram p config = .ok g) :
    ∃ tree served, RouteTree.ofProgram p config.entryPoints = .ok tree ∧
      g.document.Secures p tree.routes served := by
  have hincreasing := (kept_document h).securitySchemes
  obtain ⟨tree, s', ht, hr⟩ := ofProgram_eq_ok.mp h
  obtain ⟨outcomes, s₁, schema, hs, hd, -, rfl⟩ := runOn_ofRoutes_eq_ok.mp hr
  have chains : ∀ x ∈ servedEndpoints (sortedEndpoints outcomes), ∃ r chain,
      Compiles (.ofProgram p) {} tree.routes r chain ∧ x.2 = .fold chain r.label := fun x hx => by
    obtain ⟨r, hr⟩ := mem_sortedEndpoints.mp
      (map_servedEndpoints_sublist.subset (List.mem_map_of_mem hx))
    exact ⟨r, hs.exists_compiles hr⟩
  have keys : ∀ x ∈ servedEndpoints (sortedEndpoints outcomes), ∀ s ∈ x.2.security,
      ∃ location ∈ LocatedField.keyLocations, s.2 = .apiKey s.1 location.text := fun x hx => by
    obtain ⟨r, chain, hc, heq⟩ := chains x hx
    rw [heq]
    exact fun s hs => Endpoint.apiKey_of_mem_security hc.demands hs
  have schemes : ∀ n, (placement (operation schema (ErrorFormatter.detect? p))
      outcomes).schemes.lookup n = ((servedEndpoints (sortedEndpoints outcomes)).flatMap fun x =>
        x.2.security).lookup n := fun n => lookup_schemes_placement hd
  have operations : (operationsOn (placement (operation schema (ErrorFormatter.detect? p))
      outcomes).paths).Perm ((servedEndpoints (sortedEndpoints outcomes)).map fun x =>
        (x.1, x.2.path, operation schema (ErrorFormatter.detect? p) x.2)) := by
    simpa only [Fate.operation?_eq_map, servedEndpoints, List.map_filterMap] using
      (placed_placement hd).operations
  refine ⟨tree, servedEndpoints (sortedEndpoints outcomes), ht, ?_, ?_, fun x hx => ?_, schemes,
    fun s hs => ?_, fun o ho requirement hrequirement => ?_, fun x hx s hs => ?_⟩
  · have hops := operations.map fun o => (o.1, o.2.1, o.2.2.operationId, o.2.2.security)
    rw [List.map_map] at hops
    exact hops
  · exact pairwise_sortedEndpoints.sublist map_servedEndpoints_sublist
  · obtain ⟨r, chain, hc, heq⟩ := chains x hx
    refine ⟨r, chain, hc, heq, hc.demands, fun n => ?_⟩
    rw [heq]
    exact Endpoint.lookup_foldl_addScheme
  · obtain ⟨x, hx, hmem⟩ := exists_mem_security schemes (lookup_of_mem hincreasing.nodup hs)
    exact keys x hx s hmem
  · obtain ⟨x, hx, rfl⟩ := List.mem_map.mp (operations.mem_iff.mp ho)
    obtain ⟨s, hs, rfl⟩ := List.mem_map.mp hrequirement
    obtain ⟨scheme, hscheme⟩ := exists_lookup_schemes schemes hx hs
    exact ⟨s.1, scheme, rfl, hscheme⟩
  · obtain ⟨scheme, hscheme⟩ := exists_lookup_schemes schemes hx hs
    have hiff := lookup_eq_iff schemes keys hx hs hscheme
    refine ⟨scheme, hscheme, hiff, fun hagree => hiff.mpr ?_⟩
    obtain ⟨y, hy, hmem⟩ := exists_mem_security schemes hscheme
    exact hagree y hy _ hmem rfl

section Tokens

open Source

/-- A field for a token that is marked for security. -/
def tokenField (location : String) : Field where
  attrs := [⟨{ segments := ["param"] },
    .list [.ident location, .punct ',' false, .ident "name", .punct '=' false,
      .literal "\"token\"", .punct ',' false, .ident "security"]⟩]
  exported := true
  name := some "token"
  type := .path ["String"] []

/-- An operator with a path that reads a token. -/
def tokenReader (name location : String) : Declared StructItem :=
  structOf name (.named [tokenField location])

/-- Two operators that read tokens of one name. -/
def tokenReaders (first second : String) : Program where
  structs := [tokenReader "First" first, tokenReader "Second" second]
  fns := serving [pathOf ["First"], pathOf ["Second"]] ::
    ["First", "Second"].map fun name =>
      methodIn name "path" [.expr [] (.lit (.str ("/" ++ name))) false]

/-- Where both operators agree on the location, the scheme has it. -/
theorem ofProgram_secures_tokenReaders : ∃ g,
    ofProgram (tokenReaders "header" "header") {} = .ok g ∧
    g.document.operations.map (fun o => (o.2.1, o.2.2.security)) =
      [("/items/First", [[("token", [])]]), ("/items/Second", [[("token", [])]])] ∧
    ∃ tree served,
      RouteTree.ofProgram (tokenReaders "header" "header") ["main", "init"] = .ok tree ∧
      g.document.Secures (tokenReaders "header" "header") tree.routes served := by
  obtain ⟨g, hg, hops⟩ : ∃ g, ofProgram (tokenReaders "header" "header") {} = .ok g ∧
      (g.document.operations.map (fun o => (o.2.1, o.2.2.security)) ==
        [("/items/First", [[("token", [])]]), ("/items/Second", [[("token", [])]])]) = true :=
    exists_ofProgram_of_inOrder? (by decide +kernel)
  exact ⟨g, hg, eq_of_beq hops, ofProgram_secures hg⟩

/-- The second of two operators reads its token in the query, and the scheme that it demands stands
in a header. -/
theorem scheme_elsewhere : ∃ g, ofProgram (tokenReaders "header" "query") {} = .ok g ∧
    (∃ o ∈ g.document.operations, o.2.1 = "/items/Second" ∧
      o.2.2.security = [[("token", [])]]) ∧
    g.document.components.securitySchemes.lookup "token" = some (.apiKey "token" "header") ∧
    (LocatedField.all (tokenReaders "header" "query") "Second"
      (tokenReader "Second" "query")).toOption.map (·.filterMap LocatedField.scheme?) =
        some [("token", .apiKey "token" "query")] := by
  obtain ⟨g, hg, hseen⟩ : ∃ g, ofProgram (tokenReaders "header" "query") {} = .ok g ∧
      ((g.document.operations.any fun o =>
        o.2.1 == "/items/Second" && o.2.2.security == [[("token", [])]]) &&
      g.document.components.securitySchemes.lookup "token" ==
        some (.apiKey "token" "header")) = true :=
    exists_ofProgram_of_inOrder? (by decide +kernel)
  simp only [Bool.and_eq_true, List.any_eq_true, beq_iff_eq] at hseen
  exact ⟨g, hg, hseen.1, hseen.2, by decide +kernel⟩

end Tokens

end Generation

end ServiceContract
