import ServiceContract.Document.Generate
import Mathlib.Data.List.Nodup
import Mathlib.Tactic.Tauto

/-! # The survey of the routes

The routes are compiled one after the other, on one state. Every route that does not end in a
group has one outcome: its endpoint, or the error of an operator that costs only this route.
-/

namespace ServiceContract

theorem Endpoint.duplicate?_eq_none {seen : List (String × String)} {es : List Endpoint} :
    duplicate? seen es = none ↔
      (es.map (·.leaf.id)).Nodup ∧ (es.map (·.leaf.id)).Disjoint (seen.map Prod.fst) := by
  induction es generalizing seen with
  | nil => simp [duplicate?]
  | cons e rest ih =>
    unfold duplicate?
    simp only [List.map_cons, List.nodup_cons, List.disjoint_cons_left]
    split
    · next h =>
      have hm := mem_keys_of_lookup h
      simp [hm]
    · next h =>
      rw [ih, List.map_cons, List.disjoint_cons_right]
      have hm := lookup_eq_none_iff.mp h
      tauto

/-- Whether the operator at the end is a group. -/
def Route.endsInGroup (r : Route) : Bool := r.leaf?.any OperatorRef.isGroup

/-- A route with its endpoint or the error that it is skipped for. -/
abbrev Outcome := Route × Except Error Endpoint

namespace Outcome

/-- The endpoint of a route that compiles. -/
def endpoint? (o : Outcome) : Option Endpoint := o.2.toOption

/-- The report of a route that does not compile. -/
def report? (o : Outcome) : Option Skipped :=
  match o.2 with
  | .ok _ => none
  | .error e => some ⟨o.1.label, e.message⟩

@[simp] theorem endpoint?_ok (r : Route) (e : Endpoint) : endpoint? (r, .ok e) = some e := rfl

@[simp] theorem endpoint?_error (r : Route) (e : Error) : endpoint? (r, .error e) = none := rfl

@[simp] theorem report?_ok (r : Route) (e : Endpoint) : report? (r, .ok e) = none := rfl

@[simp] theorem report?_error (r : Route) (e : Error) :
    report? (r, .error e) = some ⟨r.label, e.message⟩ := rfl

end Outcome

/-- From one state to another, routes are compiled one after the other. -/
inductive Surveys (search : ErrorSearch) :
    CompilerState → List Route → List Outcome → CompilerState → Prop
  | nil {s} : Surveys search s [] [] s
  | group {s s' r rs os} : r.endsInGroup = true → Surveys search s rs os s' →
      Surveys search s (r :: rs) os s'
  | compiled {s s₁ s' r chain rs os} : r.endsInGroup = false →
      (r.chain.mapM (Operator.compile search)).runOn s = (.ok chain, s₁) →
      Surveys search s₁ rs os s' →
      Surveys search s (r :: rs) ((r, .ok (.fold chain r.label)) :: os) s'
  | failed {s s₁ s' r e rs os} : r.endsInGroup = false →
      (r.chain.mapM (Operator.compile search)).runOn s = (.error e, s₁) → e.isFatal = false →
      Surveys search s₁ rs os s' →
      Surveys search s (r :: rs) ((r, .error e) :: os) s'

namespace Generation

variable {search : ErrorSearch} {s s₁ s' : CompilerState} {r : Route} {routes : List Route}
  {found found' : List Endpoint} {skipped skipped' : List Skipped} {outcomes : List Outcome}

theorem endpoints_group (h : r.endsInGroup = true) :
    endpoints search skipped found (r :: routes) = endpoints search skipped found routes := by
  rw [Route.endsInGroup] at h
  simp [endpoints, h]

theorem runOn_endpoints_cons (h : r.endsInGroup = false) :
    (endpoints search skipped found (r :: routes)).runOn s =
      match (r.chain.mapM (Operator.compile search)).runOn s with
      | (.ok chain, s) =>
        (endpoints search skipped (found ++ [.fold chain r.label]) routes).runOn s
      | (.error e, s) =>
        if e.isFatal then (.error e, s)
        else (endpoints search (skipped ++ [⟨r.label, e.message⟩]) found routes).runOn s := by
  rw [Route.endsInGroup] at h
  simp only [endpoints, h, Bool.false_eq_true, if_false, Work.runOn_bind, Work.runOn_observing]
  rcases (r.chain.mapM (Operator.compile search)).runOn s with ⟨e | chain, s₁⟩
  · dsimp only
    split <;> rfl
  · rfl

/-- Endpoints are found exactly by a survey: what is found comes behind what was, and so does
what is skipped. -/
theorem runOn_endpoints_eq_ok :
    (endpoints search skipped found routes).runOn s = (.ok (found', skipped'), s') ↔
      ∃ outcomes, Surveys search s routes outcomes s' ∧
        found' = found ++ outcomes.filterMap Outcome.endpoint? ∧
        skipped' = skipped ++ outcomes.filterMap Outcome.report? := by
  constructor
  · intro h
    induction routes generalizing s found skipped with
    | nil =>
      cases h
      exact ⟨[], .nil, by simp, by simp⟩
    | cons r rs ih =>
      cases hg : r.endsInGroup with
      | true =>
        rw [endpoints_group hg] at h
        obtain ⟨os, hs, hf, hk⟩ := ih h
        exact ⟨os, .group hg hs, hf, hk⟩
      | false =>
        rw [runOn_endpoints_cons hg] at h
        rcases hc : (r.chain.mapM (Operator.compile search)).runOn s with ⟨e | chain, s₁⟩
        · rw [hc] at h
          cases he : e.isFatal with
          | true => simp [he] at h
          | false =>
            obtain ⟨os, hs, rfl, rfl⟩ := ih (by simpa [he] using h)
            exact ⟨_, .failed hg hc he hs, by simp [List.filterMap_cons], by simp⟩
        · rw [hc] at h
          obtain ⟨os, hs, rfl, rfl⟩ := ih h
          exact ⟨_, .compiled hg hc hs, by simp, by simp [List.filterMap_cons]⟩
  · rintro ⟨outcomes, h, rfl, rfl⟩
    induction h generalizing found skipped with
    | nil => simp [endpoints]
    | group hg _ ih => rw [endpoints_group hg, ih]
    | compiled hg hc _ ih =>
      rw [runOn_endpoints_cons hg, hc]
      simp [ih, List.filterMap_cons]
    | failed hg hc he _ ih =>
      rw [runOn_endpoints_cons hg, hc]
      simp [he, ih, List.filterMap_cons]

/-- The endpoints of routes that compile, in the order in which they are placed. -/
def sortedEndpoints (outcomes : List Outcome) : List Endpoint :=
  (outcomes.filterMap Outcome.endpoint?).mergeSort Endpoint.le

theorem mem_endpoints_iff {e : Endpoint} :
    e ∈ outcomes.filterMap Outcome.endpoint? ↔ ∃ r, (r, .ok e) ∈ outcomes := by
  rw [List.mem_filterMap]
  constructor
  · rintro ⟨⟨r, e' | e'⟩, ho, he⟩ <;> simp at he
    exact ⟨r, he ▸ ho⟩
  · exact fun ⟨r, ho⟩ => ⟨_, ho, rfl⟩

theorem mem_sortedEndpoints {e : Endpoint} :
    e ∈ sortedEndpoints outcomes ↔ ∃ r, (r, .ok e) ∈ outcomes :=
  List.mem_mergeSort.trans mem_endpoints_iff

/-- The placement of the endpoints, behind the routes that do not compile. -/
def placement (make : Endpoint → Operation) (outcomes : List Outcome) : Placement :=
  (sortedEndpoints outcomes).foldl (Placement.add make)
    { skipped := outcomes.filterMap Outcome.report? }

/-- What is generated is the placement after a survey without duplicate identifiers. -/
theorem runOn_ofRoutes_eq_ok {p : Program} {config : Config} {g : Generation} :
    (ofRoutes p config routes).runOn s = (.ok g, s') ↔
      ∃ outcomes s₁ schema, Surveys (.ofProgram p) s routes outcomes s₁ ∧
        Endpoint.duplicate? [] (sortedEndpoints outcomes) = none ∧
        (responseSchema p (ErrorFormatter.detect? p) (sortedEndpoints outcomes)).runOn s₁ =
          (.ok schema, s') ∧
        let placed := placement (operation schema (ErrorFormatter.detect? p)) outcomes
        g = ⟨assemble config placed s'.table.components, placed.skipped⟩ := by
  unfold ofRoutes
  simp only [Work.runOn_bind_eq_ok]
  constructor
  · rintro ⟨⟨found, skipped⟩, s₁, he, h⟩
    obtain ⟨outcomes, hs, rfl, rfl⟩ := runOn_endpoints_eq_ok.mp he
    simp only [List.nil_append] at h
    cases hd : Endpoint.duplicate? [] (sortedEndpoints outcomes) with
    | some e =>
      rw [sortedEndpoints] at hd
      simp [hd] at h
    | none =>
      refine ⟨outcomes, s₁, ?_⟩
      rw [sortedEndpoints] at hd
      rw [hd] at h
      obtain ⟨schema, s₂, hr, h⟩ := Work.runOn_bind_eq_ok.mp h
      cases h
      exact ⟨schema, hs, hd, hr, rfl⟩
  · rintro ⟨outcomes, s₁, schema, hs, hd, hr, rfl⟩
    refine ⟨_, s₁, runOn_endpoints_eq_ok.mpr ⟨outcomes, hs, rfl, rfl⟩, ?_⟩
    rw [sortedEndpoints] at hd hr
    simp only [List.nil_append, hd]
    exact Work.runOn_bind_eq_ok.mpr ⟨schema, s', hr, rfl⟩

theorem ofProgram_eq_ok {p : Program} {config : Config} {g : Generation} :
    ofProgram p config = .ok g ↔ ∃ tree s', RouteTree.ofProgram p config.entryPoints = .ok tree ∧
      (ofRoutes p config tree.routes).runOn {} = (.ok g, s') := by
  change (RouteTree.ofProgram p config.entryPoints).bind _ = _ ↔ _
  cases RouteTree.ofProgram p config.entryPoints with
  | error e => simp [Except.bind]
  | ok tree =>
    constructor
    · exact fun h => ⟨tree, _, rfl, Prod.ext h rfl⟩
    · rintro ⟨_, s', ht, hr⟩
      cases ht
      exact congrArg Prod.fst hr

/-- Generates from routes and endpoints if they come in order, so that nothing has to be sorted. -/
def inOrder? (p : Program) (config : Config) : Option (Except Error Generation) :=
  match RouteTree.ofProgram p config.entryPoints with
  | .error e => some (.error e)
  | .ok tree =>
    let routes := tree.routesUnder (tree.forest.size + 1) [] tree.root
    if routes.Pairwise (Route.le · ·) then
      match (endpoints (.ofProgram p) [] [] routes).runOn {} with
      | (.error e, _) => some (.error e)
      | (.ok (found, skipped), s) =>
        if found.Pairwise (Endpoint.le · ·) then
          match Endpoint.duplicate? [] found with
          | some e => some (.error e)
          | none =>
            let formatter := ErrorFormatter.detect? p
            match (responseSchema p formatter found).runOn s with
            | (.error e, _) => some (.error e)
            | (.ok schema, s) =>
              let placed := found.foldl (Placement.add (operation schema formatter)) { skipped }
              some (.ok ⟨assemble config placed s.table.components, placed.skipped⟩)
        else none
    else none

theorem ofProgram_of_inOrder? {p : Program} {config : Config} {r : Except Error Generation}
    (h : inOrder? p config = some r) : ofProgram p config = r := by
  unfold inOrder? at h
  change (RouteTree.ofProgram p config.entryPoints).bind _ = r
  split at h
  · next e ht =>
    cases h
    rw [ht]
    rfl
  · next tree ht =>
    rw [ht]
    change ((ofRoutes p config tree.routes).runOn {}).1 = r
    dsimp only at h
    split at h
    · next hroutes =>
      rw [RouteTree.routes, List.mergeSort_of_pairwise hroutes]
      simp only [ofRoutes, Work.runOn_bind]
      split at h
      · next e s he =>
        cases h
        rw [he]
      · next found skipped s he =>
        rw [he]
        split at h
        · next hfound =>
          dsimp only
          rw [List.mergeSort_of_pairwise hfound]
          cases hd : Endpoint.duplicate? [] found with
          | some e =>
            rw [hd] at h
            cases h
            rfl
          | none =>
            rw [hd] at h
            dsimp only at h ⊢
            rw [Work.runOn_bind]
            rcases hs : (responseSchema p (ErrorFormatter.detect? p) found).runOn s with
              ⟨e | schema, s'⟩ <;> rw [hs] at h <;> cases h <;> rfl
        · cases h
    · cases h

/-- What is seen of what is generated in order is true of the generated document. -/
theorem exists_ofProgram_of_inOrder? {p : Program} {config : Config} {P : Generation → Bool}
    (h : (inOrder? p config).any (fun r => r.toOption.any P) = true) :
    ∃ g, ofProgram p config = .ok g ∧ P g = true := by
  obtain ⟨r, hr, hP⟩ := (Option.any_eq_true _ _).mp h
  obtain ⟨g, hg, hP⟩ := (Option.any_eq_true _ _).mp hP
  cases r with
  | error e => cases hg
  | ok g' =>
    cases hg
    exact ⟨g, ofProgram_of_inOrder? hr, hP⟩

theorem ofProgram_eq_error_of_inOrder? {p : Program} {config : Config} {e : Error}
    (h : (inOrder? p config).any (fun
      | .error e' => e' == e
      | .ok _ => false) = true) :
    ofProgram p config = .error e := by
  obtain ⟨r, hr, he⟩ := (Option.any_eq_true _ _).mp h
  cases r with
  | error e' => exact beq_iff_eq.mp he ▸ ofProgram_of_inOrder? hr
  | ok g => cases he

end Generation

namespace Surveys

variable {search : ErrorSearch} {s s' : CompilerState} {routes : List Route}
  {outcomes : List Outcome}

/-- The routes with an outcome are those that do not end in a group, in their order. -/
theorem map_fst (h : Surveys search s routes outcomes s') :
    outcomes.map Prod.fst = routes.filter fun r => !r.endsInGroup := by
  induction h with
  | nil => rfl
  | group hg _ ih => simpa [hg] using ih
  | compiled hg _ _ ih => simpa [hg] using ih
  | failed hg _ _ _ ih => simpa [hg] using ih

/-- An endpoint has the label of its route. -/
theorem label_eq (h : Surveys search s routes outcomes s') {r : Route} {e : Endpoint}
    (he : (r, .ok e) ∈ outcomes) : e.label = r.label := by
  induction h with
  | nil => simp at he
  | group _ _ ih => exact ih he
  | compiled _ _ _ ih =>
    rcases List.mem_cons.mp he with he | he
    · cases he
      rfl
    · exact ih he
  | failed _ _ _ _ ih => exact ih (by simpa using he)

end Surveys

section Shop

open Source Generation

def pathOf (segments : List String) : Expr := .path { segments } []

def routerOf (e : Expr) : Expr := .call (pathOf ["Router", "new"]) [e]

def groupOf (path : String) : Expr := .call (pathOf ["Group", "new"]) [.lit (.str path)]

def structOf (name : String) (fields : Fields) : Declared StructItem :=
  ⟨[], { attrs := [], name, typeParams := [], fields }⟩

def itemType : TypeExpr := .path ["Item"] []

/-- Registers scopes under a group and serves it. -/
def serving (scopes : List Expr) : FnDecl where
  key := "main"
  module := []
  selfType := none
  owner := none
  item :=
    { attrs := [], name := "main", params := [], output := none
      body :=
        .binding (.name "root") [] (some (routerOf (groupOf "/items"))) none ::
          ((scopes.map fun scope =>
              .expr [] (.methodCall (pathOf ["root"]) "register" [] [] [routerOf scope]) true) ++
            [.expr [] (.call (pathOf ["serve"]) [pathOf ["root"]]) true]) }

/-- Under a group there are an operator with a field that has no location, another group, two
operators for one place, the first of which answers with a type that mentions itself, and an
operator for a method that documents do not have. -/
def shop : Program where
  structs :=
    [structOf "GetItem" (.named [⟨[], true, some "id", .path ["u64"] []⟩]),
     structOf "ListItems" .unit,
     structOf "Search" .unit,
     structOf "Item" (.named
       [⟨[], true, some "next", .path ["Option"] [.path ["Box"] [itemType]]⟩]),
     ⟨[],
      { attrs := [⟨{ segments := ["operator"] },
          .list [.ident "method", .punct '=' false, .literal "\"LINK\""]⟩]
        name := "WatchItems", typeParams := [], fields := .unit }⟩]
  fns :=
    [{ key := "ListItems::output", module := [], selfType := some "ListItems"
       owner := some "ListItems"
       item :=
        { attrs := [], name := "output", params := [.receiver]
          output := some (.path ["Json"] [itemType]), body := [] } },
     serving [pathOf ["GetItem"], groupOf "/none", pathOf ["ListItems"], pathOf ["Search"],
      pathOf ["WatchItems"]]]

/-- There is a document of the shop. -/
theorem exists_ofProgram_shop : ∃ g, Generation.ofProgram shop {} = .ok g :=
  have ⟨g, hg, _⟩ := exists_ofProgram_of_inOrder? (P := fun _ => true) (by decide +kernel)
  ⟨g, hg⟩

end Shop

end ServiceContract
