import ServiceContract.Proofs.Route.Order
import Mathlib.Logic.Function.Iterate

/-! # Where routes end

Going down from a scope through those under it comes to each scope in one way at most, as going up
from it does. So every scope at an end is the end of one route, and visiting the scopes from a list
of those that are still to be visited finds them all.
-/

namespace ServiceContract

namespace ScopeForest

/-- The scopes on the way from a scope down to another one, both included. -/
inductive Descends (f : ScopeForest) : ScopeId → List ScopeId → ScopeId → Prop
  | here {id} : Descends f id [id] id
  | down {id c ids e} : c ∈ (f.scope id).children → Descends f c ids e →
      Descends f id (id :: ids) e

/-- The operators of some scopes, one after the other. -/
def operatorsAlong (f : ScopeForest) (ids : List ScopeId) : List OperatorRef :=
  ids.flatMap fun id => (f.scope id).operators

/-- A scope with operators and without other scopes under it. -/
def EndsRoute (f : ScopeForest) (id : ScopeId) : Prop :=
  (f.scope id).children = [] ∧ (f.scope id).operators ≠ []

/-- The ends in or under a scope with the ways down to them, as far as a depth. -/
def endsUnder (f : ScopeForest) : Nat → ScopeId → List (ScopeId × List ScopeId)
  | 0, _ => []
  | n + 1, id =>
    let scope := f.scope id
    if scope.children.isEmpty then if scope.operators.isEmpty then [] else [(id, [id])]
    else (scope.children.flatMap (f.endsUnder n)).map fun e => (e.1, id :: e.2)

variable {f : ScopeForest} {id e c : ScopeId} {ids ids' above : List ScopeId} {n : Nat}

@[simp] theorem operatorsAlong_nil : f.operatorsAlong [] = [] := rfl

@[simp] theorem operatorsAlong_cons :
    f.operatorsAlong (id :: ids) = (f.scope id).operators ++ f.operatorsAlong ids := rfl

section Descending

theorem Descends.exists_cons (h : f.Descends id ids e) : ∃ rest, ids = id :: rest := by
  cases h with
  | here => exact ⟨[], rfl⟩
  | down _ _ => exact ⟨_, rfl⟩

/-- Behind the operators of the scopes above it stand those of a scope itself. -/
theorem Descends.operatorsAlong_suffix (h : f.Descends id ids e) :
    (f.scope e).operators <:+ f.operatorsAlong ids := by
  induction h with
  | here => simp
  | down _ _ ih => exact ih.trans (List.suffix_append _ _)

theorem descends_of_children_eq_nil (hc : (f.scope id).children = []) :
    f.Descends id ids e ↔ ids = [id] ∧ e = id := by
  constructor
  · intro h
    cases h with
    | here => exact ⟨rfl, rfl⟩
    | down hmem _ =>
      rw [hc] at hmem
      cases hmem
  · rintro ⟨rfl, rfl⟩
    exact .here

/-- The way down to a scope is the lower part of the way up from it. -/
theorem Descends.climbs (hf : f.IsForest) (h : f.Descends id ids e) (ha : f.Climbs id above) :
    f.Climbs e (ids.reverse ++ above.tail) := by
  induction h generalizing above with
  | @here id => cases ha with
    | top hn => exact .top hn
    | up hs hr => exact .up hs hr
  | @down id c ids e hc _ ih =>
    have hup : f.Climbs c (c :: above) := .up ((hf.mem_children_iff _ _).mp hc) ha
    have hclimbs := ih hup
    obtain ⟨rest, rfl⟩ : ∃ rest, above = id :: rest := by cases ha <;> exact ⟨_, rfl⟩
    simpa using hclimbs

theorem Descends.unique (hf : f.IsForest) (h : f.Descends id ids e) (h' : f.Descends id ids' e) :
    ids = ids' := by
  obtain ⟨above, ha, -⟩ := hf.climbs id
  exact List.reverse_injective
    (List.append_cancel_right ((h.climbs hf ha).unique (h'.climbs hf ha)))

theorem Descends.length_le (hf : f.IsForest) (h : f.Descends id ids e) :
    ids.length ≤ f.size + 1 := by
  obtain ⟨above, ha, -⟩ := hf.climbs id
  have hle := hf.length_le (h.climbs hf ha)
  simp only [List.length_append, List.length_reverse] at hle
  omega

end Descending

section Ends

theorem mem_endsUnder : (e, ids) ∈ f.endsUnder n id ↔
    f.Descends id ids e ∧ f.EndsRoute e ∧ ids.length ≤ n := by
  induction n generalizing id ids with
  | zero =>
    simp only [endsUnder, List.not_mem_nil, false_iff]
    rintro ⟨h, -, hlen⟩
    obtain ⟨rest, rfl⟩ := h.exists_cons
    cases hlen
  | succ n ih =>
    simp only [endsUnder, List.isEmpty_iff]
    split
    · next hc =>
      rw [descends_of_children_eq_nil hc]
      by_cases ho : (f.scope id).operators = []
      · simp only [ho, if_true, List.not_mem_nil, false_iff]
        rintro ⟨⟨rfl, rfl⟩, he, -⟩
        exact he.2 ho
      · simp only [ho, if_false, List.mem_singleton, Prod.mk.injEq]
        constructor
        · rintro ⟨rfl, rfl⟩
          exact ⟨⟨rfl, rfl⟩, ⟨hc, ho⟩, by simp⟩
        · exact fun h => h.1.symm
    · next hc =>
      simp only [List.mem_map, List.mem_flatMap, Prod.exists, Prod.mk.injEq]
      constructor
      · rintro ⟨_, below, ⟨c, hmem, hbelow⟩, rfl, rfl⟩
        obtain ⟨h, he, hlen⟩ := ih.mp hbelow
        exact ⟨.down hmem h, he, Nat.succ_le_succ hlen⟩
      · rintro ⟨h, he, hlen⟩
        cases h with
        | here => exact absurd he.1 hc
        | @down _ c below _ hmem h =>
          exact ⟨e, below, ⟨c, hmem, ih.mpr ⟨h, he, Nat.le_of_succ_le_succ hlen⟩⟩, rfl, rfl⟩

/-- Every end is found only once. -/
theorem nodup_endsUnder (hf : f.IsForest) : (f.endsUnder n id).Nodup := by
  induction n generalizing id with
  | zero => exact List.nodup_nil
  | succ n ih =>
    simp only [endsUnder]
    split
    · split
      · exact List.nodup_nil
      · exact List.nodup_singleton _
    · refine List.Nodup.map (fun a b h => ?_) (List.nodup_flatMap.mpr ⟨fun c _ => ih, ?_⟩)
      · simpa [Prod.ext_iff] using h
      · -- Ways that start with different scopes are different.
        refine (hf.nodup id).imp fun {c d} hne => ?_
        rintro ⟨e, ids⟩ hc hd
        obtain ⟨_, rfl⟩ := (mem_endsUnder.mp hc).1.exists_cons
        obtain ⟨_, h⟩ := (mem_endsUnder.mp hd).1.exists_cons
        exact hne (List.cons_eq_cons.mp h).1

/-- No two ways that are found lead to one end. -/
theorem nodup_map_endsUnder (hf : f.IsForest) : ((f.endsUnder n id).map Prod.fst).Nodup := by
  refine List.Nodup.map_on ?_ (nodup_endsUnder hf)
  rintro ⟨e, ids⟩ h ⟨_, ids'⟩ h' rfl
  rw [(mem_endsUnder.mp h).1.unique hf (mem_endsUnder.mp h').1]

end Ends

end ScopeForest

namespace Route

variable {a b c : Route}

/-- The order of routes is that of the lists of their texts. -/
theorem le_iff : a.le b = true ↔ ¬b.texts < a.texts := by
  rw [le, Bool.not_eq_true', decide_eq_false_iff_not]

theorem le_trans (hab : a.le b) (hbc : b.le c) : a.le c := by
  rw [le_iff] at *
  exact List.le_trans hab hbc

theorem le_total (a b : Route) : a.le b || b.le a := by
  rw [Bool.or_eq_true, le_iff, le_iff]
  exact List.le_total _ _

end Route

namespace RouteTree

variable {t : RouteTree} {id : ScopeId} {above : List OperatorRef} {n : Nat}

theorem routesUnder_eq_map : t.routesUnder n above id =
    (t.forest.endsUnder n id).map fun e => ⟨above ++ t.forest.operatorsAlong e.2⟩ := by
  induction n generalizing above id with
  | zero => rfl
  | succ n ih =>
    simp only [routesUnder, ScopeForest.endsUnder]
    split
    · split <;> simp
    · rw [List.map_map, List.map_flatMap]
      refine congrArg (List.flatMap · _) (funext fun c => ?_)
      simp [ih]

/-- The scopes that are still to be visited, with the operators above them, and the routes that
have been found. -/
structure Visits where
  pending : List (ScopeId × List OperatorRef)
  found : List Route := []

/-- Visits the scope that is to be visited next. -/
def visit (t : RouteTree) : Visits → Visits
  | ⟨[], found⟩ => ⟨[], found⟩
  | ⟨(id, above) :: rest, found⟩ =>
    let scope := t.forest.scope id
    let chain := above ++ scope.operators
    if scope.children.isEmpty then
      ⟨rest, if scope.operators.isEmpty then found else found ++ [⟨chain⟩]⟩
    else ⟨scope.children.map (·, chain) ++ rest, found⟩

/-- Scopes are done with before those that come behind them, within a depth that no way down
exceeds. -/
theorem exists_visits (hdepth : ∀ ids e, t.forest.Descends id ids e → ids.length ≤ n)
    (above : List OperatorRef) (rest : List (ScopeId × List OperatorRef)) (found : List Route) :
    ∃ rounds, t.visit^[rounds] ⟨(id, above) :: rest, found⟩ =
      ⟨rest, found ++ t.routesUnder n above id⟩ := by
  induction n generalizing id above rest found with
  | zero => exact absurd (hdepth _ _ .here) (by simp)
  | succ n ih =>
    have hbelow : ∀ cs ⊆ (t.forest.scope id).children, ∀ chain rest found,
        ∃ rounds, t.visit^[rounds] ⟨cs.map (·, chain) ++ rest, found⟩ =
          ⟨rest, found ++ cs.flatMap (t.routesUnder n chain)⟩ := by
      intro cs hcs chain rest found
      induction cs generalizing found with
      | nil => exact ⟨0, by simp⟩
      | cons c cs ihcs =>
        obtain ⟨hc, hcs⟩ := List.cons_subset.mp hcs
        obtain ⟨first, hfirst⟩ := ih
          (fun ids e h => Nat.le_of_succ_le_succ (hdepth _ _ (.down hc h)))
          chain (cs.map (·, chain) ++ rest) found
        obtain ⟨others, hothers⟩ := ihcs hcs (found ++ t.routesUnder n chain c)
        refine ⟨others + first, ?_⟩
        rw [Function.iterate_add_apply, List.map_cons, List.cons_append, hfirst, hothers]
        simp
    simp only [routesUnder]
    by_cases hc : (t.forest.scope id).children.isEmpty
    · refine ⟨1, ?_⟩
      simp only [Function.iterate_one, visit, hc, if_true]
      split <;> simp
    · obtain ⟨rounds, h⟩ := hbelow _ (List.Subset.refl _) (above ++ (t.forest.scope id).operators)
        rest found
      refine ⟨rounds + 1, ?_⟩
      simp only [Function.iterate_succ_apply, visit, if_neg hc]
      exact h

/-- Every route has an operator at its end. -/
theorem exists_leaf {r : Route} (h : r ∈ t.routes) : ∃ op, r.leaf? = some op := by
  rw [routes, List.mem_mergeSort, routesUnder_eq_map] at h
  obtain ⟨⟨e, ids⟩, he, rfl⟩ := List.mem_map.mp h
  obtain ⟨hway, hend, -⟩ := ScopeForest.mem_endsUnder.mp he
  have hne : t.forest.operatorsAlong ids ≠ [] := hway.operatorsAlong_suffix.ne_nil hend.2
  exact ⟨_, List.getLast?_eq_some_getLast hne⟩

/-- The routes of a tree are those to some ends, which are told with the ways down to them. -/
structure Lists (t : RouteTree) (ends : List (ScopeId × List ScopeId)) : Prop where
  /-- Visiting scopes from the root on ends, and what it finds has only to be sorted. -/
  visits : ∃ rounds found, t.visit^[rounds] ⟨[(t.root, [])], []⟩ = ⟨[], found⟩ ∧
    t.routes = found.mergeSort Route.le
  /-- Every end is told once. -/
  nodup : (ends.map Prod.fst).Nodup
  mem_iff : ∀ e ids, (e, ids) ∈ ends ↔
    t.forest.Descends t.root ids e ∧
      (t.forest.scope e).children = [] ∧ (t.forest.scope e).operators ≠ []
  perm : t.routes.Perm (ends.map fun e => ⟨e.2.flatMap fun id => (t.forest.scope id).operators⟩)
  leaf : ∀ r ∈ t.routes, ∃ op, r.leaf? = some op
  sorted : t.routes.Pairwise fun a b => ¬b.texts < a.texts

theorem isForest_ofProgram {p : Program} {entryPoints : List String}
    (h : ofProgram p entryPoints = .ok t) : t.forest.IsForest := by
  have hsound := (ReplayState.Sound.empty p).after (ReplayState.legal_moves p entryPoints)
  unfold ofProgram at h
  dsimp only at h
  split at h <;> cases h
  exact hsound.forest

theorem lists_endsUnder (hf : t.forest.IsForest) :
    t.Lists (t.forest.endsUnder (t.forest.size + 1) t.root) := by
  have hdepth : ∀ ids e, t.forest.Descends t.root ids e → ids.length ≤ t.forest.size + 1 :=
    fun ids e h => h.length_le hf
  have hperm : t.routes.Perm ((t.forest.endsUnder (t.forest.size + 1) t.root).map
      fun e => ⟨t.forest.operatorsAlong e.2⟩) := by
    refine (List.mergeSort_perm _ _).trans ?_
    rw [routesUnder_eq_map]
    simp
  refine ⟨?_, ScopeForest.nodup_map_endsUnder hf, fun e ids => ?_, hperm,
    fun r hr => exists_leaf hr, ?_⟩
  · obtain ⟨rounds, hrounds⟩ := exists_visits hdepth [] [] []
    exact ⟨rounds, _, hrounds, by rw [List.nil_append, routes]⟩
  · rw [ScopeForest.mem_endsUnder]
    exact ⟨fun h => ⟨h.1, h.2.1⟩, fun h => ⟨h.1, h.2, hdepth _ _ h.1⟩⟩
  · have hsorted : t.routes.Pairwise fun a b => a.le b = true := by
      refine List.pairwise_mergeSort ?_ Route.le_total _
      exact fun a b c => Route.le_trans
    exact hsorted.imp Route.le_iff.mp

/-- Routes lead exactly to the scopes under the root that are ends, one to each, with the operators
of all scopes on the way. They are sorted by the texts of these, and visiting finds them all. -/
theorem exists_lists {p : Program} {entryPoints : List String}
    (h : ofProgram p entryPoints = .ok t) : ∃ ends, t.Lists ends :=
  ⟨_, lists_endsUnder (isForest_ofProgram h)⟩

/-- A scope with two others under it, the second of which was registered first. -/
def registeringDown : Program where
  statics := [groupStatic "R" "/a", groupStatic "S" "/c", groupStatic "T" "/b"]
  fns := [fnIn [] "main"
    [registerOf "R" (pathOf ["S"]), registerOf "R" (pathOf ["T"]), serveOf (pathOf ["R"])]]

/-- Both scopes under the served one are ends, and it is not an end itself. -/
theorem exists_lists_registeringDown :
    ∃ t ends, ofProgram registeringDown ["main"] = .ok t ∧ t.Lists ends ∧ ends.length = 2 ∧
      t.root ∉ ends.map Prod.fst := by
  have hok : ((ofProgram registeringDown ["main"]).toOption.any fun t =>
      (t.routesUnder (t.forest.size + 1) [] t.root).length == 2 &&
        !(t.forest.scope t.root).children.isEmpty) = true := by decide +kernel
  cases h : ofProgram registeringDown ["main"] with
  | error e => simp [h, Except.toOption] at hok
  | ok t =>
    simp only [h, Except.toOption, Option.any_some, Bool.and_eq_true, beq_iff_eq, Bool.not_eq_true',
      List.isEmpty_eq_false_iff] at hok
    obtain ⟨ends, hends⟩ := exists_lists h
    refine ⟨t, ends, rfl, hends, ?_, fun hmem => ?_⟩
    · rw [← hok.1]
      simpa [routes] using hends.perm.length_eq.symm
    · obtain ⟨⟨e, ids⟩, he, rfl⟩ := List.mem_map.mp hmem
      exact hok.2 ((hends.mem_iff _ _).mp he).2.1

end RouteTree

end ServiceContract
