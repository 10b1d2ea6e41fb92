import ServiceContract.Document.Generate
import ServiceContract.Proofs.Document.Survey
import Mathlib.Data.List.Nodup

/-! # Placing endpoints

Endpoints are placed in their order, and the first one for a method and a path has the place. So
what becomes of an endpoint is known from all of them, and one step after the other adds it to the
operations or to the routes that are skipped.
-/

namespace ServiceContract

namespace PathItem

variable {item : PathItem} {m : Method} {op : Operation}

/-- A new operation stands beside those of all other methods. -/
theorem operations_set (h : item.operation? m = none) :
    (item.set m op).operations.Perm ((m, op) :: item.operations) := by
  have hp : Method.all.Perm (m :: Method.all.erase m) := List.perm_cons_erase m.mem_all
  have hset : (item.set m op).operations.Perm ((m, op) ::
      (Method.all.erase m).filterMap fun n => (item.operation? n).map fun op => (n, op)) := by
    refine (hp.filterMap _).trans (.of_eq ?_)
    rw [List.filterMap_cons]
    simp only [set, if_true, Option.map_some]
    congr 1
    refine List.filterMap_congr fun n hn => ?_
    rw [if_neg (Method.nodup_all.mem_erase_iff.mp hn).1]
  refine hset.trans (.cons _ ((hp.filterMap _).trans (.of_eq ?_)).symm)
  rw [List.filterMap_cons_none (by simp [h])]

theorem operations_set_ne_nil : (item.set m op).operations ≠ [] :=
  List.ne_nil_of_mem (List.mem_filterMap.mpr ⟨m, m.mem_all, by simp [set]⟩ : (m, op) ∈ _)

end PathItem

/-- The operations on paths with their methods and paths. -/
def operationsOn (paths : List (String × PathItem)) : List (Method × String × Operation) :=
  paths.flatMap fun (path, item) => item.operations.map fun (m, op) => (m, path, op)

/-- The operation for a method on a path. -/
def operationAt? (paths : List (String × PathItem)) (m : Method) (path : String) :
    Option Operation :=
  ((paths.lookup path).getD {}).operation? m

variable {paths : List (String × PathItem)} {path : String} {m : Method} {op : Operation}

theorem operationAt?_insertSorted (n : Method) (other : String) :
    operationAt? (insertSorted path (((paths.lookup path).getD {}).set m op) paths) n other =
      if n = m ∧ other = path then some op else operationAt? paths n other := by
  unfold operationAt?
  rw [lookup_insertSorted]
  by_cases hp : other = path
  · subst hp
    by_cases hm : n = m <;> simp [PathItem.set, hm]
  · simp [hp]

theorem operationsOn_perm (h : Increasing paths) (path : String) :
    (operationsOn paths).Perm
      (operationsOn ((path, (paths.lookup path).getD {}) :: paths.filter fun e => e.1 ≠ path)) := by
  cases hl : paths.lookup path with
  | none =>
    rw [filter_ne_of_lookup_eq_none hl]
    exact .refl _
  | some item => exact (h.perm_of_lookup hl).flatMap_right _

/-- An operation in a free place stands beside all others. -/
theorem operationsOn_insertSorted (h : Increasing paths) (free : operationAt? paths m path = none) :
    (operationsOn (insertSorted path (((paths.lookup path).getD {}).set m op) paths)).Perm
      ((m, path, op) :: operationsOn paths) := by
  refine (h.insertSorted_perm.flatMap_right _).trans ?_
  refine .trans ?_ (.cons _ (operationsOn_perm h path).symm)
  exact ((PathItem.operations_set free).map _).append_right _

/-- Whether an endpoint is for a method on a path. -/
def Endpoint.isFor (m : Method) (path : String) (e : Endpoint) : Bool :=
  Method.ofName? e.method == some m && e.path == path

theorem Endpoint.isFor_iff {e : Endpoint} :
    e.isFor m path = true ↔ Method.ofName? e.method = some m ∧ e.path = path := by
  simp [isFor]

/-- What becomes of a route that does not end in a group. -/
inductive Fate
  /-- An operator of it does not compile. -/
  | failed (error : Error)
  /-- Documents have no such method. -/
  | unsupported (e : Endpoint)
  /-- An earlier endpoint has its place. -/
  | taken (e : Endpoint)
  | served (m : Method) (e : Endpoint)

namespace Fate

def outcome : Fate → Except Error Endpoint
  | failed error => .error error
  | unsupported e | taken e | served _ e => .ok e

def operation? (make : Endpoint → Operation) : Fate → Option (Method × String × Operation)
  | served m e => some (m, e.path, make e)
  | _ => none

/-- Why the route is skipped, if it is. -/
def reason? : Fate → Option String
  | failed error => some error.message
  | unsupported e => some ("unsupported method " ++ e.method)
  | taken e => some (e.method ++ " " ++ e.path ++ " is already served")
  | served _ _ => none

/-- What becomes of one of some endpoints with distinct identifiers that are placed in order. -/
def ofEndpoint (es : List Endpoint) (e : Endpoint) : Fate :=
  match Method.ofName? e.method with
  | none => unsupported e
  | some m =>
    if (es.find? (·.isFor m e.path)).any fun first => first.leaf.id == e.leaf.id then served m e
    else taken e

variable {es done rest : List Endpoint} {e : Endpoint} {m : Method}

theorem operation?_eq_some {make : Endpoint → Operation} {op : Method × String × Operation}
    (h : (ofEndpoint es e).operation? make = some op) : op.2.2 = make e := by
  unfold ofEndpoint at h
  split at h
  · cases h
  · split at h
    · cases h
      rfl
    · cases h

theorem ofEndpoint_of_none (h : Method.ofName? e.method = none) :
    ofEndpoint es e = unsupported e := by
  simp [ofEndpoint, h]

theorem ofEndpoint_of_first (h : Method.ofName? e.method = some m)
    (hd : done.find? (·.isFor m e.path) = none) :
    ofEndpoint (done ++ e :: rest) e = served m e := by
  have hf : e.isFor m e.path = true := Endpoint.isFor_iff.mpr ⟨h, rfl⟩
  simp [ofEndpoint, h, hd, List.find?_cons_of_pos, hf]

theorem ofEndpoint_of_later (hn : ((done ++ e :: rest).map (·.leaf.id)).Nodup)
    (h : Method.ofName? e.method = some m) {first : Endpoint}
    (hd : done.find? (·.isFor m e.path) = some first) :
    ofEndpoint (done ++ e :: rest) e = taken e := by
  have hne : first.leaf.id ≠ e.leaf.id := by
    rw [List.map_append, List.nodup_append] at hn
    exact hn.2.2 _ (List.mem_map_of_mem (List.mem_of_find?_eq_some hd)) _ (by simp)
  simp [ofEndpoint, h, hd, hne]

end Fate

namespace Generation

@[simp] theorem Placement.skip_paths {s : Placement} {e : Endpoint} {reason : String} :
    (s.skip e reason).paths = s.paths := rfl

/-- Of some endpoints those that are done have been placed, behind what was skipped before. -/
structure Placed (make : Endpoint → Operation) (es : List Endpoint) (before : List Skipped)
    (done : List Endpoint) (s : Placement) : Prop where
  increasing : Increasing s.paths
  used : ∀ e ∈ s.paths, e.2.operations ≠ []
  first : ∀ m path, operationAt? s.paths m path = (done.find? (·.isFor m path)).map make
  operations : (operationsOn s.paths).Perm
    (done.filterMap fun e => (Fate.ofEndpoint es e).operation? make)
  skipped : s.skipped =
    before ++ done.filterMap fun e => (Fate.ofEndpoint es e).reason?.map (⟨e.label, ·⟩)

variable {make : Endpoint → Operation} {es done rest : List Endpoint} {before : List Skipped}
  {e : Endpoint} {m : Method} {s : Placement}

theorem Placed.nil : Placed make es before [] { skipped := before } where
  increasing := .nil
  used := by simp
  first _ _ := rfl
  operations := .refl _
  skipped := by simp

/-- An endpoint that gets no place is skipped, and nothing else changes. -/
theorem Placed.skip {reason : String} (h : Placed make es before done s)
    (hs : (Fate.ofEndpoint es e).operation? make = none)
    (hr : (Fate.ofEndpoint es e).reason? = some reason)
    (hf : ∀ m path, e.isFor m path = true → (done.find? (·.isFor m path)).isSome) :
    Placed make es before (done ++ [e]) (s.skip e reason) where
  increasing := h.increasing
  used := h.used
  first m path := by
    rw [List.find?_append, Placement.skip_paths, h.first]
    cases hd : done.find? (·.isFor m path) with
    | some first => rfl
    | none =>
      have hn : e.isFor m path ≠ true := fun he => by simpa [hd] using hf m path he
      simp [List.find?_cons_of_neg, hn]
  operations := by simpa [List.filterMap_append, List.filterMap_cons, hs] using h.operations
  skipped := by
    simp [Placement.skip, h.skipped, List.filterMap_append, hr]

/-- An endpoint whose place is free gets it. -/
theorem Placed.serve (h : Placed make es before done s) (hm : Method.ofName? e.method = some m)
    (hd : done.find? (·.isFor m e.path) = none) (hf : Fate.ofEndpoint es e = .served m e)
    (schemes : List (String × SecurityScheme)) :
    Placed make es before (done ++ [e])
      { s with
        paths := insertSorted e.path (((s.paths.lookup e.path).getD {}).set m (make e)) s.paths
        schemes } where
  increasing := h.increasing.insertSorted
  used := by
    intro x hx
    rcases mem_insertSorted hx with rfl | hx
    · exact PathItem.operations_set_ne_nil
    · exact h.used x hx
  first n path := by
    rw [operationAt?_insertSorted, List.find?_append, h.first]
    by_cases hp : n = m ∧ path = e.path
    · obtain ⟨rfl, rfl⟩ := hp
      have he : e.isFor n e.path = true := Endpoint.isFor_iff.mpr ⟨hm, rfl⟩
      simp [hd, he]
    · have hn : ¬ e.isFor n path = true := fun he => by
        obtain ⟨hn, rfl⟩ := Endpoint.isFor_iff.mp he
        exact hp ⟨Option.some.inj (hn.symm.trans hm), rfl⟩
      simp [hp, List.find?_cons_of_neg, hn]
  operations := by
    have free : operationAt? s.paths m e.path = none := by rw [h.first, hd]; rfl
    rw [List.filterMap_append]
    refine (operationsOn_insertSorted h.increasing free).trans ?_
    simpa [List.filterMap_cons, hf, Fate.operation?] using
      (h.operations.cons _).trans (List.perm_append_singleton _ _).symm
  skipped := by
    simp [h.skipped, List.filterMap_append, hf, Fate.reason?]

theorem Placed.add (h : Placed make (done ++ e :: rest) before done s)
    (hn : ((done ++ e :: rest).map (·.leaf.id)).Nodup) :
    Placed make (done ++ e :: rest) before (done ++ [e]) (s.add make e) := by
  unfold Placement.add
  cases hm : Method.ofName? e.method with
  | none =>
    have hf : Fate.ofEndpoint (done ++ e :: rest) e = _ := Fate.ofEndpoint_of_none hm
    exact h.skip (by rw [hf]; rfl) (by rw [hf]; rfl) (by simp [Endpoint.isFor_iff, hm])
  | some m =>
    have hat : operationAt? s.paths m e.path = _ := h.first m e.path
    dsimp only
    change Placed _ _ _ _ (if (operationAt? s.paths m e.path).isSome then _ else _)
    cases hd : done.find? (·.isFor m e.path) with
    | none =>
      rw [hat, hd, Option.map_none, Option.isSome_none, if_neg (by simp)]
      exact h.serve hm hd (Fate.ofEndpoint_of_first hm hd) _
    | some first =>
      rw [hat, hd, Option.map_some, Option.isSome_some, if_pos rfl]
      have hf := Fate.ofEndpoint_of_later hn hm hd
      refine h.skip (by rw [hf]; rfl) (by rw [hf]; rfl) fun n path he => ?_
      obtain ⟨hn, rfl⟩ := Endpoint.isFor_iff.mp he
      obtain rfl : m = n := Option.some.inj (hm.symm.trans hn)
      rw [hd]
      rfl

/-- Endpoints with distinct identifiers are all placed, one after the other. -/
theorem Placed.foldl_add (h : Placed make (done ++ rest) before done s)
    (hn : ((done ++ rest).map (·.leaf.id)).Nodup) :
    Placed make (done ++ rest) before (done ++ rest) (rest.foldl (Placement.add make) s) := by
  induction rest generalizing done s with
  | nil => simpa using h
  | cons e rest ih =>
    have hs := h.add hn
    rw [List.append_cons] at hn hs ⊢
    exact ih hs hn

/-- A placement of endpoints without duplicate identifiers has placed all of them. -/
theorem placed_placement {outcomes : List Outcome}
    (hd : Endpoint.duplicate? [] (sortedEndpoints outcomes) = none) :
    Placed make (sortedEndpoints outcomes) (outcomes.filterMap Outcome.report?)
      (sortedEndpoints outcomes) (placement make outcomes) :=
  Placed.foldl_add .nil (Endpoint.duplicate?_eq_none.mp hd).1

end Generation

end ServiceContract
