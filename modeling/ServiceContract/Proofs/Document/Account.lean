import ServiceContract.Proofs.Document.Placement
import ServiceContract.Proofs.Route.Ends

/-! # The account of the routes

A generated document and what is reported beside it account for every route of the tree that does
not end in a group, and the tree has a route to each of its ends. Each route is an operation or is
skipped, and among the endpoints for one place it is the first in the order of labels that becomes
the operation.
-/

namespace ServiceContract

theorem Method.name_of_ofName? {name : String} {m : Method} (h : ofName? name = some m) :
    m.name = name := by
  simpa using List.find?_some h

namespace Endpoint

variable {a b c : Endpoint}

theorem le_trans (hab : le a b) (hbc : le b c) : le a c := by
  simp only [le, Bool.not_eq_true', decide_eq_false_iff_not, List.not_lt] at *
  exact List.le_trans hab hbc

theorem le_total (a b : Endpoint) : le a b || le b a := by
  simp only [le, Bool.or_eq_true, Bool.not_eq_true', decide_eq_false_iff_not, List.not_lt]
  exact List.le_total _ _

/-- Endpoints for one place are in the order of their labels. -/
theorem label_le_of_le {m : Method} {path : String} (ha : a.isFor m path = true)
    (hb : b.isFor m path = true) (h : le a b) : a.label ≤ b.label := by
  obtain ⟨hma, rfl⟩ := isFor_iff.mp ha
  obtain ⟨hmb, hp⟩ := isFor_iff.mp hb
  have hm : b.method = a.method :=
    (Method.name_of_ofName? hmb).symm.trans (Method.name_of_ofName? hma)
  have hnot : ¬[b.label] < [a.label] := by
    simpa only [le, hp, hm, List.cons_lt_cons_self, Bool.not_eq_true', decide_eq_false_iff_not]
      using h
  intro hlt
  exact hnot (List.cons_lt_cons_iff.mpr (.inl hlt))

end Endpoint

namespace Fate

/-- Whether there is an endpoint and it is for a method on a path. -/
def isFor (m : Method) (path : String) (f : Fate) : Bool :=
  match f.outcome with
  | .ok e => e.isFor m path
  | .error _ => false

/-- What becomes of a route after the endpoints of all routes have been placed in order. -/
def ofOutcome (es : List Endpoint) (o : Outcome) : Route × Fate :=
  match o.2 with
  | .ok e => (o.1, ofEndpoint es e)
  | .error error => (o.1, failed error)

variable {es : List Endpoint} {e first : Endpoint} {o : Outcome} {m : Method} {path : String}

@[simp] theorem outcome_ofEndpoint : (ofEndpoint es e).outcome = .ok e := by
  unfold ofEndpoint
  split
  · rfl
  · split <;> rfl

@[simp] theorem fst_ofOutcome : (ofOutcome es o).1 = o.1 := by
  unfold ofOutcome
  split <;> rfl

@[simp] theorem outcome_ofOutcome : (ofOutcome es o).2.outcome = o.2 := by
  unfold ofOutcome
  split
  · next h => rw [outcome_ofEndpoint, h]
  · next h => rw [h]; rfl

theorem isFor_ofOutcome :
    (ofOutcome es o).2.isFor m path = true ↔ ∃ e, o.2 = .ok e ∧ e.isFor m path = true := by
  unfold isFor
  rw [outcome_ofOutcome]
  split
  · next h => simp [h]
  · next h => simp [h]

theorem ofEndpoint_eq_served (hf : es.find? (·.isFor m path) = some e) :
    ofEndpoint es e = served m e := by
  obtain ⟨hm, rfl⟩ := Endpoint.isFor_iff.mp (List.find?_some hf)
  simp [ofEndpoint, hm, hf]

theorem ofEndpoint_eq_taken (hf : es.find? (·.isFor m path) = some first)
    (he : e.isFor m path = true) (hne : first.leaf.id ≠ e.leaf.id) : ofEndpoint es e = taken e := by
  obtain ⟨hm, rfl⟩ := Endpoint.isFor_iff.mp he
  simp [ofEndpoint, hm, hf, hne]

theorem isSome_operation?_iff {make : Endpoint → Operation} {f : Fate} :
    (f.operation? make).isSome ↔ f.reason? = none := by
  cases f <;> simp [operation?, reason?]

end Fate

/-- A generated document and what is skipped account for routes: each has one fate, which is an
operation of the document or a reason for which the route is skipped. -/
structure Accounts (make : Endpoint → Operation) (outcomes : List Outcome)
    (fates : List (Route × Fate)) (g : Generation) : Prop where
  outcomes : fates.map (fun x => (x.1, x.2.outcome)) = outcomes
  operations : g.document.operations.Perm (fates.filterMap fun x => x.2.operation? make)
  skipped : g.skipped.Perm (fates.filterMap fun x => x.2.reason?.map (⟨x.1.label, ·⟩))
  /-- No route is served and skipped, and none is neither. -/
  exclusive : ∀ x ∈ fates, (x.2.operation? make).isSome ↔ x.2.reason? = none
  ids : (g.document.operations.map fun o => o.2.2.operationId).Nodup
  used : ∀ e ∈ g.document.paths, e.2.operations ≠ []
  unsupported : ∀ x ∈ fates, ∀ e, x.2.outcome = .ok e → Method.ofName? e.method = none →
    x.2 = .unsupported e
  /-- Of the routes whose endpoints are for one place one is served. It has the smallest label, and
  all others find the place taken. -/
  places : ∀ m path, fates.filter (fun x => x.2.isFor m path) = [] ∨
    ∃ r e others, (fates.filter fun x => x.2.isFor m path).Perm ((r, .served m e) :: others) ∧
      ∀ x ∈ others, (∃ e, x.2 = .taken e) ∧ r.label ≤ x.1.label

namespace Generation

section Places

variable {make : Endpoint → Operation} {outcomes : List Outcome} {es : List Endpoint}
  {m : Method} {path : String} (hp : (outcomes.filterMap Outcome.endpoint?).Perm es)

include hp

/-- What comes of fates comes of the errors and of the endpoints. -/
theorem filterMap_ofOutcome_perm {α : Type} {F : Route × Fate → Option α} {G : Outcome → Option α}
    {H : Endpoint → Option α} (error : ∀ r e, F (r, .failed e) = G (r, .error e))
    (ok : ∀ r e, (r, .ok e) ∈ outcomes → F (r, .ofEndpoint es e) = H e ∧ G (r, .ok e) = none) :
    ((outcomes.map (Fate.ofOutcome es)).filterMap F).Perm
      (outcomes.filterMap G ++ es.filterMap H) := by
  refine .trans ?_ ((hp.filterMap H).append_left _)
  clear hp
  induction outcomes with
  | nil => exact .refl _
  | cons o rest ih =>
    have ih := ih fun r e he => ok r e (List.mem_cons_of_mem _ he)
    obtain ⟨r, e | e⟩ := o
    · rw [List.map_cons, List.filterMap_cons, List.filterMap_cons (f := G)]
      simp only [Fate.ofOutcome, error, Outcome.endpoint?_error, List.filterMap_cons]
      cases G (r, .error e) with
      | none => exact ih
      | some a => exact ih.cons a
    · obtain ⟨hF, hG⟩ := ok r e List.mem_cons_self
      simp only [List.map_cons, Fate.ofOutcome, List.filterMap_cons, hF, hG, Outcome.endpoint?_ok]
      cases H e with
      | none => exact ih
      | some a => exact (ih.cons a).trans List.perm_middle.symm

/-- The endpoints of two outcomes have different identifiers. -/
theorem id_ne_of_perm_cons (hn : (es.map fun e => e.leaf.id).Nodup) {r r' : Route}
    {first e : Endpoint} {os : List Outcome} (ho : outcomes.Perm ((r, .ok first) :: os))
    (he : (r', .ok e) ∈ os) : first.leaf.id ≠ e.leaf.id := by
  have hperm : es.Perm (first :: os.filterMap Outcome.endpoint?) :=
    hp.symm.trans (by simpa using ho.filterMap Outcome.endpoint?)
  have hids := (hperm.map fun e => e.leaf.id).nodup_iff.mp hn
  intro hid
  exact (List.nodup_cons.mp hids).1
    (List.mem_map.mpr ⟨e, mem_endpoints_iff.mpr ⟨r', he⟩, hid.symm⟩)

/-- The route of the first endpoint for a place is served, and the others for it find it taken. -/
theorem fates_perm_of_find?_eq_some (hn : (es.map fun e => e.leaf.id).Nodup) {first : Endpoint}
    (hf : es.find? (·.isFor m path) = some first) :
    ∃ r others, (r, .ok first) ∈ outcomes ∧
      ((outcomes.map (Fate.ofOutcome es)).filter fun x => x.2.isFor m path).Perm
        ((r, .served m first) :: others) ∧
      ∀ x ∈ others, ∃ e, (x.1, .ok e) ∈ outcomes ∧ e.isFor m path = true ∧ x.2 = .taken e := by
  obtain ⟨r, hr⟩ := mem_endpoints_iff.mp (hp.mem_iff.mpr (List.mem_of_find?_eq_some hf))
  obtain ⟨as, bs, hsplit⟩ := List.append_of_mem hr
  obtain ⟨os, ho⟩ : ∃ os, outcomes.Perm ((r, .ok first) :: os) :=
    ⟨as ++ bs, hsplit ▸ List.perm_middle⟩
  have hserved : Fate.ofOutcome es (r, .ok first) = (r, .served m first) := by
    simp only [Fate.ofOutcome, Fate.ofEndpoint_eq_served hf]
  have hfor : (Fate.served m first).isFor m path = true := by
    simpa [Fate.isFor, Fate.outcome] using List.find?_some hf
  refine ⟨r, (os.map (Fate.ofOutcome es)).filter fun x => x.2.isFor m path, hr, ?_, ?_⟩
  · have hperm := (ho.map (Fate.ofOutcome es)).filter fun x => x.2.isFor m path
    rwa [List.map_cons, hserved, List.filter_cons, if_pos hfor] at hperm
  · intro x hx
    obtain ⟨hx, hxp⟩ := List.mem_filter.mp hx
    obtain ⟨⟨r', _⟩, hr', rfl⟩ := List.mem_map.mp hx
    obtain ⟨e, rfl, he⟩ := Fate.isFor_ofOutcome.mp hxp
    refine ⟨e, ?_, he, ?_⟩
    · rw [Fate.fst_ofOutcome]
      exact ho.mem_iff.mpr (List.mem_cons_of_mem _ hr')
    · have hne := id_ne_of_perm_cons hp hn ho hr'
      simp only [Fate.ofOutcome, Fate.ofEndpoint_eq_taken hf he hne]

/-- If no endpoint is for a place then no route is. -/
theorem fates_eq_nil_of_find?_eq_none (hf : es.find? (·.isFor m path) = none) :
    ((outcomes.map (Fate.ofOutcome es)).filter fun x => x.2.isFor m path) = [] := by
  refine List.filter_eq_nil_iff.mpr fun x hx hxp => ?_
  obtain ⟨⟨r, _⟩, ho, rfl⟩ := List.mem_map.mp hx
  obtain ⟨e, rfl, he⟩ := Fate.isFor_ofOutcome.mp hxp
  exact List.find?_eq_none.mp hf e (hp.mem_iff.mp (mem_endpoints_iff.mpr ⟨r, ho⟩)) he

end Places

variable {make : Endpoint → Operation} {outcomes : List Outcome} {es : List Endpoint}
  {m : Method} {path : String}

theorem map_filterMap_sublist {α β γ : Type} {f : α → Option β} {g : β → γ} {k : α → γ}
    (h : ∀ a b, f a = some b → g b = k a) (l : List α) :
    ((l.filterMap f).map g).Sublist (l.map k) := by
  induction l with
  | nil => exact .slnil
  | cons a rest ih =>
    rw [List.filterMap_cons]
    cases hf : f a with
    | none => exact ih.cons _
    | some b =>
      rw [List.map_cons, List.map_cons, h a b hf]
      exact ih.cons_cons _

theorem pairwise_sortedEndpoints :
    (sortedEndpoints outcomes).Pairwise fun a b => Endpoint.le a b = true := by
  refine List.pairwise_mergeSort ?_ Endpoint.le_total _
  exact fun a b c => Endpoint.le_trans

/-- The first endpoint for a place has the smallest label of all that are for it. -/
theorem label_le_of_find?_eq_some (hs : es.Pairwise fun a b => Endpoint.le a b = true)
    {first e : Endpoint} (hf : es.find? (·.isFor m path) = some first) (he : e ∈ es)
    (hp : e.isFor m path = true) : first.label ≤ e.label := by
  obtain ⟨hfirst, as, bs, rfl, has⟩ := List.find?_eq_some_iff_append.mp hf
  rcases List.mem_append.mp he with ha | hb
  · simpa [hp] using has e ha
  · rcases List.mem_cons.mp hb with rfl | hb
    · exact String.le_refl _
    · have hle := (List.pairwise_cons.mp (List.pairwise_append.mp hs).2.1).1 e hb
      exact Endpoint.label_le_of_le hfirst hp hle

/-- Placing the endpoints of outcomes accounts for their routes. -/
theorem accounts_placement {g : Generation} (hm : ∀ e, (make e).operationId = e.leaf.id)
    (hl : ∀ r e, (r, .ok e) ∈ outcomes → e.label = r.label)
    (hd : Endpoint.duplicate? [] (sortedEndpoints outcomes) = none)
    (hpaths : g.document.paths = (placement make outcomes).paths)
    (hskipped : g.skipped = (placement make outcomes).skipped) :
    Accounts make outcomes (outcomes.map (Fate.ofOutcome (sortedEndpoints outcomes))) g := by
  have hn := (Endpoint.duplicate?_eq_none.mp hd).1
  have hp : (outcomes.filterMap Outcome.endpoint?).Perm (sortedEndpoints outcomes) :=
    (List.mergeSort_perm _ _).symm
  have placed : Placed make _ _ _ (placement make outcomes) := placed_placement hd
  have hops : g.document.operations.Perm ((sortedEndpoints outcomes).filterMap fun e =>
      (Fate.ofEndpoint (sortedEndpoints outcomes) e).operation? make) := by
    rw [Document.operations, hpaths]
    exact placed.operations
  refine ⟨?_, ?_, ?_, fun _ _ => Fate.isSome_operation?_iff, ?_, ?_, ?_, ?_⟩
  · rw [List.map_map]
    exact List.map_id'' (fun o => by simp) _
  · have h := filterMap_ofOutcome_perm hp (F := fun x => x.2.operation? make) (G := fun _ => none)
      (H := fun e => (Fate.ofEndpoint (sortedEndpoints outcomes) e).operation? make)
      (fun _ _ => rfl) fun _ _ _ => ⟨rfl, rfl⟩
    rw [List.filterMap_eq_nil_iff.mpr fun _ _ => rfl, List.nil_append] at h
    exact hops.trans h.symm
  · rw [hskipped, placed.skipped]
    refine (filterMap_ofOutcome_perm hp (fun _ _ => rfl) fun r e he => ⟨?_, rfl⟩).symm
    rw [hl r e he]
  · refine (hops.map _).nodup_iff.mpr ((map_filterMap_sublist ?_ _).nodup hn)
    exact fun e _ ho => Fate.operation?_eq_some ho ▸ hm e
  · rw [hpaths]
    exact placed.used
  · intro x hx e he hnone
    obtain ⟨⟨r, outcome⟩, _, rfl⟩ := List.mem_map.mp hx
    obtain rfl : outcome = .ok e := Fate.outcome_ofOutcome.symm.trans he
    exact Fate.ofEndpoint_of_none hnone
  · intro m path
    cases hf : (sortedEndpoints outcomes).find? (·.isFor m path) with
    | none => exact .inl (fates_eq_nil_of_find?_eq_none hp hf)
    | some first =>
      obtain ⟨r, others, hr, hperm, hothers⟩ := fates_perm_of_find?_eq_some hp hn hf
      refine .inr ⟨r, first, others, hperm, fun x hx => ?_⟩
      obtain ⟨e, ho, he, hx⟩ := hothers x hx
      refine ⟨⟨e, hx⟩, ?_⟩
      rw [← hl r first hr, ← hl x.1 e ho]
      exact label_le_of_find?_eq_some pairwise_sortedEndpoints hf
        (mem_sortedEndpoints.mpr ⟨x.1, ho⟩) he

/-- Every generated document accounts for the routes of the tree that do not end in a group, where
the routes of the tree are those to its ends. -/
theorem ofProgram_accounts {p : Program} {config : Config} {g : Generation}
    (h : ofProgram p config = .ok g) :
    ∃ tree ends outcomes state schema fates,
      RouteTree.ofProgram p config.entryPoints = .ok tree ∧ tree.Lists ends ∧
      Surveys (.ofProgram p) {} tree.routes outcomes state ∧
      outcomes.map Prod.fst = tree.routes.filter (fun r => !r.endsInGroup) ∧
      Accounts (operation schema (ErrorFormatter.detect? p)) outcomes fates g := by
  obtain ⟨tree, s', ht, hr⟩ := ofProgram_eq_ok.mp h
  obtain ⟨outcomes, s₁, schema, hs, hd, _, rfl⟩ := runOn_ofRoutes_eq_ok.mp hr
  exact ⟨tree, _, outcomes, s₁, schema, _, ht,
    RouteTree.lists_endsUnder (RouteTree.isForest_ofProgram ht), hs, hs.map_fst,
    accounts_placement (fun _ => rfl) (fun _ _ => hs.label_eq) hd rfl rfl⟩

/-- What is skipped of the shop. -/
def shopSkipped : List Skipped :=
  [⟨"Group(/items) > GetItem", "operator `GetItem`: field `id` has no #[param(..)] location"⟩,
   ⟨"Group(/items) > Search", "GET /items is already served"⟩,
   ⟨"Group(/items) > WatchItems", "unsupported method LINK"⟩]

/-- Of the five routes of the shop one ends in a group, one is served and three are skipped. -/
theorem ofProgram_accounts_shop : ∃ g, ofProgram shop {} = .ok g ∧
    g.document.operations.map (fun o => (o.1, o.2.1, o.2.2.operationId)) =
      [(.get, "/items", "ListItems")] ∧ g.skipped = shopSkipped ∧
    ∃ tree ends outcomes state schema fates,
      RouteTree.ofProgram shop ({} : Config).entryPoints = .ok tree ∧ tree.Lists ends ∧
      Surveys (.ofProgram shop) {} tree.routes outcomes state ∧
      outcomes.map Prod.fst = tree.routes.filter (fun r => !r.endsInGroup) ∧
      Accounts (operation schema (ErrorFormatter.detect? shop)) outcomes fates g := by
  have hshop : (inOrder? shop {}).any (fun r => r.toOption.any fun g =>
      g.document.operations.map (fun o => (o.1, o.2.1, o.2.2.operationId)) ==
        [(.get, "/items", "ListItems")] && g.skipped == shopSkipped) = true := by
    decide +kernel
  obtain ⟨g, hg, h⟩ := exists_ofProgram_of_inOrder? hshop
  simp only [Bool.and_eq_true, beq_iff_eq] at h
  exact ⟨g, hg, h.1, h.2, ofProgram_accounts hg⟩

end Generation

end ServiceContract
