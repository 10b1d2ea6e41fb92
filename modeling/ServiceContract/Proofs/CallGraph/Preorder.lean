import ServiceContract.Proofs.CallGraph.Occurrences
import ServiceContract.Proofs.CallGraph.Search
import ServiceContract.Proofs.StatusError.Merge

/-! # The first search

A search that begins with an empty memo finds the errors that the functions of the walk raise, in
the order in which the walk enters them, and of several errors of one identity the first. The walk
is a depth-first traversal of the calls that the bodies make.
-/

namespace ServiceContract.ErrorSearch

open StatusError Relation

variable {s : ErrorSearch} {m m' : Memo} {found found' nested : List StatusError}
  {gs : List FnDecl} {w : List Step} {f g : FnDecl}

/-- The errors that the functions raise by themselves that a walk enters. -/
def raised (s : ErrorSearch) (w : List Step) : List StatusError := (entered w).flatMap s.direct

/-- Every answer in a memo has only identities that are among those of some errors. -/
def Covers (es : List StatusError) (m : Memo) : Prop :=
  ∀ k nested, m.lookup k = some nested → ∀ i ∈ identities nested, i ∈ identities es

theorem covers_nil (es : List StatusError) : Covers es [] := by
  intro k nested h
  cases h

theorem Covers.setKey {es : List StatusError} {k : String} (h : Covers es m)
    (hn : ∀ i ∈ identities nested, i ∈ identities es) : Covers es (setKey k nested m) := by
  intro k' nested' hl
  rw [lookup_setKey] at hl
  split at hl
  · cases hl; exact hn
  · exact h k' nested' hl

theorem Covers.mono {es es' : List StatusError} (h : Covers es m)
    (hs : ∀ i ∈ identities es, i ∈ identities es') : Covers es' m :=
  fun k nested hl i hi => hs i (h k nested hl i hi)

/-- Merged with errors that cover the memo, a run adds what the functions of its walk raise. An
answer from the memo may lack errors and may repeat others, but none of these is new. -/
theorem Gathers.merge_eq (h : Gathers s m found gs w found' m')
    (old : List StatusError) (hm : Covers (merge old found) m) :
    merge (merge old found) (s.raised w) = merge old found' ∧ Covers (merge old found') m' := by
  induction h generalizing old with
  | nil => exact ⟨rfl, hm⟩
  | @known m found g nested gs w found' m' hk _ ih =>
    have he : merge old (merge found nested) = merge old found := by
      rw [merge_merge, merge_of_subset (hm g.key nested hk)]
    simpa only [he] using ih old (he ▸ hm)
  | @fresh m found g w nested m' gs w' found' m'' hk _ _ ih ih' =>
    obtain ⟨he, hc⟩ := ih (merge old found)
      ((hm.mono fun i hi => mem_identities_merge.mpr (.inl hi)).setKey (by simp))
    obtain ⟨he', hc'⟩ := ih' old (by
      rw [merge_merge]
      exact hc.setKey fun i hi => mem_identities_merge.mpr (.inr hi))
    refine ⟨?_, hc'⟩
    calc merge (merge old found) (s.raised (.enter g :: (w ++ .leave g :: w')))
        = merge (merge (merge (merge old found) (s.direct g)) (s.raised w)) (s.raised w') := by
          simp only [raised, entered_enter, entered_append, entered_leave, List.flatMap_cons,
            List.flatMap_append, merge_append]
      _ = merge (merge (merge old found) nested) (s.raised w') := by
          rw [← he, merge_merge, merge_nil]
      _ = merge (merge old (merge found nested)) (s.raised w') := by rw [merge_merge old]
      _ = merge old found' := he'

theorem Gathers.nodup_identities (h : Gathers s m found gs w found' m')
    (hn : (identities found).Nodup) : (identities found').Nodup := by
  induction h with
  | nil => exact hn
  | known _ _ ih => exact ih (nodup_merge hn)
  | fresh _ _ _ _ ih' => exact ih' (nodup_merge hn)

theorem Answers.walk_eq (hf : f ∈ s.program.fns) (h : Answers s [] f w found m) :
    s.walk s.program.fns [.enter f] = w := by
  simpa [unseen, walk] using (h.gathers_singleton []).walk_eq (by simpa using hf) []

theorem Answers.eq_firsts (hf : f ∈ s.program.fns) (h : Answers s [] f w found m) :
    found = firsts ((s.preorder f).flatMap s.direct) := by
  have hn : (identities found).Nodup := by
    cases h with
    | known hk => cases hk
    | fresh _ hc => exact hc.nodup_identities (nodup_merge (by simp))
  have he := ((h.gathers_singleton []).merge_eq [] (covers_nil _)).1
  rw [merge_nil, merge_nil_left, merge_nil_left, merge_nil_left,
    firsts_of_nodup hn, firsts_of_nodup hn] at he
  rw [preorder, h.walk_eq hf, ← he, raised]

theorem exists_answers (s : ErrorSearch) (hf : f ∈ s.program.fns) (m : Memo) :
    ∃ w, Answers s m f w ((s.reachable f).run m).1 ((s.reachable f).run m).2 :=
  answers_search hf (Nat.lt_succ_of_le (List.length_filter_le _ _))

/-- The walk from a function enters exactly the functions that it leads to. -/
theorem mem_preorder_iff (hk : (s.program.fns.map (·.key)).Nodup) (hf : f ∈ s.program.fns) :
    g ∈ s.preorder f ↔ ReflTransGen s.Calls f g := by
  obtain ⟨w, hw⟩ := s.exists_answers hf []
  have hg := hw.gathers_singleton []
  rw [preorder, hw.walk_eq hf]
  constructor
  · intro h
    simpa using hg.reaches h
  · have known : ∀ x ∈ s.program.fns, (((s.reachable f).run []).2.lookup x.key).isSome →
        x ∈ entered w := fun x hx hs => hg.mem_left_iff.mp
      ((hg.isSome_or_mem_left hk (by simpa using hf) hx hs).resolve_left (by simp))
    intro h
    induction h with
    | refl => exact known f hf (hg.lookup_of_mem (by simp))
    | tail _ hc ih =>
      exact known _ (mem_fns_of_mem_callees hc) (hg.lookup_of_calls (hg.mem_left_iff.mpr ih) hc)

/-- A depth-first traversal has entered some functions and has others ahead of it. It enters these
one after the other, each only if none of its key has been entered, and from there those that its
body calls, in the order of their first calls. -/
inductive Enters (p : Program) : List FnDecl → List FnDecl → List FnDecl → Prop
  | done {before} : Enters p before [] []
  | known {before g ahead order} : g.key ∈ before.map (·.key) → Enters p before ahead order →
      Enters p before (g :: ahead) order
  | new {before g callees inner ahead order} : g.key ∉ before.map (·.key) →
      EnumeratesBy (· < ·) (FirstCallAt p g) callees → Enters p (before ++ [g]) callees inner →
      Enters p (before ++ g :: inner) ahead order →
      Enters p before (g :: ahead) (g :: (inner ++ order))

section Traversal

variable {p : Program} {before ahead order order' : List FnDecl}

theorem Enters.unique (h : Enters p before ahead order) (h' : Enters p before ahead order') :
    order = order' := by
  induction h generalizing order' with
  | done =>
    cases h'
    rfl
  | known hk _ ih =>
    cases h' with
    | known _ h' => exact ih h'
    | new hn _ _ _ => exact absurd hk hn
  | new hn hc _ _ ih ih' =>
    cases h' with
    | known hk _ => exact absurd hk hn
    | new _ hc' hi ho =>
      obtain rfl := hc.unique hc' fun _ _ => List.lt_asymm
      obtain rfl := ih hi
      rw [ih' ho]

/-- A search whose memo has the functions that were entered before enters what a traversal does. -/
theorem Gathers.enters (h : Gathers (ofProgram p) m found gs w found' m')
    (hb : ∀ k, (m.lookup k).isSome ↔ k ∈ before.map (·.key)) : Enters p before gs (entered w) ∧
      ∀ k, (m'.lookup k).isSome ↔ k ∈ (before ++ entered w).map (·.key) := by
  induction h generalizing before with
  | nil => exact ⟨.done, by simpa using hb⟩
  | known hk _ ih =>
    obtain ⟨he, ha⟩ := ih hb
    exact ⟨.known ((hb _).mp (by simp [hk])) he, ha⟩
  | @fresh m _ g w _ _ _ w' _ _ hk _ _ ih ih' =>
    obtain ⟨hi, hm⟩ := @ih (before ++ [g]) fun k => by
      rw [isSome_lookup_setKey, hb]
      simp [or_comm, eq_comm]
    obtain ⟨ho, hm'⟩ := @ih' (before ++ g :: entered w) fun k => by
      rw [isSome_lookup_setKey, hm]
      simp
      tauto
    have hn : g.key ∉ before.map (·.key) := fun hg => by simpa [hk] using (hb _).mpr hg
    have he : entered (.enter g :: (w ++ .leave g :: w')) = g :: (entered w ++ entered w') := by
      simp
    rw [he]
    exact ⟨.new hn (enumerates_callees p g) hi ho, by simpa using hm'⟩

theorem enters_iff (hf : f ∈ p.fns) : Enters p [] [f] order ↔ order = (ofProgram p).preorder f := by
  obtain ⟨w, hw⟩ := (ofProgram p).exists_answers hf []
  have he : Enters p [] [f] ((ofProgram p).preorder f) := by
    rw [preorder, hw.walk_eq hf]
    have hb : ∀ k, (([] : Memo).lookup k).isSome ↔ k ∈ ([] : List FnDecl).map (·.key) := by simp
    exact ((hw.gathers_singleton []).enters hb).1
  exact ⟨fun h => h.unique he, fun h => h ▸ he⟩

theorem enumerates_direct_iff {es : List StatusError} :
    EnumeratesBy (· < ·) (RaisesAt p g) es ↔ es = (ofProgram p).direct g :=
  ⟨fun h => h.unique (enumerates_direct p g) fun _ _ => List.lt_asymm,
    fun h => h ▸ enumerates_direct p g⟩

end Traversal

/-- The first search for the errors of a function ends, however deep it may go, with what the
functions of the walk from there raise, the first error of each identity. The walk is the only
depth-first traversal from there and enters each function once, and what a function raises is listed
for each position in its body that means or makes an error, in the order of these. -/
theorem reachable_eq_firsts_preorder {p : Program} (hf : f ∈ p.fns) :
    let s := ofProgram p
    let errors := firsts ((s.preorder f).flatMap s.direct)
    (∃ w m, Answers s [] f w errors m) ∧ ((s.reachable f).run []).1 = errors ∧
      (∀ n > p.fns.length, ((s.search n f).run []).1 = errors) ∧
      (∀ order, Enters p [] [f] order ↔ order = s.preorder f) ∧
      ((s.preorder f).map (·.key)).Nodup ∧
      ∀ g es, EnumeratesBy (· < ·) (RaisesAt p g) es ↔ es = s.direct g := by
  intro s errors
  have bounded : ∀ n > p.fns.length, ∃ w, Answers s [] f w errors ((s.search n f).run []).2 ∧
      ((s.search n f).run []).1 = errors := by
    intro n hn
    obtain ⟨w, hw⟩ := answers_search (s := s) (m := []) hf
      ((List.length_filter_le _ _).trans_lt hn)
    have he : ((s.search n f).run []).1 = errors := hw.eq_firsts hf
    exact ⟨w, he ▸ hw, he⟩
  obtain ⟨w, hw, he⟩ := bounded (p.fns.length + 1) (Nat.lt_succ_self _)
  exact ⟨⟨w, _, hw⟩, he, fun n hn => (bounded n hn).elim fun _ h => h.2, fun _ => enters_iff hf,
    s.nodup_preorder f, fun _ _ => enumerates_direct_iff⟩

section PingPong

open Source

/-- A free function that mentions an error and then calls another function. -/
def mentionThenCall (name error callee : String) : FnDecl where
  key := name
  module := []
  selfType := none
  owner := none
  item :=
    { attrs := [], name, params := [], output := none
      body :=
        [.expr [] (.path { segments := ["UserErr", error] } []) true,
         .expr [] (.call (.path { segments := [callee] } []) []) false] }

def ping : FnDecl := mentionThenCall "ping" "NotFound" "pong"

def pong : FnDecl := mentionThenCall "pong" "Forbidden" "ping"

/-- Two functions that call each other, each with an error of its own. -/
def pingPong : Program where
  enums := [⟨[],
    { attrs := [⟨{ segments := ["status_error"] }, .word⟩], name := "UserErr", typeParams := []
      variants :=
        [⟨[], "NotFound", .unit, some (.lit (.int false 404000001))⟩,
         ⟨[], "Forbidden", .unit, some (.lit (.int false 403000001))⟩] }⟩]
  fns := [ping, pong]

end PingPong

theorem reachable_eq_firsts_preorder_ping : ping ∈ pingPong.fns ∧
    (let s := ofProgram pingPong
     let errors := firsts ((s.preorder ping).flatMap s.direct)
     (∃ w m, Answers s [] ping w errors m) ∧ ((s.reachable ping).run []).1 = errors ∧
      (∀ n > pingPong.fns.length, ((s.search n ping).run []).1 = errors) ∧
      (∀ order, Enters pingPong [] [ping] order ↔ order = s.preorder ping) ∧
      ((s.preorder ping).map (·.key)).Nodup ∧
      ∀ g es, EnumeratesBy (· < ·) (RaisesAt pingPong g) es ↔ es = s.direct g) ∧
    Enters pingPong [] [ping] [ping, pong] ∧
    identities (((ofProgram pingPong).reachable ping).run []).1 =
      [("NotFound", 404000001), ("Forbidden", 403000001)] :=
  have hping : EnumeratesBy (· < ·) (FirstCallAt pingPong ping) [pong] := enumerates_callees _ _
  have hpong : EnumeratesBy (· < ·) (FirstCallAt pingPong pong) [ping] := enumerates_callees _ _
  ⟨List.mem_cons_self, reachable_eq_firsts_preorder List.mem_cons_self,
    .new (by decide) hping (.new (by decide) hpong (.known (by decide) .done) .done) .done, by rfl⟩

end ServiceContract.ErrorSearch
