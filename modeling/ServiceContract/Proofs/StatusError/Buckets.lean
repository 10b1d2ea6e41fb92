import ServiceContract.StatusError.Formatter
import ServiceContract.Proofs.StatusError.Merge
import Mathlib.Data.List.Induction

/-! # Errors by status

Every error is sent with one status, which is a status of responses. Sorting errors into buckets by
status neither loses one nor moves one to another status.
-/

namespace ServiceContract

section UpdateStatus

variable {α : Type} {status other : Nat} {empty : α} {f : α → α} {l : List (Nat × α)}
  {e : Nat × α}

theorem mem_updateStatus (h : e ∈ updateStatus status empty f l) : e.1 = status ∨ e ∈ l := by
  induction l with
  | nil => exact .inl (List.mem_singleton.mp h ▸ rfl)
  | cons e' rest ih =>
    unfold updateStatus at h
    split at h
    · exact (List.mem_cons.mp h).imp_left (congrArg Prod.fst)
    · split at h
      · next hs =>
        rcases List.mem_cons.mp h with rfl | h
        · exact .inl hs.symm
        · exact .inr (List.mem_cons_of_mem _ h)
      · rcases List.mem_cons.mp h with rfl | h
        · exact .inr List.mem_cons_self
        · exact (ih h).imp_right (List.mem_cons_of_mem _)

theorem pairwise_updateStatus (h : l.Pairwise fun a b => a.1 < b.1) :
    (updateStatus status empty f l).Pairwise fun a b => a.1 < b.1 := by
  induction l with
  | nil => exact List.pairwise_singleton _ _
  | cons e rest ih =>
    obtain ⟨he, hr⟩ := List.pairwise_cons.mp h
    unfold updateStatus
    split
    · next hlt =>
      refine List.pairwise_cons.mpr ⟨List.forall_mem_cons.mpr ⟨hlt, fun b hb => ?_⟩, h⟩
      exact Nat.lt_trans hlt (he b hb)
    · next hnlt =>
      split
      · exact List.pairwise_cons.mpr ⟨he, hr⟩
      · next hne =>
        refine List.pairwise_cons.mpr ⟨fun b hb => ?_, ih hr⟩
        rcases mem_updateStatus hb with hb | hb
        · show e.1 < b.1
          omega
        · exact he b hb

theorem lookup_updateStatus (h : l.Pairwise fun a b => a.1 < b.1) :
    (updateStatus status empty f l).lookup other =
      if other = status then some (f ((l.lookup status).getD empty)) else l.lookup other := by
  induction l with
  | nil =>
    by_cases ho : other = status <;> simp [updateStatus, List.lookup_cons, ho, beq_false_of_ne]
  | cons e rest ih =>
    obtain ⟨n, a⟩ := e
    obtain ⟨he, hr⟩ := List.pairwise_cons.mp h
    unfold updateStatus
    split
    · next hlt =>
      -- All statuses that follow are greater.
      have hnone : List.lookup status ((n, a) :: rest) = none := by
        refine List.lookup_eq_none_iff.mpr (List.forall_mem_cons.mpr ⟨?_, fun b hb => ?_⟩)
        · exact bne_iff_ne.mpr (Nat.ne_of_lt hlt)
        · exact bne_iff_ne.mpr (Nat.ne_of_lt (Nat.lt_trans hlt (he b hb)))
      rw [hnone, List.lookup_cons]
      by_cases ho : other = status
      · simp [ho]
      · rw [beq_false_of_ne ho, if_neg ho]
    · split
      · next hs =>
        subst hs
        by_cases ho : other = status
        · simp [ho]
        · rw [if_neg ho, List.lookup_cons, List.lookup_cons, beq_false_of_ne ho]
      · next hne =>
        rw [List.lookup_cons, ih hr, List.lookup_cons (a := status), beq_false_of_ne hne]
        by_cases ho : other = n
        · simp [ho, Ne.symm hne]
        · rw [List.lookup_cons, beq_false_of_ne ho]

end UpdateStatus

/-- Parting a list by keys that are all different and all there are loses no member. -/
theorem perm_flatMap_filter {α κ : Type} [DecidableEq κ] {key : α → κ} {keys : List κ}
    (hn : keys.Nodup) : ∀ {l : List α}, (∀ a ∈ l, key a ∈ keys) →
      (keys.flatMap fun k => l.filter fun a => key a = k).Perm l
  | [], _ => by simp
  | a :: l, h => by
    obtain ⟨ha, hl⟩ := List.forall_mem_cons.mp h
    obtain ⟨before, after, rfl⟩ := List.append_of_mem ha
    obtain ⟨hb, ha⟩ : key a ∉ before ∧ key a ∉ after := by
      have := (List.perm_middle.nodup_iff.mp hn).notMem
      simpa using this
    have hsame : ∀ ks : List κ, key a ∉ ks →
        (ks.flatMap fun k => (a :: l).filter fun b => key b = k) =
          ks.flatMap fun k => l.filter fun b => key b = k := fun ks hks =>
      List.flatMap_congr fun k hk =>
        List.filter_cons_of_neg (by simpa using fun h : key a = k => hks (h ▸ hk))
    have ih := perm_flatMap_filter hn hl
    rw [List.flatMap_append, List.flatMap_cons] at ih ⊢
    rw [hsame _ hb, hsame _ ha, List.filter_cons_of_pos (by simp)]
    exact List.perm_middle.trans (ih.cons a)

namespace StatusError

/-- The status that an error is sent with: the one that the formatter gives for its code, or else
its own. -/
def sentWith (formatter : Option ErrorFormatter) (e : StatusError) : Nat :=
  (formatter.bind fun f => f.overrides.lookup e.code).getD e.status

/-- The errors that are sent with a status. -/
def withStatus (formatter : Option ErrorFormatter) (n : Nat) (es : List StatusError) :
    List StatusError :=
  es.filter fun e => e.sentWith formatter = n

variable {formatter : Option ErrorFormatter} {es : List StatusError} {e : StatusError} {n : Nat}

theorem mem_withStatus : e ∈ withStatus formatter n es ↔ e ∈ es ∧ e.sentWith formatter = n := by
  simp [withStatus]

theorem withStatus_append_singleton : withStatus formatter n (es ++ [e]) =
    if n = e.sentWith formatter then withStatus formatter n es ++ [e]
    else withStatus formatter n es := by
  rw [withStatus, List.filter_append]
  by_cases h : n = e.sentWith formatter
  · simp [withStatus, h]
  · simp [withStatus, h, Ne.symm h]

/-- Buckets hold errors by status, each bucket all errors of its status. -/
structure Parts (formatter : Option ErrorFormatter) (es : List StatusError)
    (buckets : List (Nat × List StatusError)) : Prop where
  increasing : buckets.Pairwise fun a b => a.1 < b.1
  lookup : ∀ n, buckets.lookup n =
    if withStatus formatter n es = [] then none else some (withStatus formatter n es)

theorem bucketErrors_append_singleton : bucketErrors (es ++ [e]) formatter =
    updateStatus (e.sentWith formatter) [] (fun es => merge es [e])
      (bucketErrors es formatter) := by
  rw [bucketErrors, List.foldl_append]
  cases formatter <;> rfl

/-- An error goes to the bucket of its status, and all other buckets stay as they are. -/
theorem Parts.update {buckets : List (Nat × List StatusError)} (h : Parts formatter es buckets)
    (he : e.identity ∉ identities es) :
    Parts formatter (es ++ [e])
      (updateStatus (e.sentWith formatter) [] (fun es => merge es [e]) buckets) where
  increasing := pairwise_updateStatus h.increasing
  lookup n := by
    rw [lookup_updateStatus h.increasing, withStatus_append_singleton]
    by_cases hn : n = e.sentWith formatter
    · have hnew : e.identity ∉ identities (withStatus formatter (e.sentWith formatter) es) := by
        intro hmem
        obtain ⟨x, hx, hi⟩ := mem_identities.mp hmem
        exact he (hi ▸ identity_mem (mem_withStatus.mp hx).1)
      have hget : ((buckets.lookup (e.sentWith formatter)).getD []) =
          withStatus formatter (e.sentWith formatter) es := by
        rw [h.lookup]
        split
        · next hnil => exact hnil.symm
        · rfl
      rw [if_pos hn, if_pos hn, hn, hget, if_neg (by simp), merge_cons, addNew_of_not_mem hnew]
      rfl
    · rw [if_neg hn, if_neg hn, h.lookup]

theorem parts_bucketErrors (formatter : Option ErrorFormatter) (h : (identities es).Nodup) :
    Parts formatter es (bucketErrors es formatter) := by
  induction es using List.reverseRecOn with
  | nil => exact ⟨.nil, fun n => rfl⟩
  | append_singleton es e ih =>
    rw [identities_append, List.nodup_append] at h
    rw [bucketErrors_append_singleton]
    exact (ih h.1).update fun he => h.2.2 _ he _ (identity_mem List.mem_cons_self) rfl

/-- A number that is a status of responses. -/
def IsStatus (n : Nat) : Prop := 100 ≤ n ∧ n ≤ 599

theorem isStatus_of_validStatus? {i : Int} (h : validStatus? i = some n) : IsStatus n := by
  unfold validStatus? at h
  split at h
  · next hi =>
    cases h
    simp only [Bool.and_eq_true, decide_eq_true_eq] at hi
    unfold IsStatus
    omega
  · cases h

theorem isStatus_status (e : StatusError) : IsStatus e.status := by
  unfold status
  dsimp only
  generalize (if 1000000 ≤ e.code.natAbs then Int.tdiv e.code 1000000 else e.code) = i
  cases h : validStatus? i with
  | none => exact ⟨by decide, by decide⟩
  | some n => exact isStatus_of_validStatus? h

end StatusError

namespace ErrorFormatter

theorem mem_tableOf {entries : List (Int × Nat)} {x : Int × Nat} (h : x ∈ tableOf entries) :
    x ∈ entries := by
  have hstep : ∀ table, x ∈ entries.foldl (fun table e => insertSorted e.1 e.2 table) table →
      x ∈ table ∨ x ∈ entries := by
    clear h
    induction entries with
    | nil => exact fun _ h => .inl h
    | cons y rest ih =>
      intro table h
      rcases ih _ h with h | h
      · rcases mem_insertSorted h with rfl | h
        · exact .inr List.mem_cons_self
        · exact .inl h
      · exact .inr (List.mem_cons_of_mem _ h)
  exact (hstep [] h).resolve_left List.not_mem_nil

/-- A formatter of a program overrides with statuses of responses only. -/
theorem isStatus_override {p : Program} {f : ErrorFormatter} (h : detect? p = some f) {code : Int}
    {n : Nat} (hn : f.overrides.lookup code = some n) : StatusError.IsStatus n := by
  obtain ⟨fn, -, hfn⟩ := List.exists_of_findSome?_eq_some h
  obtain ⟨e, -, he⟩ := List.exists_of_findSome?_eq_some hfn
  obtain ⟨type, -, htype⟩ := Option.bind_eq_some_iff.mp he
  obtain ⟨d, -, rfl⟩ := Option.map_eq_some_iff.mp htype
  obtain ⟨⟨_, status⟩, -, hx⟩ := List.mem_filterMap.mp (mem_tableOf (mem_of_lookup hn))
  obtain ⟨_, hv, heq⟩ := Option.map_eq_some_iff.mp hx
  cases heq
  exact StatusError.isStatus_of_validStatus? hv

end ErrorFormatter

theorem StatusError.isStatus_sentWith (p : Program) (e : StatusError) :
    IsStatus (e.sentWith (ErrorFormatter.detect? p)) := by
  unfold sentWith
  cases hf : ErrorFormatter.detect? p with
  | none => exact isStatus_status e
  | some f =>
    rw [Option.bind_some]
    cases hn : f.overrides.lookup e.code with
    | none => exact isStatus_status e
    | some n => exact ErrorFormatter.isStatus_override hf hn

end ServiceContract
