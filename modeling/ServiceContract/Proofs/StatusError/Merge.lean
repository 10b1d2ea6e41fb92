import ServiceContract.Proofs.Firsts
import ServiceContract.StatusError.Basic

/-! # Merging status errors

Merging keeps the first error of each identity. The identities of a merged list are those of its
two parts, merging is associative, and what has been merged once adds nothing a second time.
-/

namespace ServiceContract.StatusError

variable {es fs gs : List StatusError} {e : StatusError} {i : String × Int}

/-- The identities of errors. -/
def identities (es : List StatusError) : List (String × Int) := es.map identity

/-- The errors of a list without those whose identity an earlier one has. -/
def firsts (es : List StatusError) : List StatusError := firstsBy identity es

@[simp] theorem identities_nil : identities [] = [] := rfl

@[simp] theorem identities_append : identities (es ++ fs) = identities es ++ identities fs :=
  List.map_append

theorem mem_identities : i ∈ identities es ↔ ∃ e ∈ es, e.identity = i := List.mem_map

theorem identity_mem (h : e ∈ es) : e.identity ∈ identities es := List.mem_map_of_mem h

theorem addNew_of_mem (h : e.identity ∈ identities es) : addNew es e = es := by
  obtain ⟨x, hx, he⟩ := mem_identities.mp h
  exact if_pos (List.any_eq_true.mpr ⟨x, hx, by simp [he]⟩)

theorem addNew_of_not_mem (h : e.identity ∉ identities es) : addNew es e = es ++ [e] := by
  refine if_neg fun hx => h ?_
  obtain ⟨x, hx, he⟩ := List.any_eq_true.mp hx
  exact mem_identities.mpr ⟨x, hx, by simpa using he⟩

@[simp] theorem merge_nil : merge es [] = es := rfl

@[simp] theorem merge_cons : merge es (e :: fs) = merge (addNew es e) fs := rfl

theorem merge_append : merge es (fs ++ gs) = merge (merge es fs) gs := List.foldl_append

theorem mem_identities_addNew :
    i ∈ identities (addNew es e) ↔ i ∈ identities es ∨ i = e.identity := by
  by_cases h : e.identity ∈ identities es
  · rw [addNew_of_mem h]
    exact ⟨Or.inl, fun hi => hi.elim id fun hi => hi ▸ h⟩
  · simp [addNew_of_not_mem h, identities]

theorem mem_identities_merge :
    i ∈ identities (merge es fs) ↔ i ∈ identities es ∨ i ∈ identities fs := by
  induction fs generalizing es with
  | nil => simp
  | cons f fs ih =>
    rw [merge_cons, ih, mem_identities_addNew, or_assoc]
    simp [identities]

theorem merge_of_subset (h : ∀ i ∈ identities fs, i ∈ identities es) : merge es fs = es := by
  induction fs with
  | nil => rfl
  | cons f fs ih =>
    rw [merge_cons, addNew_of_mem (h _ (identity_mem (by simp)))]
    exact ih fun i hi => h i (List.mem_cons_of_mem _ hi)

theorem merge_addNew : merge es (addNew fs e) = addNew (merge es fs) e := by
  by_cases h : e.identity ∈ identities fs
  · rw [addNew_of_mem h, addNew_of_mem (mem_identities_merge.mpr (.inr h))]
  · rw [addNew_of_not_mem h, merge_append]
    rfl

theorem merge_merge (es fs gs : List StatusError) :
    merge es (merge fs gs) = merge (merge es fs) gs := by
  induction gs generalizing fs with
  | nil => rfl
  | cons g gs ih => rw [merge_cons, merge_cons, ih, merge_addNew]

theorem nodup_addNew (h : (identities es).Nodup) : (identities (addNew es e)).Nodup := by
  by_cases he : e.identity ∈ identities es
  · rwa [addNew_of_mem he]
  · rw [addNew_of_not_mem he, identities_append]
    exact h.append (List.nodup_singleton _) (by simpa [identities] using he)

theorem nodup_merge (h : (identities es).Nodup) : (identities (merge es fs)).Nodup := by
  induction fs generalizing es with
  | nil => exact h
  | cons f fs ih => exact ih (nodup_addNew h)

/-- Merging into an empty list keeps the first error of each identity. -/
theorem merge_nil_left : merge [] fs = firsts fs :=
  foldl_nil_eq_firstsBy identity (fun _ _ => rfl) fs

theorem firsts_of_nodup (h : (identities fs).Nodup) : firsts fs = fs := firstsBy_of_nodup h

end ServiceContract.StatusError
