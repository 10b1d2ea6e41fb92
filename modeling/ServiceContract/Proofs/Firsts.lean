import ServiceContract.Proofs.Enumerates

/-! # The first of each key

A loop that appends only what has a new key keeps the first thing of each key. If a list follows an
order, what is kept stands before everything else that has its key.
-/

namespace ServiceContract

variable {α β ι : Type} [BEq β] {key : α → β} {l : List α}

/-- The elements of a list without those whose key an earlier one has. -/
def firstsBy (key : α → β) (l : List α) : List α := l.eraseDupsBy fun a b => key a == key b

@[simp] theorem firstsBy_nil : firstsBy key [] = [] := rfl

theorem firstsBy_cons (a : α) :
    firstsBy key (a :: l) = a :: firstsBy key (l.filter fun b => key b != key a) := by
  simp [firstsBy, List.eraseDupsBy_cons, bne]

variable [LawfulBEq β]

/-- Appending only what has a new key keeps the first element of each key. -/
theorem foldl_eq_append_firstsBy (key : α → β) {add : List α → α → List α}
    (hadd : ∀ acc a, add acc a = if acc.any fun b => key b == key a then acc else acc ++ [a])
    (l acc : List α) :
    l.foldl add acc = acc ++ firstsBy key (l.filter fun a => !acc.any fun b => key b == key a) := by
  induction l generalizing acc with
  | nil => simp
  | cons a l ih =>
    rw [List.foldl_cons, ih, hadd]
    by_cases h : acc.any fun b => key b == key a
    · rw [if_pos h, List.filter_cons_of_neg (by simp [h])]
    · rw [if_neg h, List.filter_cons_of_pos (by simp [h]), firstsBy_cons, List.filter_filter,
        List.append_assoc, List.singleton_append]
      congr 4
      funext b
      simp [bne, Bool.and_comm, BEq.comm (a := key a)]

theorem foldl_nil_eq_firstsBy (key : α → β) {add : List α → α → List α}
    (hadd : ∀ acc a, add acc a = if acc.any fun b => key b == key a then acc else acc ++ [a])
    (l : List α) : l.foldl add [] = firstsBy key l := by
  rw [foldl_eq_append_firstsBy key hadd]
  simp

theorem nodup_map_firstsBy (key : α → β) (l : List α) : ((firstsBy key l).map key).Nodup := by
  have hfold := foldl_nil_eq_firstsBy key
    (fun acc a => (rfl : (if acc.any fun b => key b == key a then acc else acc ++ [a]) = _)) l
  rw [← hfold]
  refine List.foldlRecOn (motive := fun acc : List α => (acc.map key).Nodup) _ _ List.nodup_nil ?_
  intro acc hacc a _
  split
  · exact hacc
  · next hnew =>
    rw [List.map_append]
    refine hacc.append (List.nodup_singleton _) (List.disjoint_singleton.mpr fun hmem => hnew ?_)
    obtain ⟨b, hb, heq⟩ := List.mem_map.mp hmem
    exact List.any_eq_true.mpr ⟨b, hb, beq_iff_eq.mpr heq⟩

theorem firstsBy_of_nodup (h : (l.map key).Nodup) : firstsBy key l = l := by
  induction l with
  | nil => rfl
  | cons a l ih =>
    obtain ⟨ha, hn⟩ := List.nodup_cons.mp h
    rw [firstsBy_cons, List.filter_eq_self.mpr, ih hn]
    intro b hb
    exact bne_iff_ne.mpr fun he => ha (he ▸ List.mem_map_of_mem hb)

/-- What is kept of an ordered list is what has nothing of its key before it. -/
theorem sublist_firstsBy {R : ι → ι → Prop} (hR : ∀ i j, R i j → ¬ R j i) (key : α → β) :
    ∀ es : List (ι × α), (es.map Prod.fst).Pairwise R → ∃ es' : List (ι × α),
      es'.Sublist es ∧ es'.map Prod.snd = firstsBy key (es.map Prod.snd) ∧
        ∀ i a, (i, a) ∈ es' ↔ (i, a) ∈ es ∧ ∀ j b, (j, b) ∈ es → R j i → key b ≠ key a
  | [], _ => ⟨[], .slnil, rfl, by simp⟩
  | (i, a) :: rest, hr => by
    obtain ⟨hfirst, hrest⟩ := List.pairwise_cons.mp hr
    have hbefore : ∀ j b, (j, b) ∈ rest → R i j := fun j b hj =>
      hfirst j (List.mem_map_of_mem (f := Prod.fst) hj)
    have hsub : (rest.filter fun e => key e.2 != key a).Sublist rest := List.filter_sublist
    obtain ⟨es', hs, hl, hm⟩ := sublist_firstsBy hR key _ (hrest.sublist (hsub.map Prod.fst))
    refine ⟨(i, a) :: es', (hs.trans hsub).cons_cons _, ?_, fun j b => ?_⟩
    · rw [List.map_cons, hl, List.map_cons, firstsBy_cons, List.filter_map]
      rfl
    · simp only [List.mem_cons, hm, List.mem_filter, bne_iff_ne, Prod.mk.injEq]
      grind
termination_by es => es.length
decreasing_by exact Nat.lt_succ_of_le (List.length_filter_le _ _)

theorem EnumeratesBy.firstsBy {R : ι → ι → Prop} {P : ι → α → Prop} (h : EnumeratesBy R P l)
    (hR : ∀ i j, R i j → ¬ R j i) (key : α → β) :
    EnumeratesBy R (fun i a => P i a ∧ ∀ j b, P j b → R j i → key b ≠ key a)
      (ServiceContract.firstsBy key l) := by
  obtain ⟨es, rfl, hr, hm⟩ := h
  obtain ⟨es', hs, hl, hm'⟩ := sublist_firstsBy hR key es hr
  exact ⟨es', hl, hr.sublist (hs.map _), fun i a => by simp only [hm', hm]⟩

end ServiceContract
