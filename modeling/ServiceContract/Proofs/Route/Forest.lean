import ServiceContract.Route.Forest
import Mathlib.Data.List.Nodup

/-! # The shape of the forest

Where a scope stands is told twice, by its own parent and by the children of that one. Registering
keeps both alike, gives no scope a second place, and closes no cycle, so that whoever follows
parents comes to a top.
-/

namespace ServiceContract.ScopeForest

/-- The scopes on the way from a scope to the top, both included. -/
inductive Climbs (f : ScopeForest) : ScopeId → List ScopeId → Prop
  | top {id} : f.parent? id = none → Climbs f id [id]
  | up {id above ids} : f.parent? id = some above → Climbs f above ids → Climbs f id (id :: ids)

structure IsForest (f : ScopeForest) : Prop where
  mem_children_iff : ∀ q c, c ∈ (f.scope q).children ↔ f.parent? c = some q
  /-- No scope occurs twice over all lists of children. -/
  nodup_children : (f.scopes.toList.flatMap RouteScope.children).Nodup
  /-- Following parents ends at a top and meets no scope twice. -/
  climbs : ∀ id, ∃ ids, f.Climbs id ids ∧ ids.Nodup

/-- Every scope with a place in one forest has the same place in another one. -/
def PlacesKept (f g : ScopeForest) : Prop :=
  ∀ c q, f.parent? c = some q → g.parent? c = some q

variable {f g : ScopeForest} {id q c : ScopeId} {ids ids' : List ScopeId}

theorem PlacesKept.refl (f : ScopeForest) : f.PlacesKept f := fun _ _ h => h

theorem PlacesKept.trans {h : ScopeForest} (hfg : f.PlacesKept g) (hgh : g.PlacesKept h) :
    f.PlacesKept h := fun c q hc => hgh c q (hfg c q hc)

section Scopes

theorem getElem?_scopes (h : id < f.size) : f.scopes[id]? = some (f.scope id) := by
  simp [scope, Array.getElem?_eq_getElem (show id < f.scopes.size from h)]

theorem scope_of_size_le (h : f.size ≤ id) : f.scope id = {} := by
  simp [scope, Array.getElem?_eq_none (show f.scopes.size ≤ id from h)]

theorem lt_size_of_mem_children (h : c ∈ (f.scope q).children) : q < f.size := by
  by_contra hq
  rw [scope_of_size_le (Nat.le_of_not_lt hq)] at h
  cases h

variable {operators : List OperatorRef}

@[simp] theorem size_add : (f.add operators).2.size = f.size + 1 := by simp [add, size]

@[simp] theorem size_attach : (f.attach id operators).size = f.size := by simp [attach, size]

@[simp] theorem size_link : (f.link q c).size = f.size := by
  unfold link
  split <;> simp [size]

theorem scope_add : (f.add operators).2.scope id =
    if id = f.size then { operators } else f.scope id := by
  simp only [add, scope, size, Array.getElem?_push]
  by_cases h : id = f.scopes.size <;> simp [h]

theorem scope_attach : (f.attach q operators).scope id =
    if id = q ∧ q < f.size then { f.scope id with operators := (f.scope id).operators ++ operators }
    else f.scope id := by
  simp only [attach, scope, size, Array.getElem?_modify]
  by_cases h : q = id
  · subst h
    by_cases hq : q < f.scopes.size
    · simp [hq]
    · simp [hq]
  · simp [h, Ne.symm h]

@[simp] theorem parent?_add : (f.add operators).2.parent? id = f.parent? id := by
  simp only [parent?, scope_add]
  split
  · next h => rw [h, scope_of_size_le (Nat.le_refl _)]
  · rfl

@[simp] theorem children_add : ((f.add operators).2.scope id).children = (f.scope id).children := by
  rw [scope_add]
  split
  · next h => rw [h, scope_of_size_le (Nat.le_refl _)]
  · rfl

@[simp] theorem parent?_attach : (f.attach q operators).parent? id = f.parent? id := by
  simp only [parent?, scope_attach]
  split <;> rfl

@[simp] theorem children_attach :
    ((f.attach q operators).scope id).children = (f.scope id).children := by
  rw [scope_attach]
  split <;> rfl

end Scopes

section Climbing

theorem Climbs.unique (h : f.Climbs id ids) (h' : f.Climbs id ids') : ids = ids' := by
  induction h generalizing ids' with
  | top hn =>
    cases h' with
    | top => rfl
    | up hs => simp [hn] at hs
  | up hs _ ih =>
    cases h' with
    | top hn => simp [hn] at hs
    | up hs' h' =>
      obtain rfl := Option.some.inj (hs.symm.trans hs')
      rw [ih h']

/-- From each scope on the way the rest of the way leads to the top. -/
theorem Climbs.of_mem (h : f.Climbs id ids) (hc : c ∈ ids) :
    ∃ below rest, ids = below ++ rest ∧ f.Climbs c rest := by
  induction h with
  | top hn =>
    obtain rfl := List.mem_singleton.mp hc
    exact ⟨[], [c], rfl, .top hn⟩
  | @up id above ids hs hr ih =>
    rcases List.mem_cons.mp hc with rfl | hc
    · exact ⟨[], c :: ids, rfl, .up hs hr⟩
    · obtain ⟨below, rest, rfl, h⟩ := ih hc
      exact ⟨id :: below, rest, rfl, h⟩

theorem Climbs.nodup (h : f.Climbs id ids) : ids.Nodup := by
  induction h with
  | top => exact List.nodup_singleton _
  | @up id above ids hs hr ih =>
    refine List.nodup_cons.mpr ⟨fun hmem => ?_, ih⟩
    obtain ⟨below, rest, rfl, h⟩ := hr.of_mem hmem
    have heq := congrArg List.length ((Climbs.up hs hr).unique h)
    simp only [List.length_cons, List.length_append] at heq
    omega

theorem Climbs.mem_tail_lt_size (hf : ∀ q c, c ∈ (f.scope q).children ↔ f.parent? c = some q)
    (h : f.Climbs id ids) : ∀ c ∈ ids.tail, c < f.size := by
  induction h with
  | top => simp
  | @up id above ids hs hr ih =>
    intro c hc
    cases hr with
    | top =>
      obtain rfl := List.mem_singleton.mp hc
      exact lt_size_of_mem_children ((hf _ _).mpr hs)
    | up =>
      rcases List.mem_cons.mp hc with rfl | hc
      · exact lt_size_of_mem_children ((hf _ _).mpr hs)
      · exact ih c hc

theorem leadsTo_iff {n : Nat} (h : f.Climbs id ids) (hn : ids.length ≤ n) :
    f.leadsTo c n id = true ↔ c ∈ ids := by
  induction h generalizing n with
  | top hs =>
    cases n with
    | zero => cases hn
    | succ n => simp [leadsTo, hs, eq_comm (a := c)]
  | up hs _ ih =>
    cases n with
    | zero => cases hn
    | succ n => simp [leadsTo, hs, ih (Nat.le_of_succ_le_succ hn), eq_comm (a := c)]

theorem Climbs.congr (hc : f.Climbs id ids) (h : ∀ c ∈ ids, g.parent? c = f.parent? c) :
    g.Climbs id ids := by
  induction hc with
  | top hn => exact .top ((h _ List.mem_cons_self).trans hn)
  | up hs _ ih =>
    exact .up ((h _ List.mem_cons_self).trans hs) (ih fun c hc => h c (List.mem_cons_of_mem _ hc))

end Climbing

namespace IsForest

theorem of_scopes (hm : ∀ q c, c ∈ (f.scope q).children ↔ f.parent? c = some q)
    (hn : ∀ q, (f.scope q).children.Nodup) (hc : ∀ id, ∃ ids, f.Climbs id ids) : f.IsForest where
  mem_children_iff := hm
  nodup_children := by
    have hscope : ∀ (i : Nat) (hi : i < f.scopes.toList.length),
        f.scopes.toList[i] = f.scope i := by
      intro i hi
      simp [scope, Array.getElem?_eq_getElem (by simpa using hi)]
    refine List.nodup_flatMap.mpr ⟨fun s hs => ?_, List.pairwise_iff_getElem.mpr ?_⟩
    · obtain ⟨i, hi, rfl⟩ := List.mem_iff_getElem.mp hs
      rw [hscope]
      exact hn i
    · intro i j hi hj hij c hci hcj
      rw [hscope, hm] at hci hcj
      exact absurd (Option.some.inj (hci.symm.trans hcj)) (Nat.ne_of_lt hij)
  climbs id := (hc id).imp fun _ h => ⟨h, h.nodup⟩

theorem nodup (h : f.IsForest) (q : ScopeId) : (f.scope q).children.Nodup := by
  by_cases hq : q < f.size
  · refine (List.nodup_flatMap.mp h.nodup_children).1 _ ?_
    exact List.mem_of_getElem? ((Array.getElem?_toList ..).trans (getElem?_scopes hq))
  · rw [scope_of_size_le (Nat.le_of_not_lt hq)]
    exact List.nodup_nil

theorem congr (h : f.IsForest) (hp : ∀ c, g.parent? c = f.parent? c)
    (hc : ∀ q, (g.scope q).children = (f.scope q).children) : g.IsForest :=
  of_scopes (fun q c => by rw [hc, hp, h.mem_children_iff]) (fun q => hc q ▸ h.nodup q)
    fun id => (h.climbs id).imp fun _ hids => hids.1.congr fun c _ => hp c

theorem empty : IsForest {} :=
  of_scopes (fun q c => by simp [scope, parent?]) (fun q => by simp [scope])
    fun id => ⟨[id], .top (by simp [parent?, scope])⟩

/-- A way to the top is no longer than the forest is large. -/
theorem length_le (h : f.IsForest) (hids : f.Climbs id ids) : ids.length ≤ f.size + 1 := by
  have hsub : ids.tail ⊆ List.range f.size := fun c hc =>
    List.mem_range.mpr (hids.mem_tail_lt_size h.mem_children_iff c hc)
  have hlen := (hids.nodup.sublist (List.tail_sublist ids)).length_le_of_subset hsub
  simp only [List.length_tail, List.length_range] at hlen
  omega

/-- Looking for ancestors within the bound finds all of them. -/
theorem isAncestor_iff (h : f.IsForest) :
    f.isAncestor c id = true ↔ ∃ ids, f.Climbs id ids ∧ c ∈ ids := by
  obtain ⟨ids, hids, -⟩ := h.climbs id
  rw [isAncestor, leadsTo_iff hids (h.length_le hids)]
  exact ⟨fun hc => ⟨ids, hids, hc⟩, fun ⟨_, h', hc⟩ => hids.unique h' ▸ hc⟩

end IsForest

section Link

variable (hp : f.parent? c = none) (hq : q < f.size) (hc : c < f.size)
  (ha : f.isAncestor c q = false)

include hp hq hc ha

theorem scope_link (hne : c ≠ q) : (f.link q c).scope id =
    if id = c then { f.scope c with parent := some q }
    else if id = q then { f.scope q with children := (f.scope q).children ++ [c] }
    else f.scope id := by
  have hsq := getElem?_scopes hq
  have hsc := getElem?_scopes hc
  generalize f.scope q = sq, f.scope c = sc at hsq hsc ⊢
  simp only [link, hp, ha, Option.isSome_none, Bool.or_false, Bool.false_eq_true, if_false, scope,
    Array.getElem?_modify]
  by_cases h : id = c
  · subst h
    simp [hne.symm, hsc]
  · by_cases h' : id = q
    · subst h'
      simp [hne, h, hsq]
    · simp [h, h', Ne.symm h, Ne.symm h']

theorem parent?_link (hne : c ≠ q) :
    (f.link q c).parent? id = if id = c then some q else f.parent? id := by
  rw [parent?, scope_link hp hq hc ha hne]
  by_cases h : id = c
  · simp [h]
  · by_cases h' : id = q
    · simp [h', hne.symm, parent?]
    · simp [h, h', parent?]

theorem children_link (hne : c ≠ q) : ((f.link q c).scope id).children =
    if id = q then (f.scope q).children ++ [c] else (f.scope id).children := by
  rw [scope_link hp hq hc ha hne]
  by_cases h : id = c
  · simp [h, hne]
  · by_cases h' : id = q
    · simp [h', hne.symm]
    · simp [h, h']

end Link

/-- A scope that is put under one from which no way leads to it can still be climbed from. -/
theorem exists_climbs_of_parent? (hp : f.parent? c = none)
    (hg : ∀ id, g.parent? id = if id = c then some q else f.parent? id) (hq : g.Climbs q ids)
    (h : f.Climbs id ids') : ∃ ids, g.Climbs id ids := by
  induction h with
  | @top id hn =>
    by_cases hid : id = c
    · exact ⟨id :: ids, .up ((hg id).trans (if_pos hid)) hq⟩
    · exact ⟨[id], .top (((hg id).trans (if_neg hid)).trans hn)⟩
  | @up id above _ hs _ ih =>
    obtain ⟨rest, hrest⟩ := ih
    have hid : id ≠ c := fun he => by simp [he, hp] at hs
    exact ⟨id :: rest, .up (((hg id).trans (if_neg hid)).trans hs) hrest⟩

/-- A scope that is put under another one stood nowhere before, and not above that one. -/
theorem IsForest.link_cases (h : f.IsForest) (q c : ScopeId) :
    f.link q c = f ∨ f.parent? c = none ∧ f.isAncestor c q = false ∧ c ≠ q := by
  by_cases hkept : ((f.parent? c).isSome || f.isAncestor c q) = true
  · exact .inl (if_pos hkept)
  · obtain ⟨hp, ha⟩ : f.parent? c = none ∧ f.isAncestor c q = false := by simpa using hkept
    refine .inr ⟨hp, ha, ?_⟩
    rintro rfl
    obtain ⟨ids, hids, -⟩ := h.climbs c
    rw [h.isAncestor_iff.mpr ⟨ids, hids, by cases hids <;> simp⟩] at ha
    cases ha

/-- Registering keeps a forest a forest, whatever is registered under what. -/
theorem IsForest.link (h : f.IsForest) (hq : q < f.size) (hc : c < f.size) :
    (f.link q c).IsForest := by
  rcases h.link_cases q c with hkept | ⟨hp, ha, hne⟩
  · rwa [hkept]
  · obtain ⟨qs, hqs, -⟩ := h.climbs q
    have hcq : c ∉ qs := fun hmem => by
      rw [h.isAncestor_iff.mpr ⟨qs, hqs, hmem⟩] at ha
      cases ha
    have hparent : ∀ id, (f.link q c).parent? id = if id = c then some q else f.parent? id :=
      fun id => parent?_link hp hq hc ha hne
    have hnew : ∀ r, c ∉ (f.scope r).children := fun r hmem => by
      rw [h.mem_children_iff, hp] at hmem
      cases hmem
    refine .of_scopes (fun r d => ?_) (fun r => ?_) fun id => ?_
    · rw [children_link hp hq hc ha hne, hparent]
      by_cases hr : r = q <;> by_cases hd : d = c
      · simp [hr, hd]
      · simp [hr, hd, h.mem_children_iff]
      · simp [hr, hd, hnew r, Ne.symm hr]
      · simp [hr, hd, h.mem_children_iff]
    · rw [children_link hp hq hc ha hne]
      split
      · refine List.nodup_append.mpr ⟨h.nodup q, List.nodup_singleton _, ?_⟩
        rintro d hd e he rfl
        exact hnew q (List.mem_singleton.mp he ▸ hd)
      · exact h.nodup r
    · obtain ⟨ids, hids, -⟩ := h.climbs id
      refine exists_climbs_of_parent? hp hparent (hqs.congr fun d hd => ?_) hids
      rw [hparent, if_neg]
      rintro rfl
      exact hcq hd

/-- No scope with a place loses it when scopes are registered. -/
theorem IsForest.placesKept_link (h : f.IsForest) (hq : q < f.size) (hc : c < f.size) :
    f.PlacesKept (f.link q c) := by
  rcases h.link_cases q c with hkept | ⟨hp, ha, hne⟩
  · rw [hkept]
    exact .refl f
  · intro d r hd
    rw [parent?_link hp hq hc ha hne, if_neg fun he => by simp [he, hp] at hd]
    exact hd

end ServiceContract.ScopeForest
