import Mathlib.Data.List.Nodup
import Mathlib.Data.List.Perm.Subperm
import Mathlib.Data.List.Sort
import Mathlib.Logic.Function.Basic

/-! # Lists without repetitions

A list may have equal things that stand in different places. It lists them without a repetition and
without a gap if its members can be numbered by their places, each place once. If the places have
an order, the list may follow it.
-/

namespace ServiceContract

/-- A list has one thing for each index that a thing stands at, and the index of what comes first is
related to the index of what comes later. -/
def EnumeratesBy {ι α : Type} (R : ι → ι → Prop) (P : ι → α → Prop) (l : List α) : Prop :=
  ∃ es : List (ι × α), es.map Prod.snd = l ∧ (es.map Prod.fst).Pairwise R ∧
    ∀ i a, (i, a) ∈ es ↔ P i a

/-- A list has one thing for each index that a thing stands at. -/
def Enumerates {ι α : Type} (P : ι → α → Prop) (l : List α) : Prop :=
  ∃ es : List (ι × α), es.map Prod.snd = l ∧ (es.map Prod.fst).Nodup ∧ ∀ i a, (i, a) ∈ es ↔ P i a

namespace EnumeratesBy

variable {ι κ α β : Type} {R : ι → ι → Prop} {S : κ → κ → Prop} {P P' : ι → α → Prop} {l : List α}

theorem nil (h : ∀ i a, ¬ P i a) : EnumeratesBy R P [] :=
  ⟨[], rfl, .nil, fun i a => by simp [h i a]⟩

theorem singleton {i : ι} {a : α} (h : ∀ j b, P j b ↔ j = i ∧ b = a) : EnumeratesBy R P [a] :=
  ⟨[(i, a)], rfl, List.pairwise_singleton R i, fun j b => by simp [h j b]⟩

theorem congr (h : EnumeratesBy R P l) (hP : ∀ i a, P i a ↔ P' i a) : EnumeratesBy R P' l := by
  obtain ⟨es, hl, hr, hm⟩ := h
  exact ⟨es, hl, hr, fun i a => (hm i a).trans (hP i a)⟩

theorem mono {R' : ι → ι → Prop} (h : EnumeratesBy R P l) (hR : ∀ i j, R i j → R' i j) :
    EnumeratesBy R' P l := by
  obtain ⟨es, hl, hr, hm⟩ := h
  exact ⟨es, hl, hr.imp fun {i j} => hR i j, hm⟩

/-- The indices may be replaced by others that are related as they are. -/
theorem reindex {f : ι → κ} (h : EnumeratesBy R P l) (hf : ∀ i j, R i j → S (f i) (f j)) :
    EnumeratesBy S (fun k a => ∃ i, f i = k ∧ P i a) l := by
  obtain ⟨es, rfl, hr, hm⟩ := h
  refine ⟨es.map (Prod.map f id), by simp [Function.comp_def], ?_, fun k a => ?_⟩
  · have hmap : (es.map (Prod.map f id)).map Prod.fst = (es.map Prod.fst).map f := by
      simp [Function.comp_def]
    rw [hmap, List.pairwise_map]
    exact hr.imp fun {i j} => hf i j
  · simp only [← hm, List.mem_map, Prod.exists, Prod.map_apply, id_eq, Prod.mk.injEq]
    constructor
    · rintro ⟨i, b, hi, rfl, rfl⟩
      exact ⟨i, rfl, hi⟩
    · rintro ⟨i, rfl, hi⟩
      exact ⟨i, a, hi, rfl, rfl⟩

theorem enumerates (h : EnumeratesBy R P l) (hR : ∀ i, ¬ R i i) : Enumerates P l :=
  h.mono fun i _ hij heq => hR i (heq ▸ hij)

/-- Where the order is strict, there is one such list. -/
theorem unique {l' : List α} (h : EnumeratesBy R P l) (h' : EnumeratesBy R P l')
    (hR : ∀ i j, R i j → ¬ R j i) : l = l' := by
  obtain ⟨es, rfl, hr, hm⟩ := h
  obtain ⟨es', rfl, hr', hm'⟩ := h'
  have : Std.Irrefl fun e e' : ι × α => R e.1 e'.1 := ⟨fun _ h => hR _ _ h h⟩
  have : Std.Antisymm fun e e' : ι × α => R e.1 e'.1 := ⟨fun _ _ h h' => absurd h' (hR _ _ h)⟩
  rw [(List.pairwise_map.mp hr).eq_of_mem_iff (List.pairwise_map.mp hr') fun e =>
    (hm _ _).trans (hm' _ _).symm]

/-- Two lists are one after the other. -/
theorem append {l' : List α} (h : EnumeratesBy R P l) (h' : EnumeratesBy R P' l')
    (across : ∀ i a j b, P i a → P' j b → R i j) :
    EnumeratesBy R (fun i a => P i a ∨ P' i a) (l ++ l') := by
  obtain ⟨es, rfl, hr, hm⟩ := h
  obtain ⟨es', rfl, hr', hm'⟩ := h'
  refine ⟨es ++ es', List.map_append, ?_, fun i a => by simp [hm, hm']⟩
  rw [List.map_append, List.pairwise_append]
  refine ⟨hr, hr', fun i hi j hj => ?_⟩
  obtain ⟨⟨_, a⟩, ha, rfl⟩ := List.mem_map.mp hi
  obtain ⟨⟨_, b⟩, hb, rfl⟩ := List.mem_map.mp hj
  exact across _ a _ b ((hm _ a).mp ha) ((hm' _ b).mp hb)

/-- The things that are listed for each of the things in a list. -/
theorem flatMap {Q : ι → α → κ → β → Prop} {f : α → List β} (h : EnumeratesBy R P l)
    (hf : ∀ i a, P i a → EnumeratesBy S (Q i a) (f a))
    (across : ∀ i a j b k x m y, P i a → P j b → R i j → Q i a k x → Q j b m y → S k m) :
    EnumeratesBy S (fun k x => ∃ i a, P i a ∧ Q i a k x) (l.flatMap f) := by
  obtain ⟨es, rfl, hr, hm⟩ := h
  have listed (e : ι × α) : ∃ es' : List (κ × β), e ∈ es → es'.map Prod.snd = f e.2 ∧
      (es'.map Prod.fst).Pairwise S ∧ ∀ k x, (k, x) ∈ es' ↔ Q e.1 e.2 k x := by
    by_cases he : e ∈ es
    · obtain ⟨es', hes'⟩ := hf e.1 e.2 ((hm _ _).mp he)
      exact ⟨es', fun _ => hes'⟩
    · exact ⟨[], fun h => absurd h he⟩
  choose g hg using listed
  refine ⟨es.flatMap g, ?_, ?_, fun k x => ?_⟩
  · rw [List.map_flatMap, List.flatMap_map]
    exact List.flatMap_congr fun e he => (hg e he).1
  · rw [List.map_flatMap, List.pairwise_flatMap]
    refine ⟨fun e he => (hg e he).2.1, ?_⟩
    refine (List.pairwise_map.mp hr).imp_of_mem fun {e e'} he he' hlt k hk m hm' => ?_
    obtain ⟨⟨_, x⟩, hx, rfl⟩ := List.mem_map.mp hk
    obtain ⟨⟨_, y⟩, hy, rfl⟩ := List.mem_map.mp hm'
    exact across _ _ _ _ _ x _ y ((hm _ _).mp he) ((hm _ _).mp he') hlt
      (((hg e he).2.2 _ x).mp hx) (((hg e' he').2.2 _ y).mp hy)
  · simp only [List.mem_flatMap]
    constructor
    · rintro ⟨e, he, hx⟩
      exact ⟨e.1, e.2, (hm _ _).mp he, ((hg e he).2.2 k x).mp hx⟩
    · rintro ⟨i, a, ha, hx⟩
      have he := (hm i a).mpr ha
      exact ⟨(i, a), he, ((hg _ he).2.2 k x).mpr hx⟩

theorem filterMap {f : α → Option β} (h : EnumeratesBy R P l) :
    EnumeratesBy R (fun i b => ∃ a, P i a ∧ f a = some b) (l.filterMap f) := by
  have each (i : ι) (a : α) : EnumeratesBy R (fun k b => k = i ∧ f a = some b) (f a).toList := by
    cases f a with
    | none => exact .nil fun k b => by simp
    | some b => exact .singleton (i := i) fun k c => by simp [eq_comm]
  rw [List.filterMap_eq_flatMap_toList]
  refine (h.flatMap (fun i a _ => each i a) ?_).congr fun k b => ?_
  · rintro i _ j _ _ _ _ _ - - hij ⟨rfl, -⟩ ⟨rfl, -⟩
    exact hij
  · constructor
    · rintro ⟨i, a, ha, rfl, hb⟩
      exact ⟨a, ha, hb⟩
    · rintro ⟨a, ha, hb⟩
      exact ⟨k, a, ha, rfl, hb⟩

/-- The members of a list stand at their places in it. -/
theorem places (l : List α) : EnumeratesBy (· < ·) (fun (i : ℕ) a => l[i]? = some a) l := by
  refine ⟨l.zipIdx.map Prod.swap, ?_, ?_, fun i a => ?_⟩
  · simp [Function.comp_def]
  · have hmap : (l.zipIdx.map Prod.swap).map Prod.fst = l.zipIdx.map Prod.snd := by
      simp [Function.comp_def]
    rw [hmap, List.zipIdx_map_snd]
    exact List.pairwise_lt_range'
  · refine Iff.trans ?_ List.mk_mem_zipIdx_iff_getElem?
    rw [List.mem_map]
    constructor
    · rintro ⟨⟨b, j⟩, h, heq⟩
      cases heq
      exact h
    · exact fun h => ⟨(a, i), h, rfl⟩

end EnumeratesBy

namespace Enumerates

variable {ι κ α β : Type} {P P' : ι → α → Prop} {l l' : List α}

theorem nil (h : ∀ i a, ¬ P i a) : Enumerates P [] := EnumeratesBy.nil h

theorem singleton {i : ι} {a : α} (h : ∀ j b, P j b ↔ j = i ∧ b = a) : Enumerates P [a] :=
  EnumeratesBy.singleton h

theorem congr (h : Enumerates P l) (hP : ∀ i a, P i a ↔ P' i a) : Enumerates P' l :=
  EnumeratesBy.congr h hP

/-- The indices may be replaced by others. -/
theorem reindex {f : ι → κ} (h : Enumerates P l) (hf : f.Injective) :
    Enumerates (fun k a => ∃ i, f i = k ∧ P i a) l :=
  EnumeratesBy.reindex h fun _ _ hne => hf.ne hne

/-- Things that stand at no common index are listed one after the other. -/
theorem append (h : Enumerates P l) (h' : Enumerates P' l')
    (apart : ∀ i a b, P i a → ¬ P' i b) : Enumerates (fun i a => P i a ∨ P' i a) (l ++ l') :=
  EnumeratesBy.append h h' fun i a _ b ha hb heq => apart i a b ha (heq ▸ hb)

/-- The things that are listed for each of the things in a list. -/
theorem flatMap {Q : ι → α → κ → β → Prop} {f : α → List β} (h : Enumerates P l)
    (hf : ∀ i a, P i a → Enumerates (Q i a) (f a))
    (apart : ∀ i a j b k x y, P i a → P j b → Q i a k x → Q j b k y → i = j) :
    Enumerates (fun k x => ∃ i a, P i a ∧ Q i a k x) (l.flatMap f) := by
  refine EnumeratesBy.flatMap h hf fun i a j b k x m y ha hb hne hx hy => ?_
  rintro rfl
  exact hne (apart i a j b k x y ha hb hx hy)

/-- The members of a list stand at their places in it. -/
theorem places (l : List α) : Enumerates (fun (i : ℕ) a => l[i]? = some a) l :=
  (EnumeratesBy.places l).mono fun _ _ => Nat.ne_of_lt

/-- Of lists for the same thing, one at some of the indices of the other, one is as long as the
other only if there are no further indices. -/
theorem eq_of_imp (h : Enumerates P l) (h' : Enumerates P' l) (himp : ∀ i a, P' i a → P i a) :
    ∀ i a, P i a → P' i a := by
  obtain ⟨es, hl, hn, hm⟩ := h
  obtain ⟨es', hl', hn', hm'⟩ := h'
  intro i a ha
  have hsub : es' ⊆ es := fun e he => (hm _ _).mpr (himp _ _ ((hm' _ _).mp he))
  have hlen : es.length = es'.length := by
    simpa using congrArg List.length (hl.trans hl'.symm)
  have hperm := (List.Nodup.subperm (hn'.of_map Prod.fst) hsub).perm_of_length_le
    (Nat.le_of_eq hlen)
  exact (hm' _ _).mp (hperm.mem_iff.mpr ((hm i a).mpr ha))

end Enumerates

end ServiceContract
