/-! # Association lists

Lists of keys with values, in the order in which the keys came or sorted by key. No key stands
twice in a list that is built by these functions.
-/

namespace ServiceContract

/-- Sets a key of an association list, in place if it is present and at the end otherwise. -/
def setKey {κ α : Type} [DecidableEq κ] (key : κ) (value : α) : List (κ × α) → List (κ × α)
  | [] => [(key, value)]
  | (k, v) :: rest => if k = key then (k, value) :: rest else (k, v) :: setKey key value rest

/-- Inserts a key into an association list sorted by key, replacing its value if present. -/
def insertSorted {κ α : Type} [DecidableEq κ] [LT κ] [DecidableLT κ] (key : κ) (value : α) :
    List (κ × α) → List (κ × α)
  | [] => [(key, value)]
  | (k, v) :: rest =>
    if key < k then (key, value) :: (k, v) :: rest
    else if k = key then (k, value) :: rest
    else (k, v) :: insertSorted key value rest

/-- A fold that appends the members of a list, but for some, adds no others. -/
theorem mem_or_mem_of_mem_foldl {α : Type} {skips : List α → α → Bool} {as seen : List α} {a : α}
    (h : a ∈ as.foldl (fun seen b => if skips seen b then seen else seen ++ [b]) seen) :
    a ∈ seen ∨ a ∈ as := by
  induction as generalizing seen with
  | nil => exact Or.inl h
  | cons b rest ih =>
    rcases ih h with h | h
    · dsimp only at h
      split at h
      · exact Or.inl h
      · rcases List.mem_append.mp h with h | h
        · exact Or.inl h
        · exact Or.inr (List.mem_cons.mpr (Or.inl (List.mem_singleton.mp h)))
    · exact Or.inr (List.mem_cons_of_mem _ h)

section Lookup

variable {κ α : Type} [DecidableEq κ] {key other : κ} {value : α} {l : List (κ × α)}

theorem mem_of_lookup (h : l.lookup key = some value) : (key, value) ∈ l := by
  obtain ⟨l₁, l₂, rfl, _⟩ := List.lookup_eq_some_iff.mp h
  simp

theorem mem_keys_of_lookup (h : l.lookup key = some value) : key ∈ l.map Prod.fst :=
  List.mem_map_of_mem (mem_of_lookup h)

theorem lookup_eq_none_iff : l.lookup key = none ↔ key ∉ l.map Prod.fst := by
  rw [List.lookup_eq_none_iff, List.mem_map]
  constructor
  · rintro h ⟨e, he, rfl⟩
    simpa using h e he
  · exact fun h e he => bne_iff_ne.mpr fun hk => h ⟨e, he, hk.symm⟩

theorem mem_setKey {e : κ × α} (h : e ∈ setKey key value l) : e = (key, value) ∨ e ∈ l := by
  induction l with
  | nil => exact Or.inl (List.mem_singleton.mp h)
  | cons e' rest ih =>
    obtain ⟨k, v⟩ := e'
    unfold setKey at h
    split at h
    · next hk =>
      subst hk
      exact (List.mem_cons.mp h).imp_right (List.mem_cons_of_mem _)
    · rcases List.mem_cons.mp h with rfl | h
      · exact Or.inr List.mem_cons_self
      · exact (ih h).imp_right (List.mem_cons_of_mem _)

/-- A key that is new comes last. -/
theorem setKey_of_not_mem (h : key ∉ l.map Prod.fst) :
    setKey key value l = l ++ [(key, value)] := by
  induction l with
  | nil => rfl
  | cons e rest ih =>
    have hne : e.1 ≠ key := fun he => h (he ▸ List.mem_cons_self)
    rw [setKey, if_neg hne, ih fun hk => h (List.mem_cons_of_mem _ hk), List.cons_append]

/-- A key that is set keeps its place, or takes the last one. -/
theorem map_fst_setKey : (setKey key value l).map Prod.fst =
    if key ∈ l.map Prod.fst then l.map Prod.fst else l.map Prod.fst ++ [key] := by
  induction l with
  | nil => rfl
  | cons e rest ih =>
    obtain ⟨k, v⟩ := e
    unfold setKey
    by_cases hk : k = key
    · simp [hk]
    · rw [if_neg hk, List.map_cons, ih, List.map_cons]
      by_cases hr : key ∈ rest.map Prod.fst
      · rw [if_pos hr, if_pos (List.mem_cons_of_mem _ hr)]
      · rw [if_neg hr, if_neg (by simpa using ⟨Ne.symm hk, by simpa using hr⟩)]
        rfl

theorem nodup_map_fst_setKey (h : (l.map Prod.fst).Nodup) :
    ((setKey key value l).map Prod.fst).Nodup := by
  rw [map_fst_setKey]
  split
  · exact h
  · next hk =>
    refine List.nodup_append.mpr ⟨h, List.pairwise_singleton _ _, fun k hk' b hb heq => hk ?_⟩
    rwa [← List.mem_singleton.mp hb, ← heq]

theorem lookup_map {β : Type} {f : α → β} :
    (l.map fun e => (e.1, f e.2)).lookup key = (l.lookup key).map f := by
  induction l with
  | nil => rfl
  | cons e rest ih =>
    rw [List.map_cons, List.lookup_cons, List.lookup_cons, ih]
    split <;> rfl

theorem lookup_of_mem (h : (l.map Prod.fst).Nodup) (he : (key, value) ∈ l) :
    l.lookup key = some value := by
  induction l with
  | nil => cases he
  | cons e rest ih =>
    obtain ⟨k, v⟩ := e
    obtain ⟨hk, hr⟩ := List.nodup_cons.mp h
    rcases List.mem_cons.mp he with heq | he
    · cases heq
      simp
    · have hne : key ≠ k := fun heq => hk (List.mem_map.mpr ⟨_, he, heq⟩)
      rw [List.lookup_cons, beq_false_of_ne hne]
      exact ih hr he

theorem nodup_map_fst_foldl_setKey {entries : List (κ × α)} (h : (l.map Prod.fst).Nodup) :
    ((entries.foldl (fun l (k, v) => setKey k v l) l).map Prod.fst).Nodup := by
  induction entries generalizing l with
  | nil => exact h
  | cons e entries ih => exact ih (nodup_map_fst_setKey h)

theorem mem_foldl_setKey {e : κ × α} {entries : List (κ × α)}
    (h : e ∈ entries.foldl (fun l (k, v) => setKey k v l) l) : e ∈ entries ∨ e ∈ l := by
  induction entries generalizing l with
  | nil => exact Or.inr h
  | cons a rest ih =>
    obtain ⟨k, v⟩ := a
    rcases ih h with h | h
    · exact Or.inl (List.mem_cons_of_mem _ h)
    · rcases mem_setKey h with rfl | h
      · exact Or.inl List.mem_cons_self
      · exact Or.inr h

@[simp] theorem lookup_setKey_self : (setKey key value l).lookup key = some value := by
  induction l with
  | nil => simp [setKey]
  | cons e rest ih =>
    obtain ⟨k, v⟩ := e
    by_cases h : k = key
    · simp [setKey, h]
    · simp [setKey, h, List.lookup_cons, beq_false_of_ne (Ne.symm h), ih]

theorem lookup_setKey_of_ne (h : other ≠ key) :
    (setKey key value l).lookup other = l.lookup other := by
  induction l with
  | nil => simp [setKey, List.lookup_cons, beq_false_of_ne h]
  | cons e rest ih =>
    obtain ⟨k, v⟩ := e
    by_cases hk : k = key
    · simp [setKey, hk, List.lookup_cons, beq_false_of_ne h]
    · simp only [setKey, hk, if_false, List.lookup_cons, ih]

theorem lookup_setKey : (setKey key value l).lookup other =
    if other = key then some value else l.lookup other := by
  split
  · next h => rw [h, lookup_setKey_self]
  · next h => exact lookup_setKey_of_ne h

/-- Of the entries of a key that is set again and again, the last one counts. -/
theorem lookup_foldl_setKey {entries : List (κ × α)} :
    (entries.foldl (fun l (k, v) => setKey k v l) l).lookup key =
      (entries.reverse.lookup key).or (l.lookup key) := by
  induction entries generalizing l with
  | nil => simp
  | cons e entries ih =>
    obtain ⟨k, v⟩ := e
    rw [List.foldl_cons, ih, lookup_setKey, List.reverse_cons, List.lookup_append, Option.or_assoc,
      List.lookup_cons]
    by_cases h : key = k
    · simp [h]
    · simp [h, beq_false_of_ne h]

theorem setKey_setKey {before : α} :
    setKey key value (setKey key before l) = setKey key value l := by
  induction l with
  | nil => simp [setKey]
  | cons e rest ih => by_cases h : e.1 = key <;> simp [setKey, h, ih]

/-- A key that has its place may be set before or after another one. -/
theorem setKey_comm {value' : α} (hk : key ∈ l.map Prod.fst) (hne : key ≠ other) :
    setKey key value (setKey other value' l) = setKey other value' (setKey key value l) := by
  induction l with
  | nil => cases hk
  | cons e rest ih =>
    by_cases h : e.1 = key
    · simp [setKey, h, hne]
    · have hr : key ∈ rest.map Prod.fst := (List.mem_cons.mp hk).resolve_left (Ne.symm h)
      by_cases h' : e.1 = other
      · simp [setKey, h', hne.symm]
      · simp [setKey, h, h', ih hr]

section Again

variable {entries : List (κ × α)}

theorem setKey_foldl_setKey (hk : key ∈ l.map Prod.fst) (hn : key ∉ entries.map Prod.fst) :
    setKey key value (entries.foldl (fun l (k, v) => setKey k v l) l) =
      entries.foldl (fun l (k, v) => setKey k v l) (setKey key value l) := by
  induction entries generalizing l with
  | nil => rfl
  | cons e entries ih =>
    obtain ⟨k, v⟩ := e
    obtain ⟨hne, hn⟩ := not_or.mp (mt List.mem_cons.mpr hn)
    rw [List.foldl_cons, List.foldl_cons]
    dsimp only
    rw [← setKey_comm hk hne]
    refine ih ?_ hn
    rw [map_fst_setKey]
    split
    · exact hk
    · exact List.mem_append_left _ hk

/-- What is set last among distinct keys may be set at the end. -/
theorem foldl_setKey_setKey (hn : (entries.map Prod.fst).Nodup) :
    (setKey key value entries).foldl (fun l (k, v) => setKey k v l) l =
      setKey key value (entries.foldl (fun l (k, v) => setKey k v l) l) := by
  induction entries generalizing l with
  | nil => rfl
  | cons e entries ih =>
    obtain ⟨k, v⟩ := e
    obtain ⟨hk, hn⟩ := List.nodup_cons.mp hn
    rw [setKey]
    split
    · next h =>
      subst h
      have hmem : k ∈ (setKey k v l).map Prod.fst := mem_keys_of_lookup lookup_setKey_self
      rw [List.foldl_cons, List.foldl_cons, setKey_foldl_setKey hmem hk, setKey_setKey]
    · rw [List.foldl_cons, List.foldl_cons, ih hn]

/-- Entries that are set one after the other may be gathered in between. -/
theorem foldl_setKey_foldl_setKey {l' : List (κ × α)} (hn : (l'.map Prod.fst).Nodup) :
    (entries.foldl (fun l (k, v) => setKey k v l) l').foldl (fun l (k, v) => setKey k v l) l =
      entries.foldl (fun l (k, v) => setKey k v l) (l'.foldl (fun l (k, v) => setKey k v l) l) := by
  induction entries generalizing l' with
  | nil => rfl
  | cons e entries ih =>
    rw [List.foldl_cons, List.foldl_cons, ih (nodup_map_fst_setKey hn), foldl_setKey_setKey hn]

end Again

theorem lookup_setKey_eq_none :
    (setKey key value l).lookup other = none ↔ other ≠ key ∧ l.lookup other = none := by
  rw [lookup_setKey]
  by_cases h : other = key <;> simp [h]

theorem isSome_lookup_setKey :
    ((setKey key value l).lookup other).isSome ↔ other = key ∨ (l.lookup other).isSome := by
  rw [lookup_setKey]
  by_cases h : other = key <;> simp [h]

end Lookup

section Sorted

variable {α : Type} {key other : String} {value : α} {l : List (String × α)} {e : String × α}

/-- The keys of an association list increase. -/
def Increasing (l : List (String × α)) : Prop := l.Pairwise fun a b => a.1 < b.1

theorem lookup_insertSorted : (insertSorted key value l).lookup other =
    if other = key then some value else l.lookup other := by
  induction l with
  | nil => by_cases h : other = key <;> simp [insertSorted, List.lookup_cons, h, beq_false_of_ne]
  | cons e rest ih =>
    obtain ⟨k, v⟩ := e
    unfold insertSorted
    split
    · by_cases h : other = key <;> simp [List.lookup_cons, h, beq_false_of_ne]
    · split
      · next hk =>
        by_cases h : other = key <;> simp [List.lookup_cons, h, hk, beq_false_of_ne]
      · next hk =>
        rw [List.lookup_cons, ih]
        by_cases h : other = key
        · simp [h, beq_false_of_ne (Ne.symm hk)]
        · simp [h, List.lookup_cons]

theorem mem_keys_insertSorted : other ∈ (insertSorted key value l).map Prod.fst ↔
    other = key ∨ other ∈ l.map Prod.fst := by
  rw [← Decidable.not_iff_not, ← lookup_eq_none_iff, lookup_insertSorted]
  by_cases h : other = key
  · simp [h]
  · rw [if_neg h, lookup_eq_none_iff, not_or]
    exact (and_iff_right h).symm

theorem mem_insertSorted {κ : Type} [DecidableEq κ] [LT κ] [DecidableLT κ] {key : κ}
    {l : List (κ × α)} {e : κ × α} (h : e ∈ insertSorted key value l) :
    e = (key, value) ∨ e ∈ l := by
  induction l with
  | nil => exact Or.inl (List.mem_singleton.mp h)
  | cons e' rest ih =>
    obtain ⟨k, v⟩ := e'
    unfold insertSorted at h
    split at h
    · exact List.mem_cons.mp h
    · split at h
      · next hk =>
        subst hk
        exact (List.mem_cons.mp h).imp_right (List.mem_cons_of_mem _)
      · rcases List.mem_cons.mp h with rfl | h
        · exact Or.inr List.mem_cons_self
        · exact (ih h).imp_right (List.mem_cons_of_mem _)

theorem Increasing.insertSorted (h : Increasing l) : Increasing (insertSorted key value l) := by
  induction l with
  | nil => exact List.pairwise_singleton _ _
  | cons e rest ih =>
    obtain ⟨k, v⟩ := e
    obtain ⟨hk, hr⟩ := List.pairwise_cons.mp h
    unfold ServiceContract.insertSorted
    split
    · next hlt =>
      refine List.pairwise_cons.mpr ⟨fun e he => ?_, h⟩
      rcases List.mem_cons.mp he with rfl | he
      · exact hlt
      · exact String.lt_trans hlt (hk e he)
    · next hlt =>
      split
      · exact List.pairwise_cons.mpr ⟨hk, hr⟩
      · next hne =>
        refine List.pairwise_cons.mpr ⟨fun e he => ?_, ih hr⟩
        rcases mem_insertSorted he with rfl | he
        · exact Decidable.not_not.mp fun hn => hne (String.le_antisymm hlt hn)
        · exact hk e he

theorem filter_ne_of_lt (h : ∀ e ∈ l, key < e.1) : l.filter (fun e => e.1 ≠ key) = l :=
  List.filter_eq_self.mpr fun e he =>
    decide_eq_true fun heq => String.lt_irrefl key (heq ▸ h e he)

theorem filter_ne_of_lookup_eq_none (h : l.lookup key = none) :
    l.filter (fun e => e.1 ≠ key) = l :=
  List.filter_eq_self.mpr fun _ he =>
    decide_eq_true fun heq => lookup_eq_none_iff.mp h (heq ▸ List.mem_map_of_mem he)

/-- An inserted key stands beside the entries of all other keys. -/
theorem Increasing.insertSorted_perm (h : Increasing l) :
    (ServiceContract.insertSorted key value l).Perm
      ((key, value) :: l.filter fun e => e.1 ≠ key) := by
  induction l with
  | nil => exact .refl _
  | cons e rest ih =>
    obtain ⟨k, v⟩ := e
    obtain ⟨hk, hr⟩ := List.pairwise_cons.mp h
    unfold ServiceContract.insertSorted
    split
    · next hlt =>
      rw [filter_ne_of_lt (List.forall_mem_cons.mpr
        ⟨hlt, fun e he => String.lt_trans hlt (hk e he)⟩)]
    · split
      · next heq =>
        subst heq
        rw [List.filter_cons_of_neg (by simp), filter_ne_of_lt hk]
      · next hne =>
        rw [List.filter_cons_of_pos (by simp [hne])]
        exact ((ih hr).cons _).trans (.swap _ _ _)

/-- A key that is found stands beside the entries of all other keys. -/
theorem Increasing.perm_of_lookup (h : Increasing l) (found : l.lookup key = some value) :
    l.Perm ((key, value) :: l.filter fun e => e.1 ≠ key) := by
  induction l with
  | nil => simp at found
  | cons e rest ih =>
    obtain ⟨k, v⟩ := e
    obtain ⟨hk, hr⟩ := List.pairwise_cons.mp h
    by_cases heq : k = key
    · subst heq
      obtain rfl : v = value := by simpa using found
      rw [List.filter_cons_of_neg (by simp), filter_ne_of_lt hk]
    · rw [List.filter_cons_of_pos (by simp [heq])]
      rw [List.lookup_cons, beq_false_of_ne (Ne.symm heq)] at found
      exact ((ih hr found).cons _).trans (.swap _ _ _)

section Folds

variable {acc : List (String × α)}

theorem lookup_cons_ite {other : String} :
    List.lookup other ((key, value) :: l) = if other = key then some value else l.lookup other := by
  rw [List.lookup_cons]
  by_cases h : other = key
  · simp [h]
  · simp [h, beq_false_of_ne h]

theorem insertSorted_of_forall_lt (h : ∀ e ∈ l, e.1 < key) :
    insertSorted key value l = l ++ [(key, value)] := by
  induction l with
  | nil => rfl
  | cons e rest ih =>
    obtain ⟨he, hr⟩ := List.forall_mem_cons.mp h
    have hne : e.1 ≠ key := fun heq => String.lt_irrefl key (heq ▸ he)
    rw [insertSorted, if_neg (String.lt_asymm he), if_neg hne, ih hr, List.cons_append]

/-- Inserting the entries of a sorted list one after the other gives this list. -/
theorem foldl_insertSorted_of_increasing (h : Increasing (acc ++ l)) :
    l.foldl (fun acc (k, a) => insertSorted k a acc) acc = acc ++ l := by
  induction l generalizing acc with
  | nil => rw [List.foldl_nil, List.append_nil]
  | cons e l ih =>
    have hlt : ∀ a ∈ acc, a.1 < e.1 := fun a ha =>
      (List.pairwise_append.mp h).2.2 a ha e List.mem_cons_self
    have hinsert : insertSorted e.1 e.2 acc = acc ++ [e] := insertSorted_of_forall_lt hlt
    rw [List.foldl_cons]
    dsimp only
    rw [hinsert, ih (by simpa using h), List.append_assoc, List.singleton_append]

theorem increasing_foldl_insertSorted (h : Increasing acc) :
    Increasing (l.foldl (fun acc (k, a) => insertSorted k a acc) acc) := by
  induction l generalizing acc with
  | nil => exact h
  | cons e l ih => exact ih h.insertSorted

theorem mem_of_mem_foldl_insertSorted {e : String × α}
    (h : e ∈ l.foldl (fun acc (k, a) => insertSorted k a acc) acc) : e ∈ acc ∨ e ∈ l := by
  induction l generalizing acc with
  | nil => exact .inl h
  | cons e' l ih =>
    rcases ih h with h | h
    · exact (mem_insertSorted h).elim (fun heq => .inr (heq ▸ List.mem_cons_self)) .inl
    · exact .inr (List.mem_cons_of_mem _ h)

theorem lookup_foldl_insertSorted {other : String} (hn : (l.map Prod.fst).Nodup) :
    (l.foldl (fun acc (k, a) => insertSorted k a acc) acc).lookup other =
      (l.lookup other).or (acc.lookup other) := by
  induction l generalizing acc with
  | nil => simp
  | cons e l ih =>
    obtain ⟨hk, hl⟩ := List.nodup_cons.mp hn
    rw [List.foldl_cons, ih hl, lookup_insertSorted, lookup_cons_ite]
    by_cases h : other = e.1
    · rw [if_pos h, if_pos h, lookup_eq_none_iff.mpr (h ▸ hk), Option.none_or, Option.some_or]
    · rw [if_neg h, if_neg h]

/-- A key that is present does not get another value from behind. -/
theorem lookup_or_singleton (h : (l.lookup e.1).isSome) :
    (l.lookup key).or ([e].lookup key) = l.lookup key := by
  obtain ⟨found, hfound⟩ := Option.isSome_iff_exists.mp h
  by_cases hk : key = e.1
  · rw [hk, hfound, Option.some_or]
  · rw [lookup_cons_ite, if_neg hk, List.lookup_nil, Option.or_none]

/-- Where no entry that is added replaces one, of the entries of a key the first one counts. -/
theorem lookup_foldl_of_forall_or {add : List (String × α) → String × α → List (String × α)}
    (hadd : ∀ acc e, (add acc e).lookup key = (acc.lookup key).or ([e].lookup key)) :
    (l.foldl add acc).lookup key = (acc.lookup key).or (l.lookup key) := by
  induction l generalizing acc with
  | nil => rw [List.foldl_nil, List.lookup_nil, Option.or_none]
  | cons e l ih =>
    rw [List.foldl_cons, ih, hadd, Option.or_assoc, ← List.lookup_append, List.singleton_append]

theorem lookup_filter_of_pos {p : String → Bool} (h : p key = true) :
    (l.filter fun e => p e.1).lookup key = l.lookup key := by
  induction l with
  | nil => rfl
  | cons e l ih =>
    rw [List.filter_cons]
    by_cases hk : key = e.1
    · subst hk
      rw [if_pos h, lookup_cons_ite, lookup_cons_ite, if_pos rfl, if_pos rfl]
    · rw [lookup_cons_ite, if_neg hk]
      split
      · rw [lookup_cons_ite, if_neg hk, ih]
      · exact ih

theorem Increasing.nodup (h : Increasing l) : (l.map Prod.fst).Nodup := by
  refine List.pairwise_map.mpr (List.Pairwise.imp ?_ h)
  intro e e' hlt heq
  exact String.lt_irrefl e'.1 (heq ▸ hlt)

end Folds

end Sorted

end ServiceContract
