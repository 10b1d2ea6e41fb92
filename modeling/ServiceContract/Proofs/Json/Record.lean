import ServiceContract.Document.Codec
import ServiceContract.Proofs.Json.Node
import Mathlib.Data.List.Forall2
import Mathlib.Data.List.Nodup

/-! # Records are read back

Readers and writers are compared in both directions. What is written of a value is read as this
value again; and what is read of a value is in order, and is written no more deeply nested than it
stood there. Both are put together for lists, for objects of values of one kind and for records,
part by part.
-/

namespace ServiceContract

namespace Json

variable {α : Type} {read : Json → Option α} {write : α → Json} {Kept : α → Prop} {a : α}
  {as : List α} {es : List (String × α)} {v : Json} {key : String}
  {fields written : List (String × Json)}

/-- What is written of the value is read as this value. -/
structure ReadBack (read : Json → Option α) (write : α → Json) (a : α) : Prop where
  read_write : read (write a) = some a
  distinct : (write a).Distinct
  ne_null : write a ≠ .null

/-- Whatever is read here is in order, and no more deeply nested where it is written again. -/
structure ReadsKept (read : Json → Option α) (write : α → Json) (Kept : α → Prop) (v : Json) :
    Prop where
  kept : ∀ {a}, read v = some a → v.Distinct → Kept a
  depth : ∀ {a}, read v = some a → v.Distinct → (write a).depth ≤ v.depth

section Leaves

@[simp] theorem ofNat_ne_null {n : Nat} : ofNat n ≠ .null := by simp [ofNat]

theorem ReadBack.str (s : String) : ReadBack string? .str s := ⟨rfl, by simp [KeysDistinct], nofun⟩

theorem ReadBack.bool (b : Bool) : ReadBack bool? .bool b := ⟨rfl, by simp [KeysDistinct], nofun⟩

theorem ReadBack.nat (n : Nat) : ReadBack nat? .ofNat n :=
  ⟨by simp [ofNat, nat?], by simp [ofNat, KeysDistinct], nofun⟩

theorem ReadsKept.of_depth_eq_zero (h : ∀ a, (write a).depth = 0) (v : Json) :
    ReadsKept read write (fun _ => True) v :=
  ⟨fun _ _ => trivial, fun {a} _ _ => h a ▸ Nat.zero_le _⟩

theorem ReadsKept.str (v : Json) : ReadsKept string? .str (fun _ => True) v :=
  .of_depth_eq_zero (fun _ => rfl) v

theorem ReadsKept.bool (v : Json) : ReadsKept bool? .bool (fun _ => True) v :=
  .of_depth_eq_zero (fun _ => rfl) v

theorem ReadsKept.nat (v : Json) : ReadsKept nat? .ofNat (fun _ => True) v :=
  .of_depth_eq_zero (fun _ => rfl) v

end Leaves

section Lists

theorem mapM_map_of_forall {β : Type} {f : β → Option α} {g : α → β}
    (h : ∀ a ∈ as, f (g a) = some a) : (as.map g).mapM f = some as := by
  induction as with
  | nil => rfl
  | cons a as ih =>
    obtain ⟨ha, has⟩ := List.forall_mem_cons.mp h
    rw [List.map_cons, List.mapM_cons, ha, ih has]
    rfl

theorem mapM_some (as : List α) : as.mapM some = some as := by
  have hmap : (as.map id).mapM some = some as := mapM_map_of_forall fun _ _ => rfl
  rwa [List.map_id] at hmap

theorem forall₂_of_mapM {β : Type} {f : β → Option α} {bs : List β} (h : bs.mapM f = some as) :
    List.Forall₂ (fun b a => f b = some a) bs as := by
  induction bs generalizing as with
  | nil =>
    cases h
    exact .nil
  | cons b bs ih =>
    simp only [List.mapM_cons, Option.bind_eq_bind, Option.bind_eq_some_iff, Option.pure_def,
      Option.some.injEq] at h
    obtain ⟨a, ha, as', has, rfl⟩ := h
    exact .cons ha (ih has)

theorem exists_of_forall₂ {β : Type} {R : β → α → Prop} {bs : List β}
    (h : List.Forall₂ R bs as) (ha : a ∈ as) : ∃ b ∈ bs, R b a := by
  induction h with
  | nil => cases ha
  | cons hr _ ih =>
    rcases List.mem_cons.mp ha with rfl | ha
    · exact ⟨_, List.mem_cons_self, hr⟩
    · obtain ⟨b, hb, hr⟩ := ih ha
      exact ⟨b, List.mem_cons_of_mem _ hb, hr⟩

theorem ReadBack.list (h : ∀ a ∈ as, ReadBack read write a) :
    ReadBack (list? read) (fun as => .arr (as.map write)) as where
  read_write := mapM_map_of_forall fun a ha => (h a ha).read_write
  distinct := every_arr.mpr ⟨trivial, by
    rw [List.forall_mem_map]
    exact fun a ha => (h a ha).distinct⟩
  ne_null := nofun

theorem ReadsKept.list (h : ∀ w, w.depth < v.depth → ReadsKept read write Kept w) :
    ReadsKept (list? read) (fun as => .arr (as.map write)) (fun as => ∀ a ∈ as, Kept a) v := by
  cases v with
  | arr items =>
    have within {as : List α} (hr : items.mapM read = some as) :
        ∀ a ∈ as, ∃ w ∈ items, read w = some a := fun a ha => by
      obtain ⟨w, hw, hwa⟩ := exists_of_forall₂ (forall₂_of_mapM hr) ha
      exact ⟨w, hw, hwa⟩
    refine ⟨fun hr hd a ha => ?_, fun hr hd => depth_arr_le_iff.mpr ?_⟩
    · obtain ⟨w, hw, hwa⟩ := within hr a ha
      exact (h w (depth_lt_of_mem_arr hw)).kept hwa ((every_arr.mp hd).2 w hw)
    · rw [List.forall_mem_map]
      intro a ha
      obtain ⟨w, hw, hwa⟩ := within hr a ha
      exact Nat.le_trans ((h w (depth_lt_of_mem_arr hw)).depth hwa ((every_arr.mp hd).2 w hw))
        (Nat.le_of_lt_succ (depth_lt_of_mem_arr hw))
  | _ => exact ⟨nofun, nofun⟩

end Lists

section Entries

@[simp] theorem ofEntries_ne_null : ofEntries write es ≠ .null := by simp [ofEntries]

theorem ReadBack.entries (hkeys : (es.map Prod.fst).Nodup)
    (h : ∀ e ∈ es, ReadBack read write e.2) : ReadBack (entries? read) (ofEntries write) es where
  read_write := mapM_map_of_forall fun e he => by
    dsimp only
    rw [(h e he).read_write]
    rfl
  distinct := every_obj.mpr ⟨by simpa [KeysDistinct, Function.comp_def] using hkeys, by
    rw [List.forall_mem_map]
    exact fun e he => (h e he).distinct⟩
  ne_null := nofun

theorem forall₂_of_entries {fs : List (String × Json)} (h : entries? read (.obj fs) = some es) :
    List.Forall₂ (fun f e => f.1 = e.1 ∧ read f.2 = some e.2) fs es := by
  refine (forall₂_of_mapM h).imp fun f e hf => ?_
  obtain ⟨a, ha, rfl⟩ := Option.map_eq_some_iff.mp hf
  exact ⟨rfl, ha⟩

theorem map_fst_of_entries {fs : List (String × Json)} (h : entries? read (.obj fs) = some es) :
    es.map Prod.fst = fs.map Prod.fst := by
  have hkeys := (forall₂_of_entries h).imp fun _ _ hf => hf.1
  rw [← List.forall₂_eq_eq_eq, List.forall₂_map_left_iff, List.forall₂_map_right_iff]
  exact hkeys.flip.imp fun _ _ heq => heq.symm

theorem ReadsKept.entries (h : ∀ w, w.depth < v.depth → ReadsKept read write Kept w) :
    ReadsKept (entries? read) (ofEntries write)
      (fun es => (es.map Prod.fst).Nodup ∧ ∀ e ∈ es, Kept e.2) v := by
  cases v with
  | obj fs =>
    have within {es : List (String × α)} (hr : entries? read (.obj fs) = some es) :
        ∀ e ∈ es, ∃ f ∈ fs, f.1 = e.1 ∧ read f.2 = some e.2 := fun _ he =>
      exists_of_forall₂ (forall₂_of_entries hr) he
    refine ⟨fun hr hd => ⟨map_fst_of_entries hr ▸ hd.self, fun e he => ?_⟩,
      fun hr hd => depth_obj_le_iff.mpr ?_⟩
    · obtain ⟨f, hf, -, hfe⟩ := within hr e he
      exact (h f.2 (depth_lt_of_mem_obj hf)).kept hfe ((every_obj.mp hd).2 f hf)
    · rw [List.forall_mem_map]
      intro e he
      obtain ⟨f, hf, -, hfe⟩ := within hr e he
      exact Nat.le_trans ((h f.2 (depth_lt_of_mem_obj hf)).depth hfe ((every_obj.mp hd).2 f hf))
        (Nat.le_of_lt_succ (depth_lt_of_mem_obj hf))
  | _ => exact ⟨nofun, nofun⟩

theorem ReadBack.sortedEntries (hi : Increasing es) (h : ∀ e ∈ es, ReadBack read write e.2) :
    ReadBack (sortedEntries? read) (ofEntries write) es := by
  have hentries := ReadBack.entries hi.nodup h
  refine ⟨?_, hentries.distinct, hentries.ne_null⟩
  rw [sortedEntries?, hentries.read_write, Option.map_some,
    foldl_insertSorted_of_increasing (by simpa using hi), List.nil_append]

theorem ReadsKept.sortedEntries (h : ∀ w, w.depth < v.depth → ReadsKept read write Kept w) :
    ReadsKept (sortedEntries? read) (ofEntries write)
      (fun es => Increasing es ∧ ∀ e ∈ es, Kept e.2) v := by
  have hentries := ReadsKept.entries h
  have within {es : List (String × α)} {e : String × α}
      (he : e ∈ es.foldl (fun acc e => insertSorted e.1 e.2 acc) []) : e ∈ es :=
    (mem_of_mem_foldl_insertSorted he).resolve_left List.not_mem_nil
  constructor
  · intro es' hr hd
    obtain ⟨es, hes, rfl⟩ := Option.map_eq_some_iff.mp hr
    exact ⟨increasing_foldl_insertSorted .nil, fun e he => (hentries.kept hes hd).2 e (within he)⟩
  · intro es' hr hd
    obtain ⟨es, hes, rfl⟩ := Option.map_eq_some_iff.mp hr
    refine Nat.le_trans (depth_obj_le_iff.mpr ?_) (hentries.depth hes hd)
    rw [List.forall_mem_map]
    exact fun e he => Nat.le_of_lt_succ
      (depth_lt_of_mem_obj (f := (e.1, write e.2)) (List.mem_map_of_mem (within he)))

end Entries

section Fields

variable {o : Option α}

@[simp] theorem lookup_fieldOf {other : String} :
    (fieldOf key write o).lookup other = if other = key then o.map write else none := by
  cases o with
  | none => simp [fieldOf]
  | some a => simp [fieldOf, lookup_cons_ite]

@[simp] theorem lookup_listField {other : String} : (listField key write as).lookup other =
    if other = key ∧ as ≠ [] then some (.arr (as.map write)) else none := by
  cases as with
  | nil => simp [listField]
  | cons a as => simp [listField, lookup_cons_ite]

@[simp] theorem lookup_entriesField {other : String} : (entriesField key write es).lookup other =
    if other = key ∧ es ≠ [] then some (ofEntries write es) else none := by
  cases es with
  | nil => simp [entriesField]
  | cons a as => simp [entriesField, lookup_cons_ite]

/-- A flag is written only where it is set. -/
@[simp] theorem lookup_flag {other : String} {b : Bool} :
    (if b then [(key, v)] else []).lookup other = if other = key ∧ b then some v else none := by
  cases b <;> simp [lookup_cons_ite]

theorem keys_fieldOf : ((fieldOf key write o).map Prod.fst).Sublist [key] := by
  cases o <;> simp [fieldOf]

theorem keys_listField : ((listField key write as).map Prod.fst).Sublist [key] := by
  cases as <;> simp [listField]

theorem keys_entriesField : ((entriesField key write es).map Prod.fst).Sublist [key] := by
  cases es <;> simp [entriesField]

theorem needed_eq (hl : fields.lookup key = some (write a)) (h : ReadBack read write a) :
    needed key read fields = some a := by
  rw [needed, hl]
  exact h.read_write

theorem nullable_write (h : ReadBack read write a) : nullable read (write a) = some (some a) := by
  have hread : nullable read (write a) = (read (write a)).map some := by
    cases hw : write a with
    | null => exact absurd hw h.ne_null
    | _ => rfl
  rw [hread, h.read_write, Option.map_some]

theorem optional_eq (hl : fields.lookup key = o.map write) (h : ∀ a ∈ o, ReadBack read write a) :
    optional key read fields = some o := by
  rw [optional, hl]
  cases o with
  | none => rfl
  | some a => exact nullable_write (h a rfl)

theorem defaulted_list_eq (hl : fields.lookup key = (listField key write as).lookup key)
    (h : ∀ a ∈ as, ReadBack read write a) : defaulted key [] (list? read) fields = some as := by
  rw [defaulted, hl]
  cases as with
  | nil => rfl
  | cons a as =>
    rw [lookup_listField, if_pos ⟨rfl, by simp⟩]
    exact (ReadBack.list h).read_write

theorem defaulted_entries_eq (hl : fields.lookup key = (entriesField key write es).lookup key)
    (hi : Increasing es) (h : ∀ e ∈ es, ReadBack read write e.2) :
    defaulted key [] (sortedEntries? read) fields = some es := by
  rw [defaulted, hl]
  cases es with
  | nil => rfl
  | cons e es =>
    rw [lookup_entriesField, if_pos ⟨rfl, by simp⟩]
    exact (ReadBack.sortedEntries hi h).read_write

theorem defaulted_flag_eq {b : Bool}
    (hl : fields.lookup key = (if b then [(key, .bool true)] else []).lookup key) :
    defaulted key false bool? fields = some b := by
  rw [defaulted, hl]
  cases b <;> simp [bool?]

end Fields

section Written

/-- Fields with some of the keys, in this order, in which no object has a key twice. -/
structure Written (keys : List String) (fields : List (String × Json)) : Prop where
  keys : (fields.map Prod.fst).Sublist keys
  distinct : ∀ f ∈ fields, f.2.Distinct

variable {keys keys' : List String} {fields' : List (String × Json)} {o : Option α}

theorem Written.nil : Written [] [] := ⟨.refl _, by simp⟩

theorem Written.cons (hv : v.Distinct) (h : Written keys fields) :
    Written (key :: keys) ((key, v) :: fields) :=
  ⟨h.keys.cons_cons key, List.forall_mem_cons.mpr ⟨hv, h.distinct⟩⟩

theorem Written.one (hv : v.Distinct) : Written [key] [(key, v)] := .cons hv .nil

theorem Written.append (h : Written keys fields) (h' : Written keys' fields') :
    Written (keys ++ keys') (fields ++ fields') := by
  refine ⟨?_, List.forall_mem_append.mpr ⟨h.distinct, h'.distinct⟩⟩
  rw [List.map_append]
  exact h.keys.append h'.keys

theorem Written.optional (h : ∀ a ∈ o, ReadBack read write a) :
    Written [key] (fieldOf key write o) := by
  refine ⟨keys_fieldOf, ?_⟩
  cases o with
  | none => simp [fieldOf]
  | some a => simpa [fieldOf] using (h a rfl).distinct

theorem Written.list (h : ∀ a ∈ as, ReadBack read write a) :
    Written [key] (listField key write as) := by
  refine ⟨keys_listField, ?_⟩
  unfold listField
  split
  · simp
  · exact List.forall_mem_singleton.mpr (ReadBack.list h).distinct

theorem Written.entries (hi : Increasing es) (h : ∀ e ∈ es, ReadBack read write e.2) :
    Written [key] (entriesField key write es) := by
  refine ⟨keys_entriesField, ?_⟩
  unfold entriesField
  split
  · simp
  · exact List.forall_mem_singleton.mpr (ReadBack.sortedEntries hi h).distinct

theorem Written.flag {b : Bool} : Written [key] (if b then [(key, .bool true)] else []) := by
  cases b with
  | false => exact ⟨List.nil_sublist _, by simp⟩
  | true => exact .one (ReadBack.bool _).distinct

/-- A record is read back if it is read back from its fields, of which no two have one key. -/
theorem ReadBack.record (hw : write a = .obj fields) (h : Written keys fields) (hk : keys.Nodup)
    (hread : read (.obj fields) = some a) : ReadBack read write a :=
  ⟨hw ▸ hread, hw ▸ every_obj.mpr ⟨h.keys.nodup hk, h.distinct⟩, hw ▸ nofun⟩

end Written

section Extensions

variable {known : List String} {es : List (String × Json)}

/-- Sorted fields with unknown keys, in which no object has a key twice. -/
structure Foreign (known : List String) (es : List (String × Json)) : Prop where
  increasing : Increasing es
  unknown : ∀ e ∈ es, e.1 ∉ known
  distinct : ∀ e ∈ es, e.2.Distinct

theorem Foreign.nil : Foreign known [] := ⟨.nil, by simp, by simp⟩

theorem Foreign.insertSorted (h : Foreign known es) (hk : key ∉ known) (hv : v.Distinct) :
    Foreign known (insertSorted key v es) where
  increasing := h.increasing.insertSorted
  unknown e he := (mem_insertSorted he).elim (fun heq => heq ▸ hk) (h.unknown e)
  distinct e he := (mem_insertSorted he).elim (fun heq => heq ▸ hv) (h.distinct e)

theorem Foreign.not_mem_keys (h : Foreign known es) (hk : key ∈ known) :
    key ∉ es.map Prod.fst := by
  intro hmem
  obtain ⟨e, he, rfl⟩ := List.mem_map.mp hmem
  exact h.unknown e he hk

theorem Foreign.nodup_append (h : Foreign known es) (hk : known.Nodup) :
    (known ++ es.map Prod.fst).Nodup := by
  refine List.nodup_append.mpr ⟨hk, h.increasing.nodup, ?_⟩
  rintro k hk _ hk' rfl
  exact h.not_mem_keys hk hk'

theorem Written.foreign (h : Written known written) (he : Foreign known es) :
    Written (known ++ es.map Prod.fst) (written ++ es) :=
  h.append ⟨.refl _, he.distinct⟩

theorem Foreign.lookup_known (he : Foreign known es) (hk : key ∈ known) :
    (written ++ es).lookup key = written.lookup key := by
  rw [List.lookup_append, lookup_eq_none_iff.mpr (he.not_mem_keys hk), Option.or_none]

theorem Written.lookup_unknown (h : Written known written) (hk : key ∉ known) :
    (written ++ es).lookup key = es.lookup key := by
  have hnone : written.lookup key = none :=
    lookup_eq_none_iff.mpr fun hmem => hk (h.keys.subset hmem)
  rw [List.lookup_append, hnone, Option.none_or]

/-- The fields with unknown keys are the extensions of what is written. -/
theorem Written.extensions (h : Written known written) (he : Foreign known es) :
    extensions known (written ++ es) = es := by
  have hknown : (written.filter fun f => !known.contains f.1) = [] :=
    List.filter_eq_nil_iff.mpr fun f hf => by
      simpa using h.keys.subset (List.mem_map_of_mem hf)
  have hunknown : (es.filter fun f => !known.contains f.1) = es :=
    List.filter_eq_self.mpr fun e hmem => by simpa using he.unknown e hmem
  rw [Json.extensions, List.filter_append, hknown, hunknown, List.nil_append,
    foldl_insertSorted_of_increasing (by simpa using he.increasing), List.nil_append]

theorem mem_of_mem_extensions {e : String × Json} (h : e ∈ extensions known fields) :
    e ∈ fields ∧ e.1 ∉ known := by
  obtain ⟨he, hk⟩ := List.mem_filter.mp
    ((mem_of_mem_foldl_insertSorted h).resolve_left List.not_mem_nil)
  exact ⟨he, by simpa using hk⟩

/-- Every unknown key is an extension with the value that it has. -/
theorem lookup_extensions (hn : (fields.map Prod.fst).Nodup) (hk : key ∉ known) :
    (extensions known fields).lookup key = fields.lookup key := by
  have hfilter : (fields.filter fun f => !known.contains f.1).lookup key = fields.lookup key :=
    lookup_filter_of_pos (p := fun k => !known.contains k) (by simpa using hk)
  rw [extensions, lookup_foldl_insertSorted (hn.sublist (List.filter_sublist.map _)), hfilter,
    List.lookup_nil, Option.or_none]

end Extensions

section Parts

/-- What some of the fields of a record are read as is in order, and is no more deeply nested
where it is written again. -/
structure Part (fields : List (String × Json)) (Kept : Prop) (written : List (String × Json)) :
    Prop where
  kept : (∀ f ∈ fields, f.2.Distinct) → Kept
  depth : ∀ {n}, (∀ f ∈ fields, f.2.Distinct) → (∀ f ∈ fields, f.2.depth ≤ n) →
    ∀ f ∈ written, f.2.depth ≤ n

variable {o : Option α} {P Q : Prop} {written' : List (String × Json)}

theorem Part.append (h : Part fields P written) (h' : Part fields Q written') :
    Part fields (P ∧ Q) (written ++ written') :=
  ⟨fun hd => ⟨h.kept hd, h'.kept hd⟩,
    fun hd hn => List.forall_mem_append.mpr ⟨h.depth hd hn, h'.depth hd hn⟩⟩

theorem Part.imp (h : Part fields P written) (hpq : P → Q) : Part fields Q written :=
  ⟨fun hd => hpq (h.kept hd), h.depth⟩

/-- A part that is one field, read from one field. -/
theorem Part.of_mem (key : String) {f : String × Json} (hf : f ∈ fields)
    (h : ReadsKept read write Kept f.2)
    (hr : read f.2 = some a) : Part fields (Kept a) [(key, write a)] :=
  ⟨fun hd => h.kept hr (hd f hf),
    fun hd hn => List.forall_mem_singleton.mpr (Nat.le_trans (h.depth hr (hd f hf)) (hn f hf))⟩

theorem Part.none : Part fields True [] := ⟨fun _ => trivial, fun _ _ => by simp⟩

theorem Part.needed (h : ∀ f ∈ fields, ReadsKept read write Kept f.2)
    (hr : needed key read fields = some a) : Part fields (Kept a) [(key, write a)] := by
  obtain ⟨w, hw, hwa⟩ := Option.bind_eq_some_iff.mp hr
  have hmem := mem_of_lookup hw
  exact .of_mem key hmem (h _ hmem) hwa

theorem of_nullable {o : Option α} (h : nullable read v = some o) :
    (v = .null ∧ o = none) ∨ v ≠ .null ∧ ∃ a, o = some a ∧ read v = some a := by
  cases v with
  | null =>
    cases h
    exact .inl ⟨rfl, rfl⟩
  | _ =>
    obtain ⟨a, ha, rfl⟩ := Option.map_eq_some_iff.mp h
    exact .inr ⟨nofun, a, rfl, ha⟩

theorem Part.optional (h : ∀ f ∈ fields, f.2 ≠ .null → ReadsKept read write Kept f.2)
    (hr : optional key read fields = some o) :
    Part fields (∀ a ∈ o, Kept a) (fieldOf key write o) := by
  unfold Json.optional at hr
  split at hr
  · cases hr
    exact Part.none.imp fun _ => nofun
  · next w hw =>
    rcases of_nullable hr with ⟨-, rfl⟩ | ⟨hne, a, rfl, ha⟩
    · exact Part.none.imp fun _ => nofun
    · have hmem := mem_of_lookup hw
      exact (Part.of_mem key hmem (h _ hmem hne) ha).imp fun ha _ hb => Option.some.inj hb ▸ ha

theorem Part.list (h : ∀ f ∈ fields, ∀ w, w.depth < f.2.depth → ReadsKept read write Kept w)
    (hr : defaulted key [] (list? read) fields = some as) :
    Part fields (∀ a ∈ as, Kept a) (listField key write as) := by
  unfold defaulted at hr
  split at hr
  · cases hr
    exact Part.none.imp fun _ => by simp
  · next w hw =>
    have hmem := mem_of_lookup hw
    have hpart := Part.of_mem key hmem (.list (h _ hmem)) hr
    refine ⟨hpart.kept, fun hd hn => ?_⟩
    unfold listField
    split
    · simp
    · exact hpart.depth hd hn

theorem Part.entries (h : ∀ f ∈ fields, ∀ w, w.depth < f.2.depth → ReadsKept read write Kept w)
    (hr : defaulted key [] (sortedEntries? read) fields = some es) :
    Part fields (Increasing es ∧ ∀ e ∈ es, Kept e.2) (entriesField key write es) := by
  unfold defaulted at hr
  split at hr
  · cases hr
    exact Part.none.imp fun _ => ⟨.nil, by simp⟩
  · next w hw =>
    have hmem := mem_of_lookup hw
    have hpart := Part.of_mem key hmem (.sortedEntries (h _ hmem)) hr
    refine ⟨hpart.kept, fun hd hn => ?_⟩
    unfold entriesField
    split
    · simp
    · exact hpart.depth hd hn

theorem Part.flag {b : Bool} (_ : defaulted key false bool? fields = some b) :
    Part fields True (if b then [(key, .bool true)] else []) := by
  cases b with
  | false => exact .none
  | true => exact ⟨fun _ => trivial, fun _ _ => List.forall_mem_singleton.mpr (Nat.zero_le _)⟩

theorem Part.extensions (known : List String) : Part fields
    (Foreign known (extensions known fields)) (extensions known fields) :=
  ⟨fun hd => ⟨increasing_foldl_insertSorted .nil, fun _ he => (mem_of_mem_extensions he).2,
      fun e he => hd e (mem_of_mem_extensions he).1⟩,
    fun _ hn e he => hn e (mem_of_mem_extensions he).1⟩

/-- The fields of a record stand in it. -/
theorem fields_of_record {keys : List String} {n : Nat} (h : record? keys n v = some fields) :
    (∀ f ∈ fields, f.2.depth < v.depth) ∧ (v.Distinct → ∀ f ∈ fields, f.2.Distinct) ∧
      v.depth ≠ 0 := by
  cases v with
  | obj fs =>
    cases h
    exact ⟨fun f => depth_lt_of_mem_obj, fun hd => (every_obj.mp hd).2, Nat.succ_ne_zero _⟩
  | arr items =>
    rw [record?] at h
    split at h
    · cases h
      have hmem : ∀ f ∈ keys.zip items, f.2 ∈ items := fun f hf => (List.of_mem_zip hf).2
      exact ⟨fun f hf => depth_lt_of_mem_arr (hmem f hf),
        fun hd f hf => (every_arr.mp hd).2 f.2 (hmem f hf), Nat.succ_ne_zero _⟩
    · cases h
  | _ => cases h

/-- A record is in order if all of its parts are. -/
theorem ReadsKept.record (h : ∀ a, read v = some a → v.Distinct → ∃ keys n fields written,
      record? keys n v = some fields ∧ write a = .obj written ∧ Part fields (Kept a) written) :
    ReadsKept read write Kept v := by
  constructor
  · intro a ha hd
    obtain ⟨_, _, fields, _, hrec, -, hpart⟩ := h a ha hd
    exact hpart.kept ((fields_of_record hrec).2.1 hd)
  · intro a ha hd
    obtain ⟨_, _, fields, written, hrec, hw, hpart⟩ := h a ha hd
    obtain ⟨hdepth, hdistinct, hne⟩ := fields_of_record hrec
    obtain ⟨m, hm⟩ := Nat.exists_eq_succ_of_ne_zero hne
    rw [hw, hm]
    exact depth_obj_le_iff.mpr
      (hpart.depth (hdistinct hd) fun f hf => Nat.le_of_lt_succ (hm ▸ hdepth f hf))

end Parts

end Json

end ServiceContract
