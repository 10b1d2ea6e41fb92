import ServiceContract.Json.Parser

/-! # The values inside a value

What is said about all values inside a JSON value is said at any depth. No object of a value that
is read has a key twice.
-/

namespace ServiceContract.Json

/-- A value is a value or stands in it at some depth. -/
inductive Node : Json → Json → Prop
  | self (v) : Node v v
  | item {n v vs} : v ∈ vs → Node n v → Node n (.arr vs)
  | field {n f fs} : f ∈ fs → Node n f.2 → Node n (.obj fs)

/-- Every value that stands in a value, itself included, is as described. -/
def Every (P : Json → Prop) (v : Json) : Prop := ∀ n, Node n v → P n

section Every

variable {P Q : Json → Prop} {v : Json} {vs : List Json} {fs : List (String × Json)}

theorem Every.self (h : Every P v) : P v := h v (.self v)

theorem Every.imp (h : Every P v) (hpq : ∀ n, P n → Q n) : Every Q v := fun n hn => hpq n (h n hn)

@[simp] theorem every_null : Every P .null ↔ P .null :=
  ⟨Every.self, fun h n hn => by cases hn; exact h⟩

@[simp] theorem every_bool {b : Bool} : Every P (.bool b) ↔ P (.bool b) :=
  ⟨Every.self, fun h n hn => by cases hn; exact h⟩

@[simp] theorem every_num {x : JsonNumber} : Every P (.num x) ↔ P (.num x) :=
  ⟨Every.self, fun h n hn => by cases hn; exact h⟩

@[simp] theorem every_str {s : String} : Every P (.str s) ↔ P (.str s) :=
  ⟨Every.self, fun h n hn => by cases hn; exact h⟩

@[simp] theorem every_arr : Every P (.arr vs) ↔ P (.arr vs) ∧ ∀ v ∈ vs, Every P v := by
  constructor
  · exact fun h => ⟨h.self, fun v hv n hn => h n (.item hv hn)⟩
  · rintro ⟨h, hvs⟩ n (_ | ⟨hv, hn⟩)
    · exact h
    · exact hvs _ hv n hn

@[simp] theorem every_obj : Every P (.obj fs) ↔ P (.obj fs) ∧ ∀ f ∈ fs, Every P f.2 := by
  constructor
  · exact fun h => ⟨h.self, fun f hf n hn => h n (.field hf hn)⟩
  · rintro ⟨h, hfs⟩ n (_ | _ | ⟨hf, hn⟩)
    · exact h
    · exact hfs _ hf n hn

end Every

/-- No key stands twice in the object. -/
def KeysDistinct : Json → Prop
  | .obj fs => (fs.map Prod.fst).Nodup
  | _ => True

/-- No key stands twice in an object anywhere inside. -/
abbrev Distinct : Json → Prop := Every KeysDistinct

mutual

/-- How deeply arrays and objects are nested. -/
def depth : Json → Nat
  | .arr vs => depthItems vs + 1
  | .obj fs => depthFields fs + 1
  | _ => 0

def depthItems : List Json → Nat
  | [] => 0
  | v :: vs => max (depth v) (depthItems vs)

def depthFields : List (String × Json) → Nat
  | [] => 0
  | (_, v) :: fs => max (depth v) (depthFields fs)

end

section Depth

variable {vs : List Json} {fs : List (String × Json)} {n : Nat}

theorem depthItems_le_iff : depthItems vs ≤ n ↔ ∀ v ∈ vs, v.depth ≤ n := by
  induction vs with
  | nil => simp [depthItems]
  | cons v vs ih => rw [depthItems, Nat.max_le, ih, List.forall_mem_cons]

theorem depthFields_le_iff : depthFields fs ≤ n ↔ ∀ f ∈ fs, f.2.depth ≤ n := by
  induction fs with
  | nil => simp [depthFields]
  | cons f fs ih => rw [depthFields, Nat.max_le, ih, List.forall_mem_cons]

@[simp] theorem depth_arr_le_iff : (arr vs).depth ≤ n + 1 ↔ ∀ v ∈ vs, v.depth ≤ n := by
  rw [depth, Nat.add_le_add_iff_right, depthItems_le_iff]

@[simp] theorem depth_obj_le_iff : (obj fs).depth ≤ n + 1 ↔ ∀ f ∈ fs, f.2.depth ≤ n := by
  rw [depth, Nat.add_le_add_iff_right, depthFields_le_iff]

theorem depth_lt_of_mem_arr {v : Json} (h : v ∈ vs) : v.depth < (arr vs).depth :=
  Nat.lt_succ_of_le (depthItems_le_iff.mp (Nat.le_refl _) v h)

theorem depth_lt_of_mem_obj {f : String × Json} (h : f ∈ fs) : f.2.depth < (obj fs).depth :=
  Nat.lt_succ_of_le (depthFields_le_iff.mp (Nat.le_refl _) f h)

end Depth

/-- What holds of a value if it holds of its items and fields holds of all values. -/
@[elab_as_elim]
theorem induction_nested {P : Json → Prop} (null : P .null) (bool : ∀ b, P (.bool b))
    (num : ∀ x, P (.num x)) (str : ∀ s, P (.str s))
    (arr : ∀ vs : List Json, (∀ v ∈ vs, P v) → P (.arr vs))
    (obj : ∀ fs : List (String × Json), (∀ f ∈ fs, P f.2) → P (.obj fs)) (v : Json) : P v :=
  match v with
  | .null => null
  | .bool b => bool b
  | .num x => num x
  | .str s => str s
  | .arr vs => arr vs fun v hv =>
    have := depth_lt_of_mem_arr hv
    induction_nested null bool num str arr obj v
  | .obj fs => obj fs fun f hf =>
    have := depth_lt_of_mem_obj hf
    induction_nested null bool num str arr obj f.2
termination_by v.depth

section Parsed

/-- No object inside has a key twice, and nothing inside is nested more deeply than allowed. -/
def Readable (depth : Nat) (v : Json) : Prop := v.Distinct ∧ v.depth ≤ depth

variable {v : Json} {vs acc : List Json} {fs entries : List (String × Json)} {depth n : Nat}
  {cs rest : List Char}

theorem Readable.of_items (hd : depth ≠ 0) (h : ∀ v ∈ vs, Readable (depth - 1) v) :
    Readable depth (.arr vs) := by
  obtain ⟨depth, rfl⟩ := Nat.exists_eq_succ_of_ne_zero hd
  exact ⟨every_arr.mpr ⟨trivial, fun v hv => (h v hv).1⟩,
    depth_arr_le_iff.mpr fun v hv => (h v hv).2⟩

theorem Readable.of_fields (hd : depth ≠ 0) (hkeys : (fs.map Prod.fst).Nodup)
    (h : ∀ f ∈ fs, Readable (depth - 1) f.2) : Readable depth (.obj fs) := by
  obtain ⟨depth, rfl⟩ := Nat.exists_eq_succ_of_ne_zero hd
  exact ⟨every_obj.mpr ⟨hkeys, fun f hf => (h f hf).1⟩,
    depth_obj_le_iff.mpr fun f hf => (h f hf).2⟩

theorem readable_items
    (hvalue : ∀ {cs v rest}, value depth n cs = some (v, rest) → Readable depth v)
    (hitems : ∀ {acc cs vs rest}, items depth n acc cs = some (vs, rest) →
      (∀ v ∈ acc, Readable depth v) → ∀ v ∈ vs, Readable depth v)
    (h : items depth (n + 1) acc cs = some (vs, rest)) (hacc : ∀ v ∈ acc, Readable depth v) :
    ∀ v ∈ vs, Readable depth v := by
  rw [items] at h
  split at h
  · cases h
  · next x _ hx =>
    have hcons : ∀ v ∈ x :: acc, Readable depth v := List.forall_mem_cons.mpr ⟨hvalue hx, hacc⟩
    split at h
    · exact hitems h hcons
    · cases h
      simpa only [List.mem_reverse] using hcons
    · cases h

theorem readable_fields
    (hvalue : ∀ {cs v rest}, value depth n cs = some (v, rest) → Readable depth v)
    (hfields : ∀ {entries cs fs rest}, fields depth n entries cs = some (fs, rest) →
      (entries.map Prod.fst).Nodup → (∀ f ∈ entries, Readable depth f.2) →
      (fs.map Prod.fst).Nodup ∧ ∀ f ∈ fs, Readable depth f.2)
    (h : fields depth (n + 1) entries cs = some (fs, rest)) (hkeys : (entries.map Prod.fst).Nodup)
    (hentries : ∀ f ∈ entries, Readable depth f.2) :
    (fs.map Prod.fst).Nodup ∧ ∀ f ∈ fs, Readable depth f.2 := by
  rw [fields] at h
  split at h
  · split at h
    · cases h
    · next k _ _ =>
      split at h
      · split at h
        · cases h
        · next x _ hx =>
          have hset : ∀ f ∈ setKey k x entries, Readable depth f.2 := fun f hf =>
            (mem_setKey hf).elim (fun heq => heq ▸ hvalue hx) (hentries f)
          split at h
          · exact hfields h (nodup_map_fst_setKey hkeys) hset
          · cases h
            exact ⟨nodup_map_fst_setKey hkeys, hset⟩
          · cases h
      · cases h
  · cases h

theorem readable_value
    (hitems : ∀ {depth acc cs vs rest}, items depth n acc cs = some (vs, rest) →
      (∀ v ∈ acc, Readable depth v) → ∀ v ∈ vs, Readable depth v)
    (hfields : ∀ {depth entries cs fs rest}, fields depth n entries cs = some (fs, rest) →
      (entries.map Prod.fst).Nodup → (∀ f ∈ entries, Readable depth f.2) →
      (fs.map Prod.fst).Nodup ∧ ∀ f ∈ fs, Readable depth f.2)
    (h : value depth (n + 1) cs = some (v, rest)) : Readable depth v := by
  have leaf {v : Json} (hd : v.Distinct) (h0 : v.depth = 0) : Readable depth v :=
    ⟨hd, h0 ▸ Nat.zero_le _⟩
  rw [value] at h
  split at h
  case h_5 =>
    split at h
    · cases h
    · next hne =>
      split at h
      · cases h
        exact .of_items hne (by simp)
      · obtain ⟨⟨vs, _⟩, hvs, heq⟩ := Option.map_eq_some_iff.mp h
        cases heq
        exact .of_items hne (hitems hvs (by simp))
  case h_6 =>
    split at h
    · cases h
    · next hne =>
      split at h
      · cases h
        exact .of_fields hne List.nodup_nil (by simp)
      · obtain ⟨⟨fs, _⟩, hfs, heq⟩ := Option.map_eq_some_iff.mp h
        cases heq
        obtain ⟨hkeys, hread⟩ := hfields hfs List.nodup_nil (by simp)
        exact .of_fields hne hkeys hread
  case h_1 | h_2 | h_3 =>
    cases h
    exact leaf (by simp [KeysDistinct]) rfl
  all_goals
    obtain ⟨_, _, heq⟩ := Option.map_eq_some_iff.mp h
    cases heq
    exact leaf (by simp [KeysDistinct]) rfl

theorem readable_of_read (n : Nat) :
    (∀ {depth cs v rest}, value depth n cs = some (v, rest) → Readable depth v) ∧
    (∀ {depth acc cs vs rest}, items depth n acc cs = some (vs, rest) →
      (∀ v ∈ acc, Readable depth v) → ∀ v ∈ vs, Readable depth v) ∧
    ∀ {depth entries cs fs rest}, fields depth n entries cs = some (fs, rest) →
      (entries.map Prod.fst).Nodup → (∀ f ∈ entries, Readable depth f.2) →
      (fs.map Prod.fst).Nodup ∧ ∀ f ∈ fs, Readable depth f.2 := by
  induction n with
  | zero => exact ⟨nofun, nofun, nofun⟩
  | succ n ih =>
    obtain ⟨hvalue, hitems, hfields⟩ := ih
    exact ⟨readable_value hitems hfields, readable_items hvalue hitems,
      readable_fields hvalue hfields⟩

/-- A text that is read has no key twice in an object and is not nested too deeply. -/
theorem readable_of_parse? {s : String} (h : parse? s = some v) : Readable maxDepth v := by
  rw [parse?] at h
  split at h
  · next hread =>
    split at h
    · cases h
      exact (readable_of_read _).1 hread
    · cases h
  · cases h

end Parsed

end ServiceContract.Json
