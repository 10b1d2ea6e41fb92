import ServiceContract.Proofs.Program.Lookup
import ServiceContract.Proofs.Schema.Asks
import Mathlib.Logic.Relation

/-! # Where a type leads

The description of a type asks for other types: for parts of it, for the target of an alias, and for
the types that are written in the declaration of a component. Where no declaration has type
parameters, all of them are parts of the type itself or of types that are written in declarations,
so there are not more of them than the program has parts of types.
-/

namespace ServiceContract

open Source TypeCompiler Relation

namespace Substitution

mutual

theorem apply_nil : ∀ t, apply [] t = t
  | .path segments args => by
    match segments, args with
    | [_], [] => simp [apply]
    | [], args | _ :: _ :: _, args | [_], a :: as => simp [apply, applyAll_nil]
  | .ref t | .slice t | .array t _ => by simp [apply, apply_nil t]
  | .tuple ts => by simp [apply, applyAll_nil ts]
  | .dynamic | .unknown => by simp [apply]

theorem applyAll_nil : ∀ ts, applyAll [] ts = ts
  | [] => by simp [applyAll]
  | t :: ts => by simp [applyAll, apply_nil t, applyAll_nil ts]

end

end Substitution

theorem TypeDecl.apply_substitution {d : TypeDecl} (h : d.typeParams = []) (args : List TypeExpr)
    (t : TypeExpr) : (d.substitution args).apply t = t := by
  rw [substitution, Substitution.ofArgs, h, List.zip_nil_left, List.reverse_nil,
    Substitution.apply_nil]

namespace TypeExpr

mutual

/-- All types in a type, itself first. -/
def parts : TypeExpr → List TypeExpr
  | .path segments args => .path segments args :: partsAll args
  | .ref t => .ref t :: t.parts
  | .slice t => .slice t :: t.parts
  | .array t n => .array t n :: t.parts
  | .tuple ts => .tuple ts :: partsAll ts
  | .dynamic => [.dynamic]
  | .unknown => [.unknown]

def partsAll : List TypeExpr → List TypeExpr
  | [] => []
  | t :: ts => t.parts ++ partsAll ts

end

variable {t u v : TypeExpr} {ts us : List TypeExpr}

theorem parts_eq (t : TypeExpr) : t.parts = t :: partsAll t.children := by
  cases t <;> simp [parts, partsAll, children]

theorem size_eq (t : TypeExpr) : t.size = sizes t.children + 1 := by
  cases t <;> simp [size, sizes, children]

theorem one_le_size (t : TypeExpr) : 1 ≤ t.size := by
  rw [size_eq]
  exact Nat.le_add_left 1 _

theorem sizes_append : sizes (ts ++ us) = sizes ts + sizes us := by
  induction ts with
  | nil => simp [sizes]
  | cons t ts ih => rw [List.cons_append, sizes, sizes, ih, Nat.add_assoc]

theorem size_le_sizes (h : t ∈ ts) : t.size ≤ sizes ts := by
  obtain ⟨l, r, rfl⟩ := List.append_of_mem h
  rw [sizes_append, sizes]
  omega

theorem mem_partsAll : u ∈ partsAll ts ↔ ∃ t ∈ ts, u ∈ t.parts := by
  induction ts with
  | nil => simp [partsAll]
  | cons t ts ih => simp [partsAll, ih]

mutual

theorem length_parts : ∀ t : TypeExpr, t.parts.length = t.size
  | .path _ args => by simp [parts, size, length_partsAll args]
  | .ref t | .slice t | .array t _ => by simp [parts, size, length_parts t]
  | .tuple ts => by simp [parts, size, length_partsAll ts]
  | .dynamic | .unknown => by simp [parts, size]

theorem length_partsAll : ∀ ts, (partsAll ts).length = sizes ts
  | [] => by simp [partsAll, sizes]
  | t :: ts => by simp [partsAll, sizes, length_parts t, length_partsAll ts]

end

theorem mem_parts_self (t : TypeExpr) : t ∈ t.parts := by
  rw [parts_eq]
  exact List.mem_cons_self

theorem mem_parts_of_mem_children (h : u ∈ t.children) : u ∈ t.parts := by
  rw [parts_eq]
  exact List.mem_cons_of_mem _ (mem_partsAll.mpr ⟨u, h, mem_parts_self u⟩)

theorem size_lt_of_mem_children (h : u ∈ t.children) : u.size < t.size := by
  rw [size_eq t]
  exact Nat.lt_succ_of_le (size_le_sizes h)

theorem children_induction {P : TypeExpr → Prop} (h : ∀ t, (∀ c ∈ t.children, P c) → P t)
    (t : TypeExpr) : P t :=
  h t fun c hc =>
    have : c.size < t.size := size_lt_of_mem_children hc
    children_induction h c
termination_by t.size

theorem mem_parts_trans (hu : u ∈ t.parts) (hv : v ∈ u.parts) : v ∈ t.parts := by
  induction t using children_induction with
  | h t ih =>
    rw [parts_eq] at hu
    rcases List.mem_cons.mp hu with rfl | hu
    · exact hv
    · obtain ⟨c, hc, hu⟩ := mem_partsAll.mp hu
      rw [parts_eq]
      exact List.mem_cons_of_mem _ (mem_partsAll.mpr ⟨c, hc, ih c hc hu⟩)

theorem size_le_of_mem_parts (hu : u ∈ t.parts) : u.size ≤ t.size := by
  induction t using children_induction with
  | h t ih =>
    rw [parts_eq] at hu
    rcases List.mem_cons.mp hu with rfl | hu
    · exact Nat.le_refl _
    · obtain ⟨c, hc, hu⟩ := mem_partsAll.mp hu
      exact Nat.le_of_lt (Nat.lt_of_le_of_lt (ih c hc hu) (size_lt_of_mem_children hc))

end TypeExpr

open TypeExpr

theorem Layers.ofType_type_mem (t : TypeExpr) : (ofType t).type ∈ t.parts := by
  fun_induction ofType t with
  | case1 t h ih | case2 t h ih | case3 segments a as name h ih
  | case4 segments a as name h h' _ ih | case5 segments a as name h h' h'' ih =>
    exact mem_parts_trans (mem_parts_of_mem_children List.mem_cons_self) ih
  | case6 | case7 => exact mem_parts_self _

namespace Occurrence

/-- The type without the wrappers around it. -/
def bare (x : Occurrence) : Occurrence := ⟨(Layers.ofType x.type).type, x.module⟩

/-- All types in a type, in the same module. -/
def parts (x : Occurrence) : List Occurrence := x.type.parts.map (⟨·, x.module⟩)

theorem mem_parts {x y : Occurrence} :
    y ∈ x.parts ↔ y.type ∈ x.type.parts ∧ y.module = x.module := by
  constructor
  · intro h
    obtain ⟨t, ht, rfl⟩ := List.mem_map.mp h
    exact ⟨ht, rfl⟩
  · rintro ⟨ht, hm⟩
    exact List.mem_map.mpr ⟨y.type, ht, by rw [← hm]⟩

theorem mem_parts_trans {x y z : Occurrence} (hy : y ∈ x.parts) (hz : z ∈ y.parts) :
    z ∈ x.parts := by
  rw [mem_parts] at hy hz ⊢
  exact ⟨TypeExpr.mem_parts_trans hy.1 hz.1, hz.2.trans hy.2⟩

theorem bare_mem_parts (x : Occurrence) : x.bare ∈ x.parts :=
  mem_parts.mpr ⟨Layers.ofType_type_mem x.type, rfl⟩

end Occurrence

/-- The target of an alias, as written where the alias is declared. -/
def TypeDecl.target? : TypeDecl → Option Occurrence
  | .typeAlias a => some ⟨a.item.target, a.module⟩
  | _ => none

namespace Program

/-- The types that are written in a declaration, where it is used with arguments. -/
def writtenIn (d : TypeDecl) (args : List TypeExpr) : List Occurrence :=
  (writtenTypes d).map fun t => ⟨(d.substitution args).apply t, d.module⟩

/-- What the description of a type asks for, in place or in a component. -/
def next (p : Program) (x : Occurrence) : List Occurrence :=
  p.inPlace x.bare ++
    match p.component? x.bare with
    | some (d, args) => writtenIn d args
    | none => []

/-- The description of the first type leads to the second one. -/
def Reaches (p : Program) : Occurrence → Occurrence → Prop := ReflTransGen fun x y => y ∈ p.next x

/-- All parts of a type and of the types that are written in declarations. -/
def occurrences (p : Program) (x : Occurrence) : List Occurrence :=
  x.parts ++ p.types.flatMap fun d =>
    (writtenTypes d).flatMap fun t => Occurrence.parts ⟨t, d.module⟩

variable {p : Program} {x y z : Occurrence}

theorem length_occurrences : (p.occurrences x).length = x.type.size + p.typeSize := by
  have written (module : List String) (ts : List TypeExpr) :
      (ts.flatMap fun t => Occurrence.parts ⟨t, module⟩).length = sizes ts := by
    induction ts with
    | nil => rfl
    | cons t ts ih => simp [sizes, Occurrence.parts, length_parts, ← ih]
  have declared (ds : List TypeDecl) : (ds.flatMap fun d => (writtenTypes d).flatMap fun t =>
      Occurrence.parts ⟨t, d.module⟩).length = sizes (ds.flatMap writtenTypes) := by
    induction ds with
    | nil => rfl
    | cons d ds ih =>
      rw [List.flatMap_cons, List.flatMap_cons, List.length_append, written, ih, sizes_append]
  rw [occurrences, List.length_append, declared, Occurrence.parts, List.length_map, length_parts,
    typeSize]

theorem mem_occurrences_self : x ∈ p.occurrences x :=
  List.mem_append_left _ (Occurrence.mem_parts.mpr ⟨mem_parts_self _, rfl⟩)

theorem mem_occurrences_of_mem_parts (hy : y ∈ p.occurrences x) (hz : z ∈ y.parts) :
    z ∈ p.occurrences x := by
  rcases List.mem_append.mp hy with hy | hy
  · exact List.mem_append_left _ (Occurrence.mem_parts_trans hy hz)
  · obtain ⟨d, hd, hy⟩ := List.mem_flatMap.mp hy
    obtain ⟨t, ht, hy⟩ := List.mem_flatMap.mp hy
    have hz : z ∈ Occurrence.parts ⟨t, d.module⟩ := Occurrence.mem_parts_trans hy hz
    exact List.mem_append_right _ (List.mem_flatMap.mpr ⟨d, hd, List.mem_flatMap.mpr ⟨t, ht, hz⟩⟩)

theorem mem_occurrences_of_written {d : TypeDecl} {t : TypeExpr} (hd : d ∈ p.types)
    (ht : t ∈ writtenTypes d) : ⟨t, d.module⟩ ∈ p.occurrences x := by
  have ht' : (⟨t, d.module⟩ : Occurrence) ∈ Occurrence.parts ⟨t, d.module⟩ :=
    Occurrence.mem_parts.mpr ⟨mem_parts_self t, rfl⟩
  exact List.mem_append_right _ (List.mem_flatMap.mpr ⟨d, hd, List.mem_flatMap.mpr ⟨t, ht, ht'⟩⟩)

section Plain

variable (hp : ∀ d ∈ p.types, d.typeParams = [])

include hp

omit hp in
theorem mem_types_of_component? {d : TypeDecl} {args : List TypeExpr}
    (h : p.component? x = some (d, args)) : d ∈ p.types := by
  rcases shapeOf_occurrence p x with ⟨path, d', args', hd, -, -, hc, -⟩ | ⟨hc, -⟩
  · cases hc.symm.trans h
    exact mem_types_of_findType hd
  · cases hc.symm.trans h

theorem mem_writtenIn {d : TypeDecl} {args : List TypeExpr} (hd : d ∈ p.types)
    (hy : y ∈ writtenIn d args) : ∃ t ∈ writtenTypes d, y = ⟨t, d.module⟩ := by
  obtain ⟨t, ht, rfl⟩ := List.mem_map.mp hy
  exact ⟨t, ht, by rw [TypeDecl.apply_substitution (hp d hd)]⟩

/-- In place, a type leads to a smaller part of it or to the target of an alias. -/
theorem smaller_or_target_of_mem_inPlace (hy : y ∈ p.inPlace x) :
    (y ∈ x.parts ∧ y.type.size < x.type.size) ∨ ∃ d ∈ p.types, d.target? = some y := by
  rcases mem_inPlace hy with ⟨t, ht, rfl⟩ | ⟨segments, args, a, -, -, ha, rfl⟩
  · exact .inl ⟨Occurrence.mem_parts.mpr ⟨mem_parts_of_mem_children ht, rfl⟩,
      size_lt_of_mem_children ht⟩
  · have ha := mem_types_of_findType ha
    exact .inr ⟨_, ha, by rw [TypeDecl.apply_substitution (hp _ ha), TypeDecl.target?]⟩

theorem mem_occurrences_of_mem_next (hy : y ∈ p.occurrences x) (hz : z ∈ p.next y) :
    z ∈ p.occurrences x := by
  have hbare : y.bare ∈ p.occurrences x := mem_occurrences_of_mem_parts hy y.bare_mem_parts
  rcases List.mem_append.mp hz with hz | hz
  · rcases smaller_or_target_of_mem_inPlace hp hz with ⟨hz, -⟩ | ⟨d, hd, ht⟩
    · exact mem_occurrences_of_mem_parts hbare hz
    · cases d with
      | typeAlias a =>
        cases ht
        exact mem_occurrences_of_written hd List.mem_cons_self
      | struct | enum => cases ht
  · split at hz
    · next d args hc =>
      have hd := mem_types_of_component? hc
      obtain ⟨t, ht, rfl⟩ := mem_writtenIn hp hd hz
      exact mem_occurrences_of_written hd ht
    · cases hz

theorem mem_occurrences_of_reaches (h : p.Reaches x y) : y ∈ p.occurrences x := by
  induction h with
  | refl => exact mem_occurrences_self
  | tail _ hz ih => exact mem_occurrences_of_mem_next hp ih hz

end Plain

end Program

end ServiceContract
