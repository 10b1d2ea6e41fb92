import ServiceContract.Proofs.Schema.Levels
import ServiceContract.Proofs.Schema.Occurrences
import ServiceContract.Proofs.Schema.Replay
import Mathlib.Tactic.Linarith
import Mathlib.Tactic.Ring

/-! # Compiling comes to an end

A component is in the table before it is expanded, so each use of a declaration is expanded once at
most. In place, a description goes on to smaller types and to the targets of aliases. If no alias
comes back to itself there, and declarations have no type parameters, this cannot go on for ever:
what is not yet in the table, the aliases ahead and the size of the type count it down, and the
levels of expansion are more than that.
-/

namespace ServiceContract

open Source TypeCompiler Relation SchemaTable Program

theorem countP_lt_countP {α : Type} {f g : α → Bool} {l : List α} {a : α}
    (h : ∀ b ∈ l, f b = true → g b = true) (ha : a ∈ l) (hf : f a = false) (hg : g a = true) :
    l.countP f < l.countP g := by
  obtain ⟨s, t, rfl⟩ := List.append_of_mem ha
  have hs : s.countP f ≤ s.countP g := List.countP_mono_left fun b hb => h b (by simp [hb])
  have ht : t.countP f ≤ t.countP g := List.countP_mono_left fun b hb => h b (by simp [hb])
  rw [List.countP_append, List.countP_append, List.countP_cons_of_pos hg,
    List.countP_cons_of_neg (by simp [hf])]
  omega

section Ahead

variable {p : Program} {target? : TypeDecl → Option Occurrence}
  {Step : Occurrence → Occurrence → Prop} {x y : Occurrence}

open Classical in
/-- How many declarations have targets that steps lead to. -/
noncomputable def ahead (p : Program) (target? : TypeDecl → Option Occurrence)
    (Step : Occurrence → Occurrence → Prop) (x : Occurrence) : Nat :=
  p.types.countP fun d => decide (∃ y, target? d = some y ∧ TransGen Step x y)

theorem ahead_le (h : Step x y) : ahead p target? Step y ≤ ahead p target? Step x := by
  refine List.countP_mono_left fun d _ hd => ?_
  simp only [decide_eq_true_eq] at hd ⊢
  obtain ⟨z, hz, hyz⟩ := hd
  exact ⟨z, hz, .head h hyz⟩

/-- A target that does not lead to itself has fewer ahead. -/
theorem ahead_lt {d : TypeDecl} (h : Step x y) (hd : d ∈ p.types) (hy : target? d = some y)
    (hcycle : ¬TransGen Step y y) : ahead p target? Step y < ahead p target? Step x := by
  refine countP_lt_countP (fun e _ he => ?_) hd ?_ ?_
  · simp only [decide_eq_true_eq] at he ⊢
    obtain ⟨z, hz, hyz⟩ := he
    exact ⟨z, hz, .head h hyz⟩
  · simp only [decide_eq_false_iff_not]
    rintro ⟨z, hz, hyz⟩
    obtain rfl := Option.some.inj (hy.symm.trans hz)
    exact hcycle hyz
  · simp only [decide_eq_true_eq]
    exact ⟨y, hy, .single h⟩

end Ahead

/-! ### Keys of maps -/

/-- The keys, if a type without wrappers is a map. -/
def Occurrence.mapKey? (x : Occurrence) : Option Occurrence :=
  match x.type with
  | .path segments (key :: _ :: _) =>
    if maps.contains (segments.getLast?.getD "") then some ⟨key, x.module⟩ else none
  | _ => none

/-- What has to be a text if a declared type is one: the only field of a tuple struct, or the target
of an alias. -/
def TypeDecl.keyTarget? : TypeDecl → Option Occurrence
  | .struct d =>
    match d.item.fields with
    | .unnamed [f] => some ⟨f.type, d.module⟩
    | _ => none
  | .typeAlias d => some ⟨d.item.target, d.module⟩
  | .enum _ => none

namespace Program

/-- The declaration that the test of a map key looks into. -/
def keyDecl? (p : Program) (x : Occurrence) : Option TypeDecl :=
  match x.type.peel.asPath? with
  | some path =>
    if ["String", "str", "char", "Uuid"].contains path.name then none
    else p.findType path x.module
  | none => none

/-- What the test of a map key goes on to. -/
def keyNext (p : Program) (x : Occurrence) : List Occurrence :=
  ((p.keyDecl? x).bind TypeDecl.keyTarget?).toList

/-- The test of a map key goes on from one type to another one. -/
def KeyStep (p : Program) (x y : Occurrence) : Prop := y ∈ p.keyNext x

variable {p : Program} {x y : Occurrence}

theorem keyStep_iff : p.KeyStep x y ↔ ∃ d, p.keyDecl? x = some d ∧ d.keyTarget? = some y := by
  rw [KeyStep, keyNext, Option.mem_toList, Option.bind_eq_some_iff]

theorem mem_types_of_keyDecl? {d : TypeDecl} (h : p.keyDecl? x = some d) : d ∈ p.types := by
  unfold keyDecl? at h
  split at h
  · split_ifs at h
    exact mem_types_of_findType h
  · cases h

/-- The test of a map key goes on to another type, or it needs one level only. -/
theorem isTextKey_succ (p : Program) (x : Occurrence) :
    (∃ y, p.keyNext x = [y] ∧
      ∀ n, isTextKey p (n + 1) x.type x.module = isTextKey p n y.type y.module) ∨
    p.keyNext x = [] ∧ ∃ b, ∀ n, isTextKey p (n + 1) x.type x.module = b := by
  simp only [isTextKey]
  unfold keyNext keyDecl?
  cases x.type.peel.asPath? with
  | none => exact .inr ⟨rfl, false, fun _ => rfl⟩
  | some path =>
    dsimp only
    by_cases htext : ["String", "str", "char", "Uuid"].contains path.name = true
    · simp only [htext, if_true]
      exact .inr ⟨rfl, true, fun _ => rfl⟩
    simp only [htext, Bool.false_eq_true, if_false]
    cases hd : p.findType path x.module with
    | none => exact .inr ⟨rfl, false, fun _ => rfl⟩
    | some d =>
      cases d with
      | typeAlias a => exact .inl ⟨⟨a.item.target, a.module⟩, rfl, fun _ => rfl⟩
      | enum e => exact .inr ⟨rfl, _, fun _ => rfl⟩
      | struct s =>
        simp only [Option.bind_some, TypeDecl.keyTarget?]
        generalize s.item.fields = fields
        cases fields with
        | unit | named => exact .inr ⟨rfl, false, fun _ => rfl⟩
        | unnamed fs =>
          cases fs with
          | nil => exact .inr ⟨rfl, false, fun _ => rfl⟩
          | cons f rest =>
            cases rest with
            | nil => exact .inl ⟨⟨f.type, s.module⟩, rfl, fun _ => rfl⟩
            | cons => exact .inr ⟨rfl, false, fun _ => rfl⟩

/-- The test goes on to the field of a tuple struct or to the target of an alias. -/
theorem isTextKey_of_keyStep {n : Nat} (h : p.KeyStep x y) :
    isTextKey p (n + 1) x.type x.module = isTextKey p n y.type y.module := by
  rcases isTextKey_succ p x with ⟨z, hz, hstep⟩ | ⟨hnil, -⟩
  · rw [KeyStep, hz, List.mem_singleton] at h
    rw [hstep, h]
  · rw [KeyStep, hnil] at h
    cases h

/-- Where the test of a map key never comes back to a type, more levels make no difference. -/
theorem isTextKey_of_lt {n : Nat} (hx : ∀ y, ReflTransGen p.KeyStep x y → ¬TransGen p.KeyStep y y)
    (hn : ahead p TypeDecl.keyTarget? p.KeyStep x < n) :
    isTextKey p (n + 1) x.type x.module = isTextKey p n x.type x.module := by
  induction n generalizing x with
  | zero => cases hn
  | succ n ih =>
    rcases isTextKey_succ p x with ⟨y, hy, hstep⟩ | ⟨-, b, hstep⟩
    · have hxy : p.KeyStep x y := by rw [KeyStep, hy, List.mem_singleton]
      obtain ⟨d, hd, hy⟩ := keyStep_iff.mp hxy
      have hlt : ahead p TypeDecl.keyTarget? p.KeyStep y <
          ahead p TypeDecl.keyTarget? p.KeyStep x :=
        ahead_lt hxy (mem_types_of_keyDecl? hd) hy (hx y (.single hxy))
      rw [hstep, hstep, ih (fun z hz => hx z (.head hxy hz)) (by omega)]
    · rw [hstep, hstep]

theorem isTextKey_of_le {n : Nat} (hx : ∀ y, ReflTransGen p.KeyStep x y → ¬TransGen p.KeyStep y y)
    (hn : p.types.length + 1 ≤ n) :
    isTextKey p n x.type x.module = isTextKey p (p.types.length + 1) x.type x.module := by
  have hahead : ahead p TypeDecl.keyTarget? p.KeyStep x ≤ p.types.length := List.countP_le_length
  induction hn with
  | refl => rfl
  | @step n hn ih =>
    have hn : p.types.length + 1 ≤ n := hn
    rw [isTextKey_of_lt hx (by omega), ih]

end Program

/-! ### Descriptions -/

namespace Program

/-- The description of the first type asks for the second one in place. -/
def Needs (p : Program) (x y : Occurrence) : Prop := y ∈ p.inPlace x.bare

/-- No alias comes back to itself while its target is described in place. -/
def AliasesEnd (p : Program) : Prop :=
  ∀ d ∈ p.types, ∀ y, d.target? = some y → ¬TransGen p.Needs y y

/-- No test of a map key that the description of a type leads to comes back to where it has been:
neither a tuple struct of one field nor an alias that is used as a key leads back to itself. -/
def MapKeysEnd (p : Program) (x : Occurrence) : Prop :=
  ∀ y k, p.Reaches x y → y.bare.mapKey? = some k →
    ∀ z, ReflTransGen p.KeyStep k z → ¬TransGen p.KeyStep z z

/-- The levels that the description of a type goes down in place, at most. -/
noncomputable def depth (p : Program) (x : Occurrence) : Nat :=
  x.type.size + p.typeSize * ahead p TypeDecl.target? p.Needs x

/-- Whether a type is the use of a component that is not in the table. -/
def isVacant (p : Program) (t : SchemaTable) (x : Occurrence) : Bool :=
  (p.component? x).any fun use => (t.definition? (use.1.key use.2)).isNone

/-- How many uses of components that are not in the table a type may lead to. -/
def vacant (p : Program) (x : Occurrence) (t : SchemaTable) : Nat :=
  (p.occurrences x).countP (p.isVacant t)

variable {p : Program} {x y : Occurrence} {t t' : SchemaTable} {d : TypeDecl}
  {args : List TypeExpr} {name : String}

theorem size_le_typeSize {type : TypeExpr} (hd : d ∈ p.types) (ht : type ∈ writtenTypes d) :
    type.size ≤ p.typeSize :=
  TypeExpr.size_le_sizes (List.mem_flatMap.mpr ⟨d, hd, ht⟩)

theorem mem_writtenTypes_of_target? (h : d.target? = some y) : y.type ∈ writtenTypes d := by
  cases d with
  | typeAlias a =>
    cases h
    exact List.mem_cons_self
  | struct | enum => cases h

theorem countP_le_sizes {f : TypeDecl → Bool} (ds : List TypeDecl)
    (h : ∀ d, f d = true → 1 ≤ TypeExpr.sizes (writtenTypes d)) :
    ds.countP f ≤ TypeExpr.sizes (ds.flatMap writtenTypes) := by
  induction ds with
  | nil => exact Nat.le_refl _
  | cons d ds ih =>
    rw [List.countP_cons, List.flatMap_cons, TypeExpr.sizes_append]
    split
    · next hd =>
      have hpos := h d hd
      omega
    · omega

theorem ahead_target?_le (p : Program) (Step : Occurrence → Occurrence → Prop) (x : Occurrence) :
    ahead p TypeDecl.target? Step x ≤ p.typeSize := by
  refine countP_le_sizes p.types fun d hd => ?_
  simp only [decide_eq_true_eq] at hd
  obtain ⟨y, hy, -⟩ := hd
  exact Nat.le_trans (TypeExpr.one_le_size _)
    (TypeExpr.size_le_sizes (mem_writtenTypes_of_target? hy))

/-- In place, descriptions go down. -/
theorem depth_lt (hp : ∀ d ∈ p.types, d.typeParams = []) (ha : p.AliasesEnd) (h : p.Needs x y) :
    p.depth y < p.depth x := by
  unfold depth
  have hpos : 1 ≤ x.type.size := TypeExpr.one_le_size _
  rcases smaller_or_target_of_mem_inPlace hp h with ⟨-, hlt⟩ | ⟨d, hd, hy⟩
  · have hle : x.bare.type.size ≤ x.type.size :=
      TypeExpr.size_le_of_mem_parts (Layers.ofType_type_mem x.type)
    have hahead : p.typeSize * ahead p TypeDecl.target? p.Needs y ≤
        p.typeSize * ahead p TypeDecl.target? p.Needs x := Nat.mul_le_mul_left _ (ahead_le h)
    omega
  · have hle : y.type.size ≤ p.typeSize := size_le_typeSize hd (mem_writtenTypes_of_target? hy)
    have hahead := Nat.mul_le_mul_left p.typeSize (ahead_lt h hd hy (ha d hd y hy))
    rw [Nat.mul_succ] at hahead
    omega

/-- More levels than the types that are written in declarations go down in place. -/
def deepest (p : Program) : Nat := p.typeSize + p.typeSize * p.typeSize + 1

theorem depth_le (p : Program) (x : Occurrence) :
    p.depth x ≤ x.type.size + p.typeSize * p.typeSize :=
  Nat.add_le_add_left (Nat.mul_le_mul_left _ (ahead_target?_le p p.Needs x)) _

theorem vacant_le : p.vacant x t ≤ x.type.size + p.typeSize := by
  rw [← length_occurrences]
  exact List.countP_le_length

theorem isVacant_iff : p.isVacant t y = true ↔
    ∃ d args, p.component? y = some (d, args) ∧ t.definition? (d.key args) = none := by
  unfold isVacant
  cases p.component? y with
  | none => simp
  | some use => simp [Prod.ext_iff]

theorem isVacant_of_grows (h : Grows t t') (hy : p.isVacant t' y = true) :
    p.isVacant t y = true := by
  obtain ⟨d, args, hc, hk⟩ := isVacant_iff.mp hy
  exact isVacant_iff.mpr ⟨d, args, hc, definition?_eq_none_of_grows h hk⟩

theorem vacant_le_of_grows (h : Grows t t') : p.vacant x t' ≤ p.vacant x t :=
  List.countP_mono_left fun _ _ hy => isVacant_of_grows h hy

/-- To enter a component that is used takes one from what is missing. -/
theorem vacant_enter_lt (hy : y ∈ p.occurrences x) (hc : p.component? y = some (d, args))
    (hk : t.definition? (d.key args) = none) (hn : t.isTaken name = false) :
    p.vacant x ((t.enter (d.key args) name none).push (d.key args)) < p.vacant x t := by
  have hg : Grows t (t.enter (d.key args) name none) := grows_enter hk hn
  refine countP_lt_countP (fun z _ hz => isVacant_of_grows hg hz) hy ?_ ?_
  · rw [isVacant, hc, Option.any_some, definition?_push, definition?_enter, if_pos rfl]
    rfl
  · exact isVacant_iff.mpr ⟨d, args, hc, hk⟩

end Program

theorem pow_four_bound (m n : Nat) :
    (m + n) * (n + n * n + 1) + (m + n * n) < (n + m + 2) ^ 4 := by
  calc (m + n) * (n + n * n + 1) + (m + n * n)
      ≤ (n + m) * ((n + m) + (n + m) * (n + m) + 1) + ((n + m) + (n + m) * (n + m)) := by
        rw [Nat.add_comm m n]
        gcongr <;> omega
    _ < (n + m + 2) ^ 4 := by
        generalize n + m = k
        ring_nf
        omega

section Descriptions

variable {p : Program} {x y : Occurrence} {n : Nat}

/-- Work does not fail for want of levels on tables where no more than `n` uses are vacant. -/
def Lasts (p : Program) (x : Occurrence) (n : Nat) {α : Type} (work : Compile α) : Prop :=
  ∀ t, p.vacant x t ≤ n → ¬Starves work t

theorem workClosed_lasts (p : Program) (x : Occurrence) (n : Nat) :
    WorkClosed fun _ work => Replays work ∧ Lasts p x n work where
  pure a := by
    refine ⟨.pure a, fun t _ hs => ?_⟩
    obtain ⟨text, hs⟩ := hs
    cases hs
  fail e written he := by
    refine ⟨.fail e written, fun t _ hs => ?_⟩
    obtain ⟨text, hs⟩ := hs
    exact he _ text (Except.error.inj hs)
  bind {α β work f} hx hf := by
    refine ⟨hx.1.bind fun a => (hf a).1, fun t ht hs => ?_⟩
    rcases starves_bind.mp hs with hs | ⟨a, t', hr, hs⟩
    · exact hx.2 t ht hs
    · have hg : Grows t t' := hx.1.grows_of_runOn hr
      exact (hf a).2 t' (Nat.le_trans (vacant_le_of_grows hg) ht) hs

/-- A component lasts as long as its expansion does where the component is in the table. -/
theorem Lasts.componentOf {d : TypeDecl} {args : List TypeExpr} {expand : Compile Schema}
    (hy : y ∈ p.occurrences x) (hc : p.component? y = some (d, args))
    (h : ∀ m < n, Lasts p x m expand) : Lasts p x n (componentOf p d args expand) := by
  intro t ht hs
  obtain ⟨hk, hs⟩ := starves_componentOf.mp hs
  have hlt := vacant_enter_lt hy hc hk
    (t.isTaken_freeName d.module (d.componentName args))
  exact h _ (Nat.lt_of_lt_of_le hlt ht) _ (Nat.le_refl _) hs

/-- A description lasts as long as what it asks for in place, or as what is written in the component
that it enters, which is one less to enter then. -/
theorem lasts_within_succ {levels : Nat} (hy : y ∈ p.occurrences x)
    (hplace : ∀ z, p.Needs y z → Lasts p x n (within p levels z.type z.module))
    (hwritten : ∀ d ∈ p.types, ∀ args, ∀ z ∈ writtenIn d args, z ∈ p.next y →
      ∀ m < n, Lasts p x m (within p levels z.type z.module)) :
    Lasts p x n (within p (levels + 1) y.type y.module) := by
  have rules := workRules_replays (typeRules_true p)
  have hreplays : Replays (shapeOf p (within p levels) y.bare.type y.bare.module) :=
    rules.shapeOf (fun t module _ => rules.within _ _ trivial) _ trivial (Layers.ofType_type _)
  have hshape : Lasts p x n (shapeOf p (within p levels) y.bare.type y.bare.module) := by
    rcases shapeOf_occurrence p y.bare with ⟨path, d, args, hd, -, -, hc, heq⟩ | ⟨-, hasks⟩
    · have hbare : y.bare ∈ p.occurrences x := mem_occurrences_of_mem_parts hy y.bare_mem_parts
      rw [heq]
      refine .componentOf hbare hc fun m hm => ?_
      refine ((workClosed_lasts p x m).expansionOf (W := fun t module =>
        ⟨t, module⟩ ∈ writtenIn d args) (fun t module hz => ?_) fun t ht =>
          List.mem_map_of_mem ht).2
      have hnext : ⟨t, module⟩ ∈ p.next y := by
        rw [next, hc]
        exact List.mem_append_right _ hz
      exact ⟨rules.within _ _ trivial, hwritten d (mem_types_of_findType hd) args _ hz hnext m hm⟩
    · have hasks : Asks _ (fun t module => ⟨t, module⟩ ∈ p.inPlace y.bare) Eq (within p levels)
        (within p levels) True Eq _ _ := hasks True schemaCongruence_eq
      refine ((workClosed_lasts p x n).of_asks (fun t module hz => ?_) hasks).2
      exact ⟨rules.within _ _ trivial, hplace _ hz⟩
  exact ((workClosed_lasts p x n).bind ⟨hreplays, hshape⟩ fun _ =>
    (workClosed_lasts p x n).pure _).2

variable (hp : ∀ d ∈ p.types, d.typeParams = []) (ha : p.AliasesEnd)

include hp

/-- Whatever is written in a declaration, its description goes down less than `deepest` levels. -/
theorem depth_lt_of_mem_writtenIn {d : TypeDecl} {args : List TypeExpr} (hd : d ∈ p.types)
    (hy : y ∈ writtenIn d args) : p.depth y < p.deepest := by
  obtain ⟨type, ht, rfl⟩ := mem_writtenIn hp hd hy
  have hsize : type.size ≤ p.typeSize := size_le_typeSize hd ht
  have hdepth : p.depth ⟨type, d.module⟩ ≤ type.size + p.typeSize * p.typeSize := p.depth_le _
  unfold deepest
  omega

include ha

/-- As many components as may still be entered, each as deep as any, and the way down to the next
one: more levels than these are enough. -/
theorem lasts_within {levels : Nat} (hy : y ∈ p.occurrences x)
    (h : n * p.deepest + p.depth y < levels) :
    Lasts p x n (within p levels y.type y.module) := by
  induction levels generalizing n y with
  | zero => cases h
  | succ levels ih =>
    have mem {z : Occurrence} (hz : z ∈ p.next y) : z ∈ p.occurrences x :=
      mem_occurrences_of_mem_next hp hy hz
    refine lasts_within_succ hy (fun z hz => ?_) fun d hd args z hz hnext m hm => ?_
    · have hdepth := depth_lt hp ha hz
      exact ih (mem (List.mem_append_left _ hz)) (by omega)
    · -- One component is in the table now, so its expansion may go down from the top again.
      have hdepth := depth_lt_of_mem_writtenIn hp hd hz
      have hlevels : (m + 1) * p.deepest ≤ n * p.deepest := Nat.mul_le_mul_right _ hm
      rw [Nat.succ_mul] at hlevels
      exact ih (mem hnext) (by omega)

/-- There are enough levels for each type and each table. -/
theorem not_starves_compileField (x : Occurrence) (t : SchemaTable) :
    ¬Starves (p.compileField x.type x.module) t := by
  refine lasts_within hp ha mem_occurrences_self ?_ t vacant_le
  have hdepth : p.depth x ≤ x.type.size + p.typeSize * p.typeSize := p.depth_le x
  have hlevels : p.levels x.type = (p.typeSize + x.type.size + 2) ^ 4 := rfl
  have hbound := pow_four_bound x.type.size p.typeSize
  unfold deepest
  omega

end Descriptions

/-- Compiling a type comes to an end from every table: it does not fail for want of levels, and more
levels make no difference to it, nor to any test of a map key that it leads to. -/
structure Program.Ends (p : Program) (x : Occurrence) : Prop where
  field : ∀ t, ¬Starves (p.compileField x.type x.module) t
  type : ∀ t, ¬Starves (p.compileType x.type x.module) t
  member : ∀ f container t, f.type = x.type → ¬Starves (p.compileMember f container x.module) t
  levels : ∀ n t, p.levels x.type ≤ n →
    (within p n x.type x.module).runOn t = (p.compileField x.type x.module).runOn t
  keys : ∀ y k n, p.Reaches x y → y.bare.mapKey? = some k → p.types.length + 1 ≤ n →
    isTextKey p n k.type k.module = isTextKey p (p.types.length + 1) k.type k.module

theorem not_starves_bind_pure {α β : Type} {x : Compile α} {f : α → β} {t : SchemaTable}
    (h : ¬Starves x t) : ¬Starves (x >>= fun a => pure (f a)) t := by
  rwa [Starves, exists_congr fun _ => error_bind_pure]

/-- Where no declaration has type parameters, no alias comes back to itself, and no test of a map
key comes back to where it has been, compiling comes to an end, whatever the table is. -/
theorem Program.ends_of_acyclic {p : Program} (hp : ∀ d ∈ p.types, d.typeParams = [])
    (ha : p.AliasesEnd) {x : Occurrence} (hk : p.MapKeysEnd x) : p.Ends x where
  field := not_starves_compileField hp ha x
  type t := not_starves_bind_pure (not_starves_compileField hp ha x t)
  member f container t hf := by
    have hfield := not_starves_compileField hp ha x t
    rw [← hf] at hfield
    exact not_starves_bind_pure hfield
  levels n t hn := runOn_within_of_le hn (not_starves_compileField hp ha x t)
  keys y k n hy hkey hn := isTextKey_of_le (hk y k hy hkey) hn

/-! ### Programs without cycles -/

/-- Whether steps from an occurrence come to an end after less than a number of them. -/
def exhausted (next : Occurrence → List Occurrence) : Nat → Occurrence → Bool
  | 0, _ => false
  | n + 1, x => (next x).all (exhausted next n)

section Exhausted

variable {next : Occurrence → List Occurrence} {n : Nat} {x y : Occurrence}

theorem exhausted_of_mem (h : exhausted next n x = true) (hy : y ∈ next x) :
    ∃ m < n, exhausted next m y = true := by
  cases n with
  | zero => cases h
  | succ n => exact ⟨n, Nat.lt_succ_self n, List.all_eq_true.mp h y hy⟩

theorem exhausted_of_transGen (h : exhausted next n x = true)
    (hy : TransGen (fun x y => y ∈ next x) x y) : ∃ m < n, exhausted next m y = true := by
  induction hy with
  | single hy => exact exhausted_of_mem h hy
  | tail _ hz ih =>
    obtain ⟨m, hm, hy⟩ := ih
    obtain ⟨k, hk, hz⟩ := exhausted_of_mem hy hz
    exact ⟨k, hk.trans hm, hz⟩

theorem not_transGen_of_exhausted (h : exhausted next n x = true) :
    ¬TransGen (fun x y => y ∈ next x) x x := by
  intro hx
  induction n using Nat.strongRecOn with
  | ind n ih =>
    obtain ⟨m, hm, h⟩ := exhausted_of_transGen h hx
    exact ih m hm h

theorem not_transGen_of_reflTransGen (h : exhausted next n x = true)
    (hxy : ReflTransGen (fun x y => y ∈ next x) x y) : ¬TransGen (fun x y => y ∈ next x) y y := by
  rcases reflTransGen_iff_eq_or_transGen.mp hxy with rfl | hxy
  · exact not_transGen_of_exhausted h
  · obtain ⟨m, -, h⟩ := exhausted_of_transGen h hxy
    exact not_transGen_of_exhausted h

end Exhausted

namespace Program

variable {p : Program} {n : Nat} {x : Occurrence}

theorem aliasesEnd_of_exhausted (h : (p.types.all fun d => d.target?.all
    (exhausted (fun x => p.inPlace x.bare) n)) = true) : p.AliasesEnd := by
  intro d hd y hy
  have h := List.all_eq_true.mp h d hd
  rw [hy, Option.all_some] at h
  exact not_transGen_of_exhausted h

theorem mapKeysEnd_of_exhausted (hp : ∀ d ∈ p.types, d.typeParams = [])
    (h : ((p.occurrences x).all fun y => y.bare.mapKey?.all (exhausted p.keyNext n)) = true) :
    p.MapKeysEnd x := by
  intro y k hy hk z hkz
  have h := List.all_eq_true.mp h y (mem_occurrences_of_reaches hp hy)
  rw [hk, Option.all_some] at h
  exact not_transGen_of_reflTransGen h hkz

end Program

/-- Nodes that have nodes in them, one written with an argument that it does not take, and a
flattened part that leads back to nodes through an alias, under keys that are a tuple struct. -/
def nodes : Program where
  structs := [⟨[], [], "Name", [], .unnamed [⟨[], false, none, .path ["String"] []⟩]⟩,
    ⟨[], [], "Rest", [], .named [⟨[], true, some "named",
      .path ["HashMap"] [.path ["Name"] [], .path ["Nodes"] []]⟩]⟩,
    ⟨[], [], "Node", [], .named [
      ⟨[], true, some "next", .path ["Option"] [.path ["Box"] [.path ["Node"] []]]⟩,
      ⟨[], true, some "twin", .path ["Node"] [.path ["Nodes"] []]⟩,
      ⟨[⟨{ segments := ["serde"] }, .list [.ident "flatten"]⟩], true, some "rest",
        .path ["Rest"] []⟩]⟩]
  aliases := [⟨[], [], "Nodes", [], .path ["Vec"] [.path ["Node"] []]⟩]

theorem Program.ends_of_acyclic_nodes :
    (∀ d ∈ nodes.types, d.typeParams = []) ∧ nodes.AliasesEnd ∧
      nodes.MapKeysEnd ⟨.path ["Nodes"] [], []⟩ ∧ nodes.Ends ⟨.path ["Nodes"] [], []⟩ := by
  have hp : ∀ d ∈ nodes.types, d.typeParams = [] := by decide
  have ha : nodes.AliasesEnd := aliasesEnd_of_exhausted (n := 3) (by decide +kernel)
  have hk : nodes.MapKeysEnd ⟨.path ["Nodes"] [], []⟩ :=
    mapKeysEnd_of_exhausted (n := 3) hp (by decide +kernel)
  exact ⟨hp, ha, hk, Program.ends_of_acyclic hp ha hk⟩

end ServiceContract
