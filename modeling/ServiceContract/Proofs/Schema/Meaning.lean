import ServiceContract.Proofs.Program.Lookup
import ServiceContract.Proofs.Schema.Asks
import ServiceContract.Proofs.Work

/-! # Types that mean the same

A type in one module and a type in another one mean the same if their paths find the same
declarations, each where it stands. Then they have the same full form and the same schema, which is
seen level by level.
-/

namespace ServiceContract

open Source TypeCompiler

/-- Whether the name of a type that is not declared says what it is: its text is not needed then. -/
def Source.TypePath.isKnown (path : TypePath) : Bool :=
  (Schema.ofPrimitive? path.name).isSome || (Schema.ofLibrary? path.name).isSome ||
    match path.args with
    | [] => false
    | _ :: rest =>
      (TypeExpr.pointers ++ Layers.transparent ++ lists ++ sets).contains path.name ||
        if rest.isEmpty then path.name == "Option" else maps.contains path.name

/-- The target of an alias with arguments in place of its parameters. -/
def Declared.target (a : Declared AliasItem) (args : List TypeExpr) : TypeExpr :=
  ((TypeDecl.typeAlias a).substitution args).apply a.item.target

/-- A type in a module and a type in another one mean the same. -/
inductive MeansSame (p : Program) : List String → List String → TypeExpr → TypeExpr → Prop
  | same {m : List String} {t : TypeExpr} : MeansSame p m m t t
  | dynamic {m m' : List String} : MeansSame p m m' .dynamic .dynamic
  | unknown {m m' : List String} : MeansSame p m m' .unknown .unknown
  | ref {m m' : List String} {t t' : TypeExpr} :
    MeansSame p m m' t t' → MeansSame p m m' (.ref t) (.ref t')
  | slice {m m' : List String} {t t' : TypeExpr} :
    MeansSame p m m' t t' → MeansSame p m m' (.slice t) (.slice t')
  | array {m m' : List String} {t t' : TypeExpr} {n : Option Nat} :
    MeansSame p m m' t t' → MeansSame p m m' (.array t n) (.array t' n)
  | tuple {m m' : List String} {ts ts' : List TypeExpr} (length : ts.length = ts'.length)
    (items : ∀ t t', (t, t') ∈ ts.zip ts' → MeansSame p m m' t t') :
    MeansSame p m m' (.tuple ts) (.tuple ts')
  | path {m m' s s' : List String} {as as' : List TypeExpr}
    (found : p.findType ⟨s, as⟩ m = p.findType ⟨s', as'⟩ m')
    (full : p.fullPath ⟨s, as⟩ m = p.fullPath ⟨s', as'⟩ m') (length : as.length = as'.length)
    (args : ∀ a a', (a, a') ∈ as.zip as' → MeansSame p m m' a a')
    (target : ∀ a, p.findType ⟨s, as⟩ m = some (.typeAlias a) →
      MeansSame p a.module a.module (a.target as) (a.target as'))
    (shown : p.findType ⟨s, as⟩ m = none → TypePath.isKnown ⟨s, as⟩ = false → as = as') :
    MeansSame p m m' (.path s as) (.path s' as')

namespace MeansSame

variable {p : Program} {m m' s s' : List String} {t t' : TypeExpr} {as as' : List TypeExpr}

/-- Paths that find no declaration have to be the same. -/
theorem segments_eq (found : p.findType ⟨s, as⟩ m = p.findType ⟨s', as'⟩ m')
    (full : p.fullPath ⟨s, as⟩ m = p.fullPath ⟨s', as'⟩ m') (hd : p.findType ⟨s, as⟩ m = none) :
    s = s' := by
  rw [hd] at found
  simpa only [Program.fullPath, hd, ← found] using full

/-- Paths that find the same are written with the same name. -/
theorem name_eq (found : p.findType ⟨s, as⟩ m = p.findType ⟨s', as'⟩ m')
    (full : p.fullPath ⟨s, as⟩ m = p.fullPath ⟨s', as'⟩ m') :
    TypePath.name ⟨s, as⟩ = TypePath.name ⟨s', as'⟩ := by
  cases hd : p.findType ⟨s, as⟩ m with
  | none => rw [TypePath.name, TypePath.name, segments_eq found full hd]
  | some d =>
    have hd' := found.symm.trans hd
    exact (Program.name_of_findType hd).symm.trans (Program.name_of_findType hd')

theorem name?_eq (h : MeansSame p m m' t t') : t.name? = t'.name? := by
  cases h with
  | path found full => exact congrArg some (name_eq found full)
  | _ => rfl

/-- The types behind wrappers and pointers mean the same, too. -/
theorem layers (h : MeansSame p m m' t t') :
    MeansSame p m m' (Layers.ofType t).type (Layers.ofType t').type ∧
      (Layers.ofType t).optional = (Layers.ofType t').optional ∧
      (Layers.ofType t).pointers = (Layers.ofType t').pointers := by
  have hs := h
  induction h with
  | same => exact ⟨.same, rfl, rfl⟩
  | ref h ih =>
    obtain ⟨ht, ho, hp⟩ := ih h
    rw [Layers.ofType, Layers.ofType, h.name?_eq]
    split
    · exact ⟨ht, ho, hp⟩
    · exact ⟨ht, ho, congrArg (· + 1) hp⟩
  | @path m m' s s' as as' found full length args _ _ ih _ =>
    cases as with
    | nil =>
      cases List.eq_nil_of_length_eq_zero length.symm
      exact ⟨hs, rfl, rfl⟩
    | cons a as =>
      obtain ⟨a', as', rfl⟩ := List.exists_cons_of_length_eq_add_one length.symm
      have ha : (a, a') ∈ (a :: as).zip (a' :: as') := List.mem_cons_self
      have hempty : as.isEmpty = as'.isEmpty := by
        rw [Bool.eq_iff_iff, List.isEmpty_iff_length_eq_zero, List.isEmpty_iff_length_eq_zero,
          Nat.succ.inj length]
      obtain ⟨ht, ho, hp⟩ := ih a a' ha (args a a' ha)
      have hn := name_eq found full
      -- A wrapper is known by the name of the path and the number of arguments.
      unfold TypePath.name at hn
      rw [Layers.ofType, Layers.ofType]
      dsimp only at hn ⊢
      rw [hn, hempty]
      split_ifs
      · exact ⟨ht, ho, congrArg (· + 1) hp⟩
      · exact ⟨ht, rfl, hp⟩
      · exact ⟨ht, ho, hp⟩
      · exact ⟨hs, rfl, rfl⟩
  | _ => exact ⟨hs, rfl, rfl⟩

/-- What is left behind pointers means the same, too. -/
theorem peel (h : MeansSame p m m' t t') : MeansSame p m m' t.peel t'.peel := by
  have hs := h
  induction h with
  | same => exact .same
  | ref h ih =>
    rw [TypeExpr.peel, TypeExpr.peel]
    exact ih h
  | @path m m' s s' as as' found full length args _ _ ih _ =>
    cases as with
    | nil =>
      cases List.eq_nil_of_length_eq_zero length.symm
      exact hs
    | cons a as =>
      obtain ⟨a', as', rfl⟩ := List.exists_cons_of_length_eq_add_one length.symm
      have ha : (a, a') ∈ (a :: as).zip (a' :: as') := List.mem_cons_self
      have hn := name_eq found full
      unfold TypePath.name at hn
      rw [TypeExpr.peel, TypeExpr.peel]
      dsimp only at hn
      rw [hn]
      split_ifs
      · exact ih a a' ha (args a a' ha)
      · exact hs
  | _ => exact hs

/-- Types that mean the same have the same full form. -/
theorem canonical_eq (h : MeansSame p m m' t t') : p.canonical m t = p.canonical m' t' := by
  have all_eq {m m' : List String} {ts ts' : List TypeExpr} (length : ts.length = ts'.length)
      (ih : ∀ t t', (t, t') ∈ ts.zip ts' → p.canonical m t = p.canonical m' t') :
      p.canonicalAll m ts = p.canonicalAll m' ts' := by
    induction ts generalizing ts' with
    | nil =>
      cases List.eq_nil_of_length_eq_zero length.symm
      rfl
    | cons t ts rest =>
      obtain ⟨t', ts', rfl⟩ := List.exists_cons_of_length_eq_add_one length.symm
      rw [Program.canonicalAll, Program.canonicalAll, ih t t' List.mem_cons_self,
        rest (Nat.succ.inj length) fun t t' ht => ih t t' (List.mem_cons_of_mem _ ht)]
  induction h with
  | same | dynamic | unknown => rfl
  | ref _ ih => exact congrArg TypeExpr.ref ih
  | slice _ ih => exact congrArg TypeExpr.slice ih
  | @array _ _ _ _ n _ ih => exact congrArg (TypeExpr.array · n) ih
  | tuple length _ ih => exact congrArg TypeExpr.tuple (all_eq length ih)
  | path _ full length _ _ _ ih _ =>
    rw [Program.canonical, Program.canonical, full, all_eq length ih]

/-- Types that mean the same are both texts, or neither is. -/
theorem isTextKey_eq (h : MeansSame p m m' t t') (n : Nat) :
    isTextKey p n t m = isTextKey p n t' m' := by
  cases n with
  | zero => rfl
  | succ n =>
    have hpeel := h.peel
    rw [isTextKey, isTextKey]
    generalize t.peel = u, t'.peel = u' at hpeel
    cases hpeel with
    | path found full => simp only [TypeExpr.asPath?, name_eq found full, found]
    | _ => rfl

end MeansSame

/-- No wrapper is left around the type behind wrappers and pointers. -/
theorem Layers.ofType_eq_path {t a : TypeExpr} {s : List String} {as : List TypeExpr}
    (h : (ofType t).type = .path s (a :: as)) :
    TypeExpr.pointers.contains (s.getLast?.getD "") = false ∧
      (s.getLast?.getD "" == "Option" && as.isEmpty) = false ∧
      transparent.contains (s.getLast?.getD "") = false := by
  fun_induction ofType t with
  | case1 t _ ih | case2 t _ ih => exact ih h
  | case3 s a as name _ ih => exact ih h
  | case4 s a as name _ _ _ ih => exact ih h
  | case5 s a as name _ _ _ ih => exact ih h
  | case6 s a as name hpointer hoption htransparent =>
    cases h
    exact ⟨Bool.eq_false_iff.mpr hpointer, Bool.eq_false_iff.mpr hoption,
      Bool.eq_false_iff.mpr htransparent⟩
  | case7 t _ hpath => exact absurd h (hpath _ _ _)

section Compiler

variable {p : Program} {m m' s s' : List String} {t t' : TypeExpr} {as as' : List TypeExpr}
  {inner : TypeCompiler} (hi : ∀ {m m' : List String} {t t' : TypeExpr}, MeansSame p m m' t t' →
    Work.Alike (inner t m) (inner t' m'))

include hi

theorem schemaOf_alike (h : MeansSame p m m' t t') :
    Work.Alike (inner.schemaOf t m) (inner.schemaOf t' m') :=
  (hi h).bind fun _ => .refl _

theorem namedOf_alike (found : p.findType ⟨s, as⟩ m = p.findType ⟨s', as'⟩ m')
    (full : p.fullPath ⟨s, as⟩ m = p.fullPath ⟨s', as'⟩ m')
    (canonical : p.canonicalAll m as = p.canonicalAll m' as')
    (target : ∀ a, p.findType ⟨s, as⟩ m = some (.typeAlias a) →
      MeansSame p a.module a.module (a.target as) (a.target as'))
    (shown : p.findType ⟨s, as⟩ m = none →
      Schema.ofLibrary? (TypePath.name ⟨s, as⟩) = none → as = as') :
    Work.Alike (inner.namedOf p ⟨s, as⟩ m) (inner.namedOf p ⟨s', as'⟩ m') := by
  rw [TypeCompiler.namedOf, TypeCompiler.namedOf, ← found, ← MeansSame.name_eq found full]
  cases hd : p.findType ⟨s, as⟩ m with
  | some d =>
    cases d with
    | struct d | enum d =>
      dsimp only [declaredOf]
      rw [canonical]
      exact .refl _
    | typeAlias a => exact schemaOf_alike hi (target a hd)
  | none =>
    cases hl : Schema.ofLibrary? (TypePath.name ⟨s, as⟩) with
    | some s => exact .refl _
    | none =>
      obtain rfl := MeansSame.segments_eq found full hd
      obtain rfl := shown hd hl
      exact .refl _

theorem pathOf_alike (found : p.findType ⟨s, as⟩ m = p.findType ⟨s', as'⟩ m')
    (full : p.fullPath ⟨s, as⟩ m = p.fullPath ⟨s', as'⟩ m') (length : as.length = as'.length)
    (args : ∀ a a', (a, a') ∈ as.zip as' → MeansSame p m m' a a')
    (canonical : p.canonicalAll m as = p.canonicalAll m' as')
    (target : ∀ a, p.findType ⟨s, as⟩ m = some (.typeAlias a) →
      MeansSame p a.module a.module (a.target as) (a.target as'))
    (shown : p.findType ⟨s, as⟩ m = none → TypePath.isKnown ⟨s, as⟩ = false → as = as')
    (hl : Layers.ofType (.path s as) = { type := .path s as }) :
    Work.Alike (inner.pathOf p ⟨s, as⟩ m) (inner.pathOf p ⟨s', as'⟩ m') := by
  have named (unknown : Schema.ofLibrary? (TypePath.name ⟨s, as⟩) = none →
      TypePath.isKnown ⟨s, as⟩ = false) :
      Work.Alike (inner.namedOf p ⟨s, as⟩ m) (inner.namedOf p ⟨s', as'⟩ m') :=
    namedOf_alike hi found full canonical target fun hd hlibrary => shown hd (unknown hlibrary)
  have hname := MeansSame.name_eq found full
  rw [TypeCompiler.pathOf, TypeCompiler.pathOf, ← hname]
  cases hprimitive : Schema.ofPrimitive? (TypePath.name ⟨s, as⟩) with
  | some s => exact .refl _
  | none =>
    cases as with
    | nil =>
      cases List.eq_nil_of_length_eq_zero length.symm
      exact named fun hlibrary => by simp [TypePath.isKnown, hprimitive, hlibrary]
    | cons item rest =>
      obtain ⟨item', rest', rfl⟩ := List.exists_cons_of_length_eq_add_one length.symm
      have hitem := args item item' List.mem_cons_self
      obtain ⟨hpointer, hoption, htransparent⟩ :=
        Layers.ofType_eq_path (congrArg Layers.type hl)
      dsimp only
      split
      · exact (schemaOf_alike hi hitem).bind fun _ => .refl _
      split
      · exact (schemaOf_alike hi hitem).bind fun _ => .refl _
      next hlist hset =>
      cases rest with
      | nil =>
        cases List.eq_nil_of_length_eq_zero (Nat.succ.inj length).symm
        refine named fun hlibrary => ?_
        simp_all [TypePath.isKnown, TypePath.name]
      | cons value more =>
        obtain ⟨value', more', rfl⟩ :=
          List.exists_cons_of_length_eq_add_one (Nat.succ.inj length).symm
        dsimp only
        split
        · rw [hitem.isTextKey_eq]
          split
          · have hvalue := args value value' (List.mem_cons_of_mem _ List.mem_cons_self)
            exact (schemaOf_alike hi hvalue).bind fun _ => .refl _
          · exact fun t => ⟨rfl, rfl⟩
        · refine named fun hlibrary => ?_
          simp_all [TypePath.isKnown, TypePath.name]

theorem tupleOf_alike {ts ts' : List TypeExpr} (length : ts.length = ts'.length)
    (items : ∀ t t', (t, t') ∈ ts.zip ts' → MeansSame p m m' t t') :
    Work.Alike (inner.tupleOf ts m) (inner.tupleOf ts' m') := by
  refine Work.Alike.bind (.mapM ?_) fun _ => .refl _
  exact List.forall₂_iff_zip.mpr ⟨length, fun ht => schemaOf_alike hi (items _ _ ht)⟩

/-- One level of types that mean the same, without wrappers around them. -/
theorem shapeOf_alike (h : MeansSame p m m' t t') (hl : Layers.ofType t = { type := t }) :
    Work.Alike (inner.shapeOf p t m) (inner.shapeOf p t' m') := by
  have hc := h.canonical_eq
  cases h with
  | same | dynamic | unknown => exact .refl _
  | ref h => exact schemaOf_alike hi h
  | slice h | array h => exact (schemaOf_alike hi h).bind fun _ => .refl _
  | @tuple _ _ ts ts' length items =>
    cases ts with
    | nil =>
      cases List.eq_nil_of_length_eq_zero length.symm
      exact .refl _
    | cons t ts =>
      obtain ⟨t', ts', rfl⟩ := List.exists_cons_of_length_eq_add_one length.symm
      exact tupleOf_alike hi length items
  | path found full length args target shown =>
    rw [Program.canonical, Program.canonical, TypeExpr.path.injEq] at hc
    exact pathOf_alike hi found full length args hc.2 target shown hl

end Compiler

/-- Types that mean the same have the same schema, and what they enter is the same. -/
theorem within_alike {p : Program} {m m' : List String} {t t' : TypeExpr}
    (h : MeansSame p m m' t t') (n : Nat) : Work.Alike (within p n t m) (within p n t' m') := by
  induction n generalizing m m' t t' with
  | zero => exact fun _ => ⟨rfl, rfl⟩
  | succ n ih =>
    obtain ⟨htype, hoptional, hpointers⟩ := h.layers
    unfold within step
    dsimp only
    rw [hoptional, hpointers]
    exact (shapeOf_alike ih htype (Layers.ofType_type t)).bind fun _ => .refl _

end ServiceContract
