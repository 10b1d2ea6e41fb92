import ServiceContract.Proofs.Schema.Arguments
import ServiceContract.Proofs.Schema.Contexts

/-! # Generic types as keys of maps

The test of a map key looks through tuple structs of one field and through aliases, but it does not
replace type parameters by arguments: a parameter is looked up like the name of a declared type.
The expansion of the same declaration does replace them. So a generic type is refused as a key where
the type that it stands for is not, and the other way round, exactly if the test says something
else about the name of the parameter than about the argument.
-/

namespace ServiceContract

open Source TypeCompiler Relation Program

/-- Names of types that are texts. -/
def TypeCompiler.texts : List String := ["String", "str", "char", "Uuid"]

/-- The name that a type consists of, behind references and wrappers. -/
def TypeExpr.sole? (t : TypeExpr) : Option String :=
  match t.peel with
  | .path [name] [] => some name
  | _ => none

/-- A type is refused as the key of each map. -/
def Program.RefusesKey (p : Program) (key : TypeExpr) (module : List String) : Prop :=
  ∀ segments value rest T, maps.contains (TypePath.name ⟨segments, key :: value :: rest⟩) = true →
    ∃ context, ((p.compileType (.path segments (key :: value :: rest)) module).runOn T).1 =
      .error (.unsupportedMapKey key.text context)

section Keys

variable {p : Program} {n : Nat} {t u key : TypeExpr} {module : List String} {x y : Occurrence}
  {T : SchemaTable}

theorem isTextKey_congr (h : t.peel.asPath?.map (·.segments) = u.peel.asPath?.map (·.segments)) :
    isTextKey p n t module = isTextKey p n u module := by
  cases n with
  | zero => rfl
  | succ n =>
    unfold isTextKey
    cases ht : t.peel.asPath? with
    | none =>
      rw [ht] at h
      rw [Option.map_eq_none_iff.mp h.symm]
    | some path =>
      rw [ht] at h
      obtain ⟨path', hu, hs⟩ := Option.map_eq_some_iff.mp h.symm
      obtain ⟨segments, args⟩ := path
      obtain ⟨segments', args'⟩ := path'
      obtain rfl : segments' = segments := hs
      rw [hu]
      rfl

theorem isTextKey_of_peel_eq (h : t.peel = u.peel) :
    isTextKey p n t module = isTextKey p n u module :=
  isTextKey_congr (by rw [h])

theorem Substitution.apply_path_cons (σ : Substitution) (segments : List String)
    (args : List TypeExpr) : σ.apply (.path segments (t :: args)) =
      .path segments (σ.apply t :: σ.applyAll args) := by
  rw [Substitution.apply, Substitution.applyAll]
  simp

theorem TypeExpr.sole?_of_peel_eq (h : t.peel = u.peel) : t.sole? = u.sole? := by
  rw [sole?, sole?, h]

/-- A type with arguments in place of parameters is a text if it is one as written, unless it is a
parameter itself. -/
theorem isTextKey_apply (σ : Substitution) : isTextKey p n (σ.apply t) module =
    isTextKey p n ((t.sole?.bind (List.lookup · σ)).getD t) module := by
  have wrapped {t u : TypeExpr} (hu : u.peel = t.peel) (hσ : (σ.apply u).peel = (σ.apply t).peel)
      (h : isTextKey p n (σ.apply t) module =
        isTextKey p n ((t.sole?.bind (List.lookup · σ)).getD t) module) :
      isTextKey p n (σ.apply u) module =
        isTextKey p n ((u.sole?.bind (List.lookup · σ)).getD u) module := by
    rw [isTextKey_of_peel_eq hσ, h, TypeExpr.sole?_of_peel_eq hu]
    cases t.sole?.bind (List.lookup · σ) with
    | some a => rfl
    | none => exact isTextKey_of_peel_eq hu.symm
  fun_induction TypeExpr.peel t with
  | case1 t ih =>
    exact wrapped (by rw [TypeExpr.peel]) (by rw [Substitution.apply, TypeExpr.peel]) ih
  | case2 segments a as hw ih =>
    have hpeel {a : TypeExpr} {as : List TypeExpr} :
        (TypeExpr.path segments (a :: as)).peel = a.peel := by rw [TypeExpr.peel, if_pos hw]
    exact wrapped hpeel (by rw [Substitution.apply_path_cons, hpeel]) ih
  | case3 segments a as hw =>
    have hpeel {a : TypeExpr} {as : List TypeExpr} :
        (TypeExpr.path segments (a :: as)).peel = .path segments (a :: as) := by
      rw [TypeExpr.peel, if_neg hw]
    have hsole : (TypeExpr.path segments (a :: as)).sole? = none := by
      rw [TypeExpr.sole?, hpeel]
      simp
    rw [Substitution.apply_path_cons, hsole]
    exact isTextKey_congr (by rw [hpeel, Option.bind_none, Option.getD_none, hpeel]; rfl)
  | case4 t h1 h2 =>
    -- What is left has no arguments to look through.
    cases t with
    | ref t => exact absurd rfl (h1 t)
    | path segments args =>
      cases args with
      | cons a as => exact absurd rfl (h2 segments a as)
      | nil =>
        cases segments with
        | nil => rfl
        | cons name rest => cases rest <;> rfl
    | slice t | array t n | tuple ts | dynamic | unknown => exact isTextKey_congr rfl

theorem TypeExpr.peel_of_sole? {name : String} (h : t.sole? = some name) :
    t.peel = TypeExpr.peel (.path [name] []) := by
  unfold sole? at h
  split at h
  · next hpeel =>
    cases h
    rw [hpeel]
    rfl
  · cases h

theorem TypeExpr.peel_peel (t : TypeExpr) : t.peel.peel = t.peel := by
  fun_induction TypeExpr.peel t with
  | case1 t ih => exact ih
  | case2 segments a as hw ih => exact ih
  | case3 segments a as hw => rw [peel, if_neg hw]
  | case4 t h1 h2 => exact peel.eq_3 t h1 h2

theorem isTextKey_of_mem_texts {segments : List String} {args : List TypeExpr}
    (hpeel : (TypeExpr.path segments args).peel = .path segments args)
    (h : TypePath.name ⟨segments, args⟩ ∈ texts) :
    isTextKey p (n + 1) (.path segments args) module = true := by
  rw [isTextKey, hpeel]
  exact if_pos (by simpa [texts] using h)

/-- A map is described by its values if its keys are texts, and refused otherwise. -/
theorem runOn_within_map {segments : List String} {value : TypeExpr} {rest : List TypeExpr}
    (hmap : maps.contains (TypePath.name ⟨segments, key :: value :: rest⟩) = true) :
    (within p (n + 1) (.path segments (key :: value :: rest)) module).runOn T =
      if isTextKey p (p.types.length + 1) key module = true then
        (do
          let s ← (within p n).schemaOf value module
          return (⟨{ Schema.typed "object" with additionalProperties := some s }, false, 0⟩ :
            FieldType)).runOn T
      else
        (.error (.unsupportedMapKey key.text
          (T.stack.head?.getD (TypeExpr.path segments (key :: value :: rest)).text)), T) := by
  have hname : TypePath.name ⟨segments, key :: value :: rest⟩ = "HashMap" ∨
      TypePath.name ⟨segments, key :: value :: rest⟩ = "BTreeMap" ∨
      TypePath.name ⟨segments, key :: value :: rest⟩ = "IndexMap" := by
    simpa [maps] using hmap
  have hlayers : Layers.ofType (.path segments (key :: value :: rest)) =
      { type := .path segments (key :: value :: rest) } := by
    unfold TypePath.name at hname
    rcases hname with h | h | h <;> simp [Layers.ofType, h, TypeExpr.pointers, Layers.transparent]
  have hpath (inner : TypeCompiler) :
      inner.pathOf p ⟨segments, key :: value :: rest⟩ module =
        (do
          if isTextKey p (p.types.length + 1) key module then
            return { Schema.typed "object" with
              additionalProperties := some (← inner.schemaOf value module) }
          else throw (.unsupportedMapKey key.text (← Compile.context
            (TypePath.toType ⟨segments, key :: value :: rest⟩)))) := by
    unfold TypeCompiler.pathOf
    rcases hname with h | h | h <;> simp only [h] <;> rfl
  rw [within, step, hlayers]
  simp only [shapeOf, hpath]
  split
  · rw [bind_assoc]
    rfl
  · rfl

theorem exists_levels (t : TypeExpr) : ∃ n, p.levels t = n + 2 := by
  have hlevels : 2 ^ 4 ≤ p.levels t := Nat.pow_le_pow_left (Nat.le_add_left 2 _) 4
  exact ⟨p.levels t - 2, by omega⟩

theorem refusesKey_iff :
    p.RefusesKey key module ↔ isTextKey p (p.types.length + 1) key module = false := by
  constructor
  · intro h
    by_contra hkey
    obtain ⟨n, hn⟩ := exists_levels (p := p) (.path ["HashMap"] [key, .path ["String"] []])
    obtain ⟨context, hr⟩ := h ["HashMap"] (.path ["String"] []) [] {} rfl
    have hrun := error_bind_pure.mp hr
    rw [Program.compileField, hn, runOn_within_map rfl,
      if_pos (Bool.eq_true_of_not_eq_false hkey)] at hrun
    cases hrun
  · intro h segments value rest T hmap
    obtain ⟨n, hn⟩ := exists_levels (p := p) (.path segments (key :: value :: rest))
    refine ⟨T.stack.head?.getD (TypeExpr.path segments (key :: value :: rest)).text,
      error_bind_pure.mpr ?_⟩
    rw [Program.compileField, hn, runOn_within_map hmap, h]
    rfl

theorem refusesKey_congr {module' : List String} (h : isTextKey p (p.types.length + 1) t module =
    isTextKey p (p.types.length + 1) u module') :
    p.RefusesKey t module ↔ p.RefusesKey u module' := by
  rw [refusesKey_iff, refusesKey_iff, h]

theorem refusesKey_of_peel_eq (h : t.peel = u.peel) :
    p.RefusesKey t module ↔ p.RefusesKey u module :=
  refusesKey_congr (isTextKey_of_peel_eq h)

/-- A key that is not refused at one level of declarations is not refused at the next one. -/
theorem refusesKey_of_keyStep (ends : ∀ z, ReflTransGen p.KeyStep x z → ¬TransGen p.KeyStep z z)
    (h : p.KeyStep x y) : p.RefusesKey x.type x.module ↔ p.RefusesKey y.type y.module := by
  obtain ⟨d, hd, hy⟩ := keyStep_iff.mp h
  have hlt : ahead p TypeDecl.keyTarget? p.KeyStep y < ahead p TypeDecl.keyTarget? p.KeyStep x :=
    ahead_lt h (mem_types_of_keyDecl? hd) hy (ends y (.single h))
  have hle : ahead p TypeDecl.keyTarget? p.KeyStep x ≤ p.types.length := List.countP_le_length
  have hlevel := isTextKey_of_lt (fun z hz => ends z (.head h hz)) (Nat.lt_of_lt_of_le hlt hle)
  exact refusesKey_congr ((isTextKey_of_keyStep h).trans hlevel.symm)

/-- Where the arguments make no difference to the test. -/
theorem refusesKey_apply_iff (σ : Substitution) :
    (p.RefusesKey t module ↔ p.RefusesKey (σ.apply t) module) ↔
      ∀ name a, t.sole? = some name → σ.lookup name = some a →
        (p.RefusesKey (.path [name] []) module ↔ p.RefusesKey a module) := by
  have happly : p.RefusesKey (σ.apply t) module ↔
      p.RefusesKey ((t.sole?.bind (List.lookup · σ)).getD t) module :=
    refusesKey_congr (isTextKey_apply σ)
  rw [happly]
  cases hname : t.sole? with
  | none => simp
  | some name =>
    have hsole : p.RefusesKey t module ↔ p.RefusesKey (.path [name] []) module :=
      refusesKey_of_peel_eq (TypeExpr.peel_of_sole? hname)
    rw [Option.bind_some, hsole]
    constructor
    · rintro h _ a ⟨⟩ ha
      rwa [ha, Option.getD_some] at h
    · intro h
      cases ha : σ.lookup name with
      | none => exact hsole.symm
      | some a => exact h name a rfl ha

end Keys

/-- What the test of a map key makes of a use of a tuple struct of one field or of an alias. It does
not look into the declaration if the name is that of a wrapper or of a text. Otherwise the use is
refused if the field or the target is refused as it is written in the declaration. So it says the
same of the use and of what the use stands for, unless that is an argument and the test says
something else of it than of the name of the parameter. -/
theorem refusesKey_generic {p : Program} {segments module : List String} {args : List TypeExpr}
    {d : TypeDecl} {target : Occurrence} (found : p.findType ⟨segments, args⟩ module = some d)
    (htarget : d.keyTarget? = some target)
    (ends : ∀ z, ReflTransGen p.KeyStep ⟨.path segments args, module⟩ z → ¬TransGen p.KeyStep z z) :
    let key := TypeExpr.path segments args
    let σ := d.substitution (args.map (d.passed p module))
    (p.RefusesKey key module ↔ p.RefusesKey key.peel module) ∧
      (key.peel = key → TypePath.name ⟨segments, args⟩ ∈ texts → ¬p.RefusesKey key module) ∧
      (key.peel = key → TypePath.name ⟨segments, args⟩ ∉ texts →
        (p.RefusesKey key module ↔ p.RefusesKey target.type target.module) ∧
        ((p.RefusesKey key module ↔ p.RefusesKey (σ.apply target.type) target.module) ↔
          ∀ name a, target.type.sole? = some name → σ.lookup name = some a →
            (p.RefusesKey (.path [name] []) target.module ↔ p.RefusesKey a target.module))) := by
  intro key σ
  refine ⟨refusesKey_of_peel_eq (TypeExpr.peel_peel key).symm, fun hpeel htext h => ?_,
    fun hpeel htext => ?_⟩
  · rw [refusesKey_iff, isTextKey_of_mem_texts hpeel htext] at h
    cases h
  · have hstep : p.KeyStep ⟨key, module⟩ target := by
      refine keyStep_iff.mpr ⟨d, ?_, htarget⟩
      simp only [keyDecl?, hpeel]
      exact (if_neg (by simpa [texts] using htext)).trans found
    have hlevel := refusesKey_of_keyStep ends hstep
    exact ⟨hlevel, by rw [← refusesKey_apply_iff, hlevel]⟩

/-- A map key that is any type. -/
def keyed : Program where
  structs := [⟨[], [], "Key", ["T"], .unnamed [⟨[], true, none, .path ["T"] []⟩]⟩]

/-- A key of texts is tested as the type `T`, which is not declared, and not as a text. -/
theorem refusesKey_generic_keyed :
    keyed.RefusesKey (.path ["Key"] [.path ["String"] []]) [] ∧
      ¬keyed.RefusesKey (.path ["String"] []) [] := by
  have found : keyed.findType ⟨["Key"], [.path ["String"] []]⟩ [] =
      some (.struct ⟨[], [], "Key", ["T"], .unnamed [⟨[], true, none, .path ["T"] []⟩]⟩) := rfl
  have hend : exhausted keyed.keyNext 2 ⟨.path ["Key"] [.path ["String"] []], []⟩ = true := rfl
  obtain ⟨-, -, h⟩ := refusesKey_generic found rfl fun _ => not_transGen_of_reflTransGen hend
  obtain ⟨hfield, -⟩ := h rfl (by decide)
  exact ⟨hfield.mpr (refusesKey_iff.mpr rfl), fun h => by cases refusesKey_iff.mp h⟩

/-- A map with such keys fails, and a map with texts as keys does not. -/
theorem compileType_keyed :
    let map (key : TypeExpr) := TypeExpr.path ["HashMap"] [key, .path ["u32"] []]
    ((keyed.compileType (map (.path ["Key"] [.path ["String"] []])) []).runOn {}).1 =
        .error (.unsupportedMapKey "Key<String>" "HashMap<Key<String>, u32>") ∧
      (∃ f, ((TypeDecl.struct ⟨[], [], "Key", ["T"], .unnamed [f]⟩).substitution
        [.path ["String"] []]).apply f.type = .path ["String"] [] ∧
        keyed.structs = [⟨[], [], "Key", ["T"], .unnamed [f]⟩]) ∧
      ∃ s, ((keyed.compileType (map (.path ["String"] [])) []).runOn {}).1 = .ok s := by
  exact ⟨rfl, ⟨_, rfl, rfl⟩, _, rfl⟩

end ServiceContract
