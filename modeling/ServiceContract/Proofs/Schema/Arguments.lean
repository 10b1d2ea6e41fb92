import ServiceContract.Proofs.Schema.Components
import ServiceContract.Proofs.Schema.Meaning
import ServiceContract.Proofs.Schema.Replay

/-! # What the arguments of a generic type mean

The fields of a generic declaration are described in the module of the declaration, its arguments
among them. So an argument that is written in another module has to find its declarations from
there. It does if no other declaration of the same name is preferred; then it contributes what it
means where it is written. An alias hands its arguments on as they are written.
-/

namespace ServiceContract

open Source TypeCompiler SchemaTable

theorem Program.fullPath_eq {p : Program} {path : TypePath} {module : List String} {d : TypeDecl}
    (h : p.findType path module = some d) (hprimitive : Schema.ofPrimitive? path.name = none) :
    p.fullPath path module = "crate" :: d.module ++ [d.name] := by
  simp only [fullPath, h, hprimitive, Option.isNone_none, if_true]

/-- The full path of a declared type finds it from everywhere, if no other type of that name is in
a module whose path ends in the same way. -/
theorem Program.findType_fullPath {p : Program} {path : TypePath} {module : List String}
    {d : TypeDecl} (h : p.findType path module = some d)
    (hprimitive : Schema.ofPrimitive? path.name = none) (hroots : ∀ s ∈ d.module, s ∉ pathRoots)
    (only : ∀ e ∈ p.types, e.name = d.name → d.module <:+ e.module → e = d)
    (args : List TypeExpr) (other : List String) :
    p.findType ⟨p.fullPath path module, args⟩ other = some d := by
  have hfull := fullPath_eq h hprimitive
  have hname : TypePath.name ⟨p.fullPath path module, args⟩ = d.name := by
    rw [hfull, TypePath.name, List.getLast?_append]
    rfl
  have hqualifier : TypePath.qualifier ⟨p.fullPath path module, args⟩ = d.module := by
    rw [hfull, TypePath.qualifier, List.dropLast_concat, List.filter_cons_of_neg (by decide)]
    exact List.filter_eq_self.mpr fun s hs => by simpa using hroots s hs
  refine pickClosest_eq_some (List.mem_filter.mpr ⟨mem_types_of_findType h, ?_⟩) fun e he => ?_
  · rw [hname, hqualifier, moduleMatches_iff.mpr (List.suffix_refl _), beq_self_eq_true,
      Bool.and_self]
  · obtain ⟨he, hmatch⟩ := List.mem_filter.mp he
    rw [hname, hqualifier, Bool.and_eq_true, beq_iff_eq, moduleMatches_iff] at hmatch
    exact only e he hmatch.1 hmatch.2

/-- A declared type without such a rival means the same everywhere, written with its full path. -/
theorem meansSame_canonical {p : Program} {s m : List String} {d : TypeDecl}
    (h : p.findType ⟨s, []⟩ m = some d)
    (hprimitive : Schema.ofPrimitive? (TypePath.name ⟨s, []⟩) = none)
    (hroots : ∀ s ∈ d.module, s ∉ pathRoots)
    (only : ∀ e ∈ p.types, e.name = d.name → d.module <:+ e.module → e = d) (m' : List String) :
    MeansSame p m m' (.path s []) (p.canonical m (.path s [])) := by
  have found := Program.findType_fullPath h hprimitive hroots only [] m'
  refine .path (h.trans found.symm) ?_ rfl (fun a a' ha => by cases ha) (fun a _ => .same)
    fun hd => by cases h.symm.trans hd
  have hname := (Program.name_of_findType h).symm.trans (Program.name_of_findType found)
  exact (Program.fullPath_eq h hprimitive).trans
    (Program.fullPath_eq found (hname ▸ hprimitive)).symm

/-- What a use of a declaration in a module hands on for an argument: the full form, or what is
written if the declaration is an alias. -/
def TypeDecl.passed (p : Program) (d : TypeDecl) (m : List String) (a : TypeExpr) : TypeExpr :=
  match d with
  | .struct _ | .enum _ => p.canonical m a
  | .typeAlias _ => a

/-- A use of a declaration with what it hands on for its arguments: a component, or the target of
the alias. -/
def TypeCompiler.useOf (p : Program) (inner : TypeCompiler) (d : TypeDecl)
    (handed : List TypeExpr) : Compile Schema :=
  match d with
  | .struct _ | .enum _ => componentOf p d handed (expansionOf p inner d handed)
  | .typeAlias _ => expansionOf p inner d handed

section Use

variable {p : Program} {Q : TypeExpr → Prop} {d e : TypeDecl} {args as : List TypeExpr}
  {m : List String} {name : String} {a t : TypeExpr} {T T' : SchemaTable}

theorem canonicalAll_eq_map : p.canonicalAll m args = args.map (p.canonical m) := by
  induction args with
  | nil => rfl
  | cons a as ih => rw [Program.canonicalAll, ih, List.map_cons]

/-- A use is described with what it hands on for its arguments. -/
theorem declaredOf_eq (inner : TypeCompiler) :
    inner.declaredOf p d args m = useOf p inner d (args.map (d.passed p m)) := by
  cases d with
  | struct d | enum d =>
    rw [declaredOf, canonicalAll_eq_map]
    rfl
  | typeAlias a =>
    show _ = expansionOf p inner (.typeAlias a) (args.map id)
    rw [List.map_id]
    rfl

/-- A parameter stands for what is handed on for its argument. -/
theorem lookup_passed (ha : (d.substitution args).lookup name = some a) :
    (d.substitution (args.map (d.passed p m))).apply (.path [name] []) = d.passed p m a := by
  have hmap : d.substitution (args.map (d.passed p m)) =
      (d.substitution args).map fun e => (e.1, d.passed p m e.2) := by
    simp only [TypeDecl.substitution, Substitution.ofArgs, List.zip_map_right, List.map_reverse]
    rfl
  rw [Substitution.apply, hmap, lookup_map, ha]
  rfl

/-- A use of a declared struct or enum is a reference to its component. -/
theorem TypeCompiler.Uses.reference {n : Nat} {f : FieldType}
    (use : Uses p Q (Layers.ofType t).type m e as) (hr : (within p n t m).runOn T = (.ok f, T')) :
    ∃ c, T'.definition? (e.key as) = some c ∧ f.schema = .ref c.name := by
  cases n with
  | zero => cases hr
  | succ n =>
    obtain ⟨s, T₁, hr₁, hr₂⟩ := Work.runOn_bind_eq_ok.mp hr
    cases hr₂
    rw [use.shapeOf_eq] at hr₁
    have rules := workRules_replays (typeRules_true p)
    have replays : Replays (expansionOf p (within p n) e as) :=
      rules.expansionOf (fun _ module ht => rules.within n module ht) fun _ _ => trivial
    exact replays.known_of_componentOf hr₁

/-- What an argument contributes to a use of a generic declaration. The use is described in the
module of the declaration, where the parameter stands for what is handed on. If that means there
what the argument means where it is written, then each occurrence of the parameter has the schema of
the argument at all depths, is a key where the argument is one, and is handed on as the argument
would be. A declared argument contributes its component exactly if what is handed on is a use with
the same key. -/
theorem passed_meaning (ha : (d.substitution args).lookup name = some a) :
    let handed := args.map (d.passed p m)
    let given := (d.substitution handed).apply (.path [name] [])
    (∀ inner : TypeCompiler, inner.declaredOf p d args m = useOf p inner d handed) ∧
      given = d.passed p m a ∧
      (MeansSame p m d.module a given →
        (∀ n, Work.Alike (within p n given d.module) (within p n a m)) ∧
        (∀ n, isTextKey p n given d.module = isTextKey p n a m) ∧
        p.canonical d.module given = p.canonical m a) ∧
      ∀ calls e e' as as' n n' f f' T T', Uses p Q (Layers.ofType a).type m e as →
        Uses p Q (Layers.ofType given).type d.module e' as' →
        (within p n a m).runOn (after p {} calls) = (.ok f, T) →
        (within p n' given d.module).runOn T = (.ok f', T') →
        (f.schema = f'.schema ↔ e.key as = e'.key as') := by
  refine ⟨declaredOf_eq, lookup_passed ha, fun h => ?_,
    fun calls e e' as as' n n' f f' T T' use use' hr hr' => ?_⟩
  · refine ⟨fun n => ?_, fun n => (h.isTextKey_eq n).symm, h.canonical_eq.symm⟩
    exact (within_alike h n).symm
  · have rules := workRules_replays (typeRules_true p)
    have hg : Grows (after p {} calls) T := (rules.within n m trivial).grows_of_runOn hr
    have hg' : Grows T T' := (rules.within n' d.module trivial).grows_of_runOn hr'
    have hT' : T'.Inverse := hg'.inverse (hg.inverse (inverse_of_after calls))
    obtain ⟨c, hc, hs⟩ := use.reference hr
    obtain ⟨c', hc', hs'⟩ := use'.reference hr'
    -- Both components are in the last table, where names and keys belong together.
    have hc : T'.definition? (e.key as) = some c := hg'.kept hc
    rw [hs, hs']
    constructor
    · intro h
      have hname : some _ = some _ := congrArg Schema.reference h
      rw [Option.some_inj, String.append_right_inj] at hname
      exact hT'.key_unique hc hc' hname
    · intro h
      rw [h, hc'] at hc
      rw [Option.some.inj hc]

end Use

/-- A user with one field. -/
def userIn (module : List String) (field type : String) : Declared StructItem :=
  ⟨module, [], "User", [], .named [⟨[], true, some field, .path [type] []⟩]⟩

/-- A page of items of any type. -/
def page : Declared StructItem :=
  ⟨["d"], [], "Page", ["T"], .named [⟨[], true, some "items", .path ["Vec"] [.path ["T"] []]⟩]⟩

/-- Users in three modules, the last of which also has pages and lists. -/
def homonyms : Program where
  structs := [userIn [] "id" "u64", userIn ["a"] "age" "u8", userIn ["d"] "name" "String", page]
  aliases := [⟨["d"], [], "List", ["T"], .path ["Vec"] [.path ["T"] []]⟩]

/-- A page of users of `a` has those users. A page of users of the root module has other ones, since
the full path of a type in the root module does not say where it is. -/
theorem passed_meaning_homonyms :
    (∀ n, Work.Alike (within homonyms n (.path ["crate", "a", "User"] []) ["d"])
        (within homonyms n (.path ["User"] []) ["a"])) ∧
      ∀ calls n n' f f' T T', (within homonyms n (.path ["User"] []) []).runOn
          (after homonyms {} calls) = (.ok f, T) →
        (within homonyms n' (.path ["crate", "User"] []) ["d"]).runOn T = (.ok f', T') →
        f.schema ≠ f'.schema := by
  have ha : ((TypeDecl.struct page).substitution [.path ["User"] []]).lookup "T" =
      some (.path ["User"] []) := rfl
  have found : homonyms.findType ⟨["User"], []⟩ ["a"] =
      some (.struct (userIn ["a"] "age" "u8")) := rfl
  have only : ∀ e ∈ homonyms.types, e.name = "User" → ["a"] <:+ e.module →
      e = .struct (userIn ["a"] "age" "u8") := by
    have hsuffix : ¬["a"] <:+ ["d"] := by decide
    simp [homonyms, userIn, page, Program.types, TypeDecl.module, TypeDecl.name, hsuffix]
  refine ⟨?_, fun calls n n' f f' T T' hr hr' h => ?_⟩
  · obtain ⟨-, -, same, -⟩ := passed_meaning (p := homonyms) (m := ["a"]) (Q := fun _ => True) ha
    exact (same (meansSame_canonical found rfl (by decide) only ["d"])).1
  · have use : Uses homonyms (fun _ => True) (.path ["User"] []) []
        (.struct (userIn [] "id" "u64")) [] := ⟨⟨⟨["User"], []⟩, rfl⟩, by simp, fun _ => rfl⟩
    have use' : Uses homonyms (fun _ => True) (.path ["crate", "User"] []) ["d"]
        (.struct (userIn ["d"] "name" "String")) [] :=
      ⟨⟨⟨["crate", "User"], []⟩, rfl⟩, by simp, fun _ => rfl⟩
    obtain ⟨-, -, -, declared⟩ :=
      passed_meaning (p := homonyms) (m := []) (Q := fun _ => True) ha
    have hkey := (declared calls _ _ _ _ n n' f f' T T' use use' hr hr').mp h
    revert hkey
    decide

/-- In a page of users of the root module, the users are those of the module of pages; compiled on
their own, they are a component of another name. A list of them has the wrong users, too. -/
theorem compileType_homonyms :
    let user := TypeExpr.path ["User"] []
    let r := (homonyms.compileType (.path ["Page"] [user]) []).runOn {}
    r.2.names = [("PageUser", "d::Page<crate::User>"), ("User", "d::User")] ∧
      ((homonyms.compileType user []).runOn r.2).1 = .ok (.ref "User2") ∧
      ((homonyms.compileType user []).runOn r.2).2.names.lookup "User2" = some "User" ∧
      ((homonyms.compileType (.path ["List"] [user]) []).runOn {}).2.names =
        [("User", "d::User")] := by
  exact ⟨rfl, rfl, rfl, rfl⟩

end ServiceContract
