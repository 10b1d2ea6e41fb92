import ServiceContract.Proofs.Source.TypeText
import ServiceContract.StatusError.CallGraph

/-! # Keys of functions

The key of a function is the text of its place: module, type and name. With plain names the text
tells the place, so functions get the same key exactly if they stand in the same place, and only
methods can: those of different blocks of one module that name their types alike, and a method and
a free function of a module that is named as the type is.
-/

namespace ServiceContract

open Source

/-- The module of a function, its type as it is written, and its name. -/
def FnDecl.place (f : FnDecl) : List String := f.module ++ f.selfType.toList ++ [f.name]

namespace Program

variable {ds : List (Declared Item)} {types : List TypeDecl} {d : Declared Item} {f g : FnDecl}

theorem place_eq_iff : f.place = g.place ↔
    f.module ++ f.selfType.toList = g.module ++ g.selfType.toList ∧ f.name = g.name := by
  rw [FnDecl.place, FnDecl.place]
  constructor
  · intro h
    obtain ⟨h, hname⟩ := List.append_inj' h rfl
    exact ⟨h, List.singleton_inj.mp hname⟩
  · rintro ⟨h, hname⟩
    rw [h, hname]

theorem key_of_mem_fnsOf (h : f ∈ fnsOf types d) : f.key = Text.join "::" f.place := by
  unfold fnsOf at h
  split at h
  · next module item =>
    obtain rfl := List.mem_singleton.mp h
    rw [FnDecl.place, Option.toList_none, List.append_nil]
    exact qualify_eq_join module item.name
  · next module target members =>
    split at h
    · cases h
    · next path _ =>
      obtain ⟨m, -, hm⟩ := List.mem_filterMap.mp h
      cases m with
      | const _ => cases hm
      | fn item =>
        cases hm
        calc qualify module path.name ++ "::" ++ item.name
            = qualify (module ++ [path.name]) item.name := by
              rw [qualify_eq_join]
              simp [qualify]
          _ = Text.join "::" (module ++ [path.name] ++ [item.name]) := qualify_eq_join ..
  · cases h

theorem mem_fns_ofDeclared : f ∈ (ofDeclared ds).fns ↔
    ∃ d ∈ ds, f ∈ fnsOf (ofDeclared ds).types d :=
  List.mem_flatMap

/-- No module has two free functions of one name, and no block two methods. -/
structure NoRedefinition (ds : List (Declared Item)) : Prop where
  free : ((ofDeclared ds).fns.filter fun f => f.selfType.isNone).Pairwise fun f g =>
    f.module = g.module → f.name ≠ g.name
  block : ∀ d ∈ ds, ((fnsOf (ofDeclared ds).types d).map FnDecl.name).Nodup

/-- No method stands in the place of another function: blocks of one module whose types are named
alike have no method in common, nor has the module of that name a free function like it. -/
structure MethodsApart (ds : List (Declared Item)) : Prop where
  blocks : ds.Pairwise fun a b => ∀ f ∈ fnsOf (ofDeclared ds).types a,
    ∀ g ∈ fnsOf (ofDeclared ds).types b, f.selfType.isSome → f.selfType = g.selfType →
      f.module = g.module → f.name ≠ g.name
  modules : ∀ f ∈ (ofDeclared ds).fns, ∀ g ∈ (ofDeclared ds).fns, ∀ type,
    f.selfType = some type → g.selfType = none → g.module = f.module ++ [type] → f.name ≠ g.name

variable (hplain : ∀ f ∈ (ofDeclared ds).fns, ∀ s ∈ f.place, isPlainName s = true)

include hplain in
/-- The key tells the place. -/
theorem key_eq_iff (hf : f ∈ (ofDeclared ds).fns) (hg : g ∈ (ofDeclared ds).fns) :
    f.key = g.key ↔ f.place = g.place := by
  have hkey : ∀ f ∈ (ofDeclared ds).fns,
      f.key = (TypeExpr.path f.place []).text ∧ (TypeExpr.path f.place []).isPlain = true := by
    intro f hf
    obtain ⟨d, -, hd⟩ := mem_fns_ofDeclared.mp hf
    refine ⟨by rw [key_of_mem_fnsOf hd, TypeExpr.text],
      TypeExpr.isPlain_path.mpr ⟨?_, hplain f hf, ?_⟩⟩
    · simp [FnDecl.place]
    · simp
  constructor
  · intro h
    rw [(hkey f hf).1, (hkey g hg).1] at h
    exact (TypeExpr.path.inj (TypeExpr.text_inj (hkey f hf).2 (hkey g hg).2 h)).1
  · intro h
    rw [(hkey f hf).1, (hkey g hg).1, h]

/-- Where nothing is declared twice, functions stand in different places exactly if no method
stands in the place of another function. -/
theorem NoRedefinition.pairwise_place_iff (h : NoRedefinition ds) :
    ((ofDeclared ds).fns.Pairwise fun f g => f.place ≠ g.place) ↔ MethodsApart ds := by
  constructor
  · intro hp
    refine ⟨(List.pairwise_flatMap.mp hp).2.imp fun {a b} hab f hf g hg _ htype hmodule hname => ?_,
      fun f hf g hg type htype hnone hmodule hname => ?_⟩
    · exact hab f hf g hg (place_eq_iff.mpr ⟨by rw [htype, hmodule], hname⟩)
    · have hplace : f.place = g.place := place_eq_iff.mpr ⟨by simp [htype, hnone, hmodule], hname⟩
      obtain rfl := List.inj_on_of_nodup_map (List.pairwise_map.mpr hp) hf hg hplace
      simp [htype] at hnone
  · rintro ⟨hblocks, hmodules⟩
    have hfree := (List.pairwise_flatMap.mp (List.pairwise_filter.mp h.free)).2
    refine List.pairwise_flatMap.mpr ⟨fun d hd => ?_, ?_⟩
    · exact (List.pairwise_map.mp (h.block d hd)).imp fun hne hplace =>
        hne (place_eq_iff.mp hplace).2
    · refine ((hfree.and hblocks).imp_of_mem fun {a b} ha hb hab f hf g hg hplace => ?_)
      have hf' := mem_fns_ofDeclared.mpr ⟨a, ha, hf⟩
      have hg' := mem_fns_ofDeclared.mpr ⟨b, hb, hg⟩
      obtain ⟨hwhere, hname⟩ := place_eq_iff.mp hplace
      cases hft : f.selfType with
      | none =>
        cases hgt : g.selfType with
        | none =>
          rw [hft, hgt] at hwhere
          exact hab.1 f hf g hg (by simp [hft]) (by simp [hgt]) (by simpa using hwhere) hname
        | some type =>
          rw [hft, hgt] at hwhere
          exact hmodules g hg' f hf' type hgt hft (by simpa using hwhere) hname.symm
      | some type =>
        cases hgt : g.selfType with
        | none =>
          rw [hft, hgt] at hwhere
          exact hmodules f hf' g hg' type hft hgt (by simpa using hwhere.symm) hname
        | some type' =>
          rw [hft, hgt] at hwhere
          obtain ⟨hmodule, htype⟩ := List.append_inj' hwhere rfl
          obtain rfl := List.singleton_inj.mp htype
          exact hab.2 f hf g hg (by simp [hft]) (hft.trans hgt.symm) hmodule hname

include hplain in
/-- In legal sources with plain names functions have different keys exactly if no method stands in
the place of another function. Then each function is the one that its key finds, and no other
function has the key. -/
theorem keys_nodup_iff (h : NoRedefinition ds) :
    (((ofDeclared ds).fns.map FnDecl.key).Nodup ↔ MethodsApart ds) ∧
    (MethodsApart ds → ∀ f ∈ (ofDeclared ds).fns, (ofDeclared ds).function f.key = some f ∧
      ∀ g ∈ (ofDeclared ds).fns, g.key = f.key → g = f) := by
  have hiff : ((ofDeclared ds).fns.map FnDecl.key).Nodup ↔ MethodsApart ds := by
    rw [List.Nodup, List.pairwise_map, ← h.pairwise_place_iff]
    exact ⟨fun hp => hp.imp_of_mem fun hf hg hne hplace =>
        hne ((key_eq_iff hplain hf hg).mpr hplace),
      fun hp => hp.imp_of_mem fun hf hg hne hkey => hne ((key_eq_iff hplain hf hg).mp hkey)⟩
  refine ⟨hiff, fun hapart f hf => ?_⟩
  have hinj : ∀ g ∈ (ofDeclared ds).fns, g.key = f.key → g = f := fun g hg hkey =>
    List.inj_on_of_nodup_map (hiff.mpr hapart) hg hf hkey
  refine ⟨?_, hinj⟩
  obtain ⟨g, hg⟩ : ∃ g, (ofDeclared ds).function f.key = some g :=
    Option.isSome_iff_exists.mp (List.find?_isSome.mpr ⟨f, hf, beq_self_eq_true _⟩)
  rw [hg, hinj g (List.mem_of_find?_eq_some hg) (by simpa using List.find?_some hg)]

section Programs

/-- A block of one method that raises an error. -/
def raisingBlock (path : List String) (method error : String) : Declared Item :=
  ⟨[], .impl (.path path [])
    [.fn ⟨[], method, [], none,
      [.expr [] (.path { segments := ["UserErr", error] } []) true], []⟩]⟩

/-- Types of one name in two modules, a method for each of them in the root module, and a function
that calls both. -/
def homonymBlocks (first second : String) : List (Declared Item) :=
  [⟨["a"], .struct ⟨[], "S", [], .unit⟩⟩,
   ⟨["b"], .struct ⟨[], "S", [], .unit⟩⟩,
   ⟨[], .enum
    { attrs := [⟨{ segments := ["status_error"] }, .word⟩], name := "UserErr", typeParams := []
      variants :=
        [⟨[], "NotFound", .unit, some (.lit (.int false 404000001))⟩,
         ⟨[], "Forbidden", .unit, some (.lit (.int false 403000001))⟩] }⟩,
   raisingBlock ["a", "S"] first "NotFound",
   raisingBlock ["b", "S"] second "Forbidden",
   ⟨[], .fn ⟨[], "both", [], none, [["a", "S", first], ["b", "S", second]].map fun callee =>
    .expr [] (.call (.path { segments := callee } []) []) true, []⟩⟩]

/-- The errors that the function under a key can raise. -/
def errorsUnder (p : Program) (key : String) : List String :=
  match p.function key with
  | some f => (((ErrorSearch.ofProgram p).reachable f).run []).1.map StatusError.key
  | none => []

theorem noRedefinition_homonymBlocks (first second : String) :
    NoRedefinition (homonymBlocks first second) where
  free := List.pairwise_singleton _ _
  block := by
    simp only [homonymBlocks, List.forall_mem_cons]
    exact ⟨List.nodup_nil, List.nodup_nil, List.nodup_nil, List.nodup_singleton _,
      List.nodup_singleton _, List.nodup_singleton _, by simp⟩

/-- Methods of different names have different keys. -/
theorem keys_nodup_iff_differing :
    let ds := homonymBlocks "go" "come"
    (∀ f ∈ (ofDeclared ds).fns, ∀ s ∈ f.place, isPlainName s = true) ∧ NoRedefinition ds ∧
    MethodsApart ds ∧ ((ofDeclared ds).fns.map FnDecl.key).Nodup ∧
    ∀ f ∈ (ofDeclared ds).fns, (ofDeclared ds).function f.key = some f := by
  intro ds
  have hplain : ∀ f ∈ (ofDeclared ds).fns, ∀ s ∈ f.place, isPlainName s = true := by decide +kernel
  have hlegal := noRedefinition_homonymBlocks "go" "come"
  obtain ⟨hiff, hfound⟩ := keys_nodup_iff hplain hlegal
  have hn : ((ofDeclared ds).fns.map FnDecl.key).Nodup := by decide +kernel
  have hapart := hiff.mp hn
  exact ⟨hplain, hlegal, hapart, hn, fun f hf => (hfound hapart f hf).1⟩

/-- Methods of one name have the same key. It finds the first of them, and the error of the second
one is lost. -/
theorem errors_lost_of_equal_keys :
    let p := ofDeclared (homonymBlocks "go" "go")
    NoRedefinition (homonymBlocks "go" "go") ∧
    p.fns.map FnDecl.key = ["S::go", "S::go", "both"] ∧
    p.fns.map FnDecl.owner = [some "a::S", some "b::S", none] ∧
    (p.function "S::go").bind FnDecl.owner = some "a::S" ∧
    errorsUnder p "both" = ["NotFound"] ∧
    errorsUnder (ofDeclared (homonymBlocks "go" "come")) "both" = ["NotFound", "Forbidden"] := by
  refine ⟨noRedefinition_homonymBlocks "go" "go", ?_, ?_, ?_, ?_, ?_⟩ <;> decide +kernel

end Programs

end Program

end ServiceContract
