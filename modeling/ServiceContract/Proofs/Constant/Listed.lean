import ServiceContract.Proofs.Constant.Associated
import ServiceContract.Proofs.Schema.Enumerated
import ServiceContract.Proofs.Schema.Expansions

/-! # Constants in components

A component lists the variants of its own enum, or else the constants that are found by the name of
its type. These are looked for in the whole program by the last segment of their type, so the
constants of all types of one name stand in the component of each of them.
-/

namespace ServiceContract

open Source TypeCompiler SchemaTable

namespace OwnedConst

variable {ds : List (Declared Item)} {c : OwnedConst} {type : String} {e : TypeDecl}

/-- The declared type that the type of a constant means where it is written; `Self` is the type of
the block. -/
def means? (types : List TypeDecl) (c : OwnedConst) : Option TypeDecl :=
  c.decl.item.type.asPath?.bind fun path =>
    if path.name = "Self" then c.owner else resolveType types path c.decl.module

/-- The type of the constant is written with a name, or it is `Self` in a block of a type that is
written with the name. -/
def isNamed (type : String) (c : OwnedConst) : Bool :=
  match c.decl.item.type.name? with
  | some "Self" => c.decl.selfType == some type
  | some name => name == type
  | none => false

theorem mem_of_means? (hc : c ∈ Program.ownedConsts ds)
    (h : c.means? (Program.ofDeclared ds).types = some e) : e ∈ (Program.ofDeclared ds).types := by
  have hmem {path : TypePath} {module : List String}
      (hr : resolveType (Program.ofDeclared ds).types path module = some e) :
      e ∈ (Program.ofDeclared ds).types := (List.mem_filter.mp (mem_of_pickClosest hr)).1
  obtain ⟨path, -, hmeans⟩ := Option.bind_eq_some_iff.mp h
  split at hmeans
  · obtain ⟨_, howner, -⟩ := Program.resolveType_of_owner hc hmeans
    exact hmem howner
  · exact hmem hmeans

/-- A constant of a declared type is written with the name of this type. -/
theorem isNamed_iff (hc : c ∈ Program.ownedConsts ds)
    (h : c.means? (Program.ofDeclared ds).types = some e) :
    c.isNamed type = true ↔ e.name = type := by
  obtain ⟨path, hpath, hmeans⟩ := Option.bind_eq_some_iff.mp h
  have hname : c.decl.item.type.name? = some path.name := by
    cases ht : c.decl.item.type <;> rw [ht] at hpath <;> cases hpath
    rfl
  unfold isNamed
  rw [hname]
  split at hmeans
  · next hself =>
    rw [hself]
    simp [Program.selfType_of_owner hc hmeans]
  · next hself =>
    rw [Program.name_of_resolveType hmeans]
    split
    · next heq => exact absurd (Option.some.inj heq) hself
    · next heq =>
      cases heq
      exact beq_iff_eq
    · next heq => cases heq

end OwnedConst

namespace Program

variable {ds : List (Declared Item)} {c : OwnedConst} {type : String} {members : List EnumMember}

/-- The constants whose type is written with a name and that fold to a number or a text. -/
def listed (ds : List (Declared Item)) (type : String) : List OwnedConst :=
  (ownedConsts ds).filter fun c =>
    c.isNamed type && (EnumMember.ofConst (ofDeclared ds) type c.decl).isSome

theorem constsOfType_eq : (ofDeclared ds).constsOfType type =
    ((ownedConsts ds).filter (OwnedConst.isNamed type)).map OwnedConst.decl := by
  rw [constsOfType, ← map_decl_ownedConsts, List.filter_map]
  rfl

/-- The constants of a type are those that are listed, if one of them has a label. -/
theorem ofConstants_iff : EnumMember.ofConstants (ofDeclared ds) type = some members ↔
    (listed ds type).filterMap (fun c => EnumMember.ofConst (ofDeclared ds) type c.decl) =
      members ∧ members.any (·.label.isSome) = true := by
  have hfold : (fun c : OwnedConst =>
      if (c.isNamed type && (EnumMember.ofConst (ofDeclared ds) type c.decl).isSome) = true then
        EnumMember.ofConst (ofDeclared ds) type c.decl else none) =
      fun c => if c.isNamed type = true then EnumMember.ofConst (ofDeclared ds) type c.decl
        else none := by
    funext c
    cases c.isNamed type <;> cases EnumMember.ofConst (ofDeclared ds) type c.decl <;> rfl
  rw [EnumMember.ofConstants_eq_some, constsOfType_eq, List.filterMap_map, listed,
    List.filterMap_filter, List.filterMap_filter, hfold]
  rfl

variable {d : TypeDecl}

/-- All constants of a declaration that fold are listed under its name. -/
theorem mem_listed (hc : c ∈ ownedConsts ds) (h : c.means? (ofDeclared ds).types = some d)
    (hfold : (EnumMember.ofConst (ofDeclared ds) d.name c.decl).isSome) :
    c ∈ listed ds d.name :=
  List.mem_filter.mpr ⟨hc, Bool.and_eq_true_iff.mpr ⟨(OwnedConst.isNamed_iff hc h).mpr rfl, hfold⟩⟩

/-- A constant that is listed under a name is one of this name, if it is one of a declaration. -/
theorem name_of_listed (hc : c ∈ listed ds type) (h : c.means? (ofDeclared ds).types = some d) :
    d.name = type := by
  obtain ⟨hc, hnamed⟩ := List.mem_filter.mp hc
  exact (OwnedConst.isNamed_iff hc h).mp (Bool.and_eq_true_iff.mp hnamed).1

end Program

namespace SchemaTable

variable {ds : List (Declared Item)} {key : String} {c : Definition} {s : Schema}

/-- A component is that of a declaration. It lists the variants of its own enum, if all of them are
unit variants. Else it lists nothing, or the constants of the program whose type is written with its
name. All constants of the declaration are among these. Of the others, each is one of another
declaration of the same name, or of no declaration; so if there is no other one of the name, then
all constants of declared types that the component lists are its own. -/
theorem constants_listed (ds : List (Declared Item)) (calls : List SchemaCall)
    (hc : (after (Program.ofDeclared ds) {} calls).definition? key = some c)
    (hs : c.schema = some s) (hkey : ∀ name, key ≠ builtinKey name) :
    let p := Program.ofDeclared ds
    ∃ d args, d ∈ p.types ∧ d.key args = key ∧
      (∀ members, d.variants? p = some members →
        s.values = some (EnumMember.values members) ∧
          s.labels? = if members.any (·.label.isSome) then some (EnumMember.labels members)
            else none) ∧
      (d.variants? p = none → s.Unlisted ∨
        s.Shows ((Program.listed ds d.name).filterMap fun c =>
          EnumMember.ofConst p d.name c.decl)) ∧
      (∀ c ∈ Program.ownedConsts ds, c.means? p.types = some d →
        (EnumMember.ofConst p d.name c.decl).isSome → c ∈ Program.listed ds d.name) ∧
      (∀ c ∈ Program.listed ds d.name, ∀ e, c.means? p.types = some e → e.name = d.name) ∧
      ((∀ e ∈ p.types, e.name = d.name → e = d) → ∀ c ∈ Program.listed ds d.name,
        c.means? p.types = some d ∨ c.means? p.types = none) := by
  intro p
  obtain ⟨d, args, n, s₀, ⟨path, module, hd⟩, -, hdkey, hs₀, hr⟩ :=
    allExpanded_after p calls key c hc (by simp [hs]) hkey
  obtain rfl : s = described p d s₀ := Option.some.inj (hs.symm.trans hs₀)
  obtain ⟨hvariants, hunlisted⟩ :=
    ((lists_expansionOf (describesInPlace_within p n) d args).ok hr).2
  refine ⟨d, args, Program.mem_types_of_findType hd, hdkey, fun members hm => ?_, fun hm => ?_,
    fun c hc he hfold => Program.mem_listed hc he hfold,
    fun c hc e he => Program.name_of_listed hc he, fun honly c hc => ?_⟩
  · have hs := hvariants members hm
    obtain ⟨hvalues, hlabels⟩ := described_enumerate (p := p) (d := d) hs
    refine ⟨hvalues, hlabels.trans ?_⟩
    rw [hs]
    split
    · next hany => exact Schema.labels?_enumerate hany
    · next hany => rw [Schema.enumerate_of_no_label (by simpa using hany)]; rfl
  · refine (described_unlisted (hunlisted hm)).imp_right ?_
    rintro ⟨members, hconst, hshows⟩
    exact (Program.ofConstants_iff.mp hconst).1 ▸ hshows
  · cases he : c.means? p.types with
    | none => exact .inr rfl
    | some e =>
      have hmem := OwnedConst.mem_of_means? (List.mem_of_mem_filter hc) he
      exact .inl (congrArg some (honly e hmem (Program.name_of_listed hc he)))

section Programs

/-- A newtype over a number, with a labelled constant. -/
def graded (module label name : String) (value : Nat) : List (Declared Item) :=
  [⟨[module], .struct ⟨[], "Level", [], .unnamed [⟨[], true, none, .path ["u8"] []⟩]⟩⟩,
   ⟨[module], .const ⟨[⟨{ segments := ["doc"] }, .value (.lit (.str label))⟩], name,
    .path ["Level"] [], .call (.path { segments := ["Level"] } []) [.lit (.int false value)]⟩⟩]

/-- Newtypes of one name in two modules. -/
def gradings : List (Declared Item) := graded "a" "low" "LOW" 1 ++ graded "b" "high" "HIGH" 9

/-- The newtype of a module. -/
def levelIn (module : String) : TypeDecl :=
  .struct ⟨[module], [], "Level", [], .unnamed [⟨[], true, none, .path ["u8"] []⟩]⟩

/-- In a program with one such newtype its component lists its own constant. -/
theorem constants_listed_low :
    let ds := graded "a" "low" "LOW" 1
    let t := after (Program.ofDeclared ds) {} [.type (.path ["Level"] []) ["a"]]
    ∃ s, t.definition? "a::Level" = some ⟨"Level", some s⟩ ∧ s.values = some [.ofInt 1] ∧
      ∃ d args, d ∈ (Program.ofDeclared ds).types ∧ d.key args = "a::Level" ∧
        ((∀ e ∈ (Program.ofDeclared ds).types, e.name = d.name → e = d) →
          ∀ c ∈ Program.listed ds d.name, c.means? (Program.ofDeclared ds).types = some d ∨
            c.means? (Program.ofDeclared ds).types = none) := by
  intro ds t
  refine ⟨_, rfl, eq_of_beq (by decide +kernel), ?_⟩
  have hc : t.definition? "a::Level" = some ⟨"Level", some _⟩ := rfl
  obtain ⟨d, args, hd, hkey, -, -, -, -, honly⟩ :=
    constants_listed ds _ hc rfl (ne_builtinKey (by decide))
  exact ⟨d, args, hd, hkey, honly⟩

/-- The members that the constants of both make. -/
def gradedMembers : List EnumMember :=
  [⟨"LOW", .ofInt 1, .int 1, some "low"⟩, ⟨"HIGH", .ofInt 9, .int 9, some "high"⟩]

/-- With a namesake in another module, the component lists the constants of both. -/
theorem constants_of_namesake :
    let p := Program.ofDeclared gradings
    let r := (p.compileType (.path ["Level"] []) ["a"]).runOn {}
    r.1 = .ok (.ref "Level") ∧
      (∃ s, r.2.definition? "a::Level" = some ⟨"Level", some s⟩ ∧
        s.values = some [.ofInt 1, .ofInt 9] ∧
        s.labels? = some (.arr [.str "low", .str "high"])) ∧
      ∃ c ∈ Program.ownedConsts gradings, c.decl.name = "HIGH" ∧
        c.means? p.types = some (levelIn "b") ∧
        EnumMember.ofConst p "Level" c.decl = some ⟨"HIGH", .ofInt 9, .int 9, some "high"⟩ := by
  intro p r
  have hconst : EnumMember.ofConstants p (levelIn "a").name = some gradedMembers := by rfl
  have hplain : (Schema.integer "int32").Plain := ⟨⟨rfl, rfl, rfl⟩, rfl⟩
  obtain ⟨hlabels, hvalues⟩ := described_plain (d := levelIn "a") hplain hconst
  obtain ⟨hv, hl⟩ := EnumMember.values_of_pairwise (show gradedMembers.Pairwise _ by decide)
  refine ⟨rfl, ⟨_, rfl, hvalues.trans (congrArg some hv), hlabels.trans (congrArg some hl)⟩, ?_⟩
  exact ⟨_, List.mem_of_getElem? (i := 1) rfl, rfl, rfl, rfl⟩

end Programs

end SchemaTable

end ServiceContract
