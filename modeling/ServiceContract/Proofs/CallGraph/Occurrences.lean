import ServiceContract.Proofs.CallGraph.Walk
import ServiceContract.Proofs.Firsts
import ServiceContract.Proofs.Source.Positions

/-! # Calls and errors in a body

A function calls a function where a call or a method call in its body means it, and raises an error
where a path in its body means the error or a call makes one out of constants. Its callees are in
the order in which they are first called, and its errors are listed where they are raised.
-/

namespace ServiceContract

open Source

namespace ErrorSearch

/-- A called path that wraps an error in a status error. -/
inductive Wraps : List String → Prop
  | method (before : List String) {owner : String} :
    owner = "StatusError" ∨ owner = "status_error" → Wraps (before ++ [owner, "wrap"])
  | function (before : List String) : Wraps (before ++ ["wrap_status"])

/-- A path in a function means the enum with a qualified name. -/
inductive NamesEnum (p : Program) (f : FnDecl) : List String → String → Prop
  | self {name : String} : f.owner = some name → NamesEnum p f ["Self"] name
  | declared {path : List String} {d : Declared EnumItem} : path ≠ [] → path ≠ ["Self"] →
    p.findType ⟨path, []⟩ f.module = some (.enum d) →
    NamesEnum p f path (qualify d.module d.item.name)

/-- An expression in a function means an error or makes one. -/
inductive RaisedBy (p : Program) (f : FnDecl) : Expr → StatusError → Prop
  | mentioned {path : Path} {inner : List Expr} {enum : List String} {name variant : String}
      {error : StatusError} :
    path.segments = enum ++ [variant] → NamesEnum p f enum name →
    (ErrorCatalog.ofProgram p).error? name variant = some error →
    RaisedBy p f (.path path inner) error
  | wrapped {path : Path} {inner args : List Expr} {c k : Expr} {code : Int} {key : String} :
    Wraps path.segments → args[1]? = some c → (f.scope p).evalInt c = some code →
    args[2]? = some k → (f.scope p).evalStr k = some key →
    RaisedBy p f (.call (.path path inner) args)
      { key, code
        messages := [(StatusError.defaultLocale, (args[3]?.bind (f.scope p).evalStr).getD key)]
        description := args[4]?.bind (f.scope p).evalStr }

/-- An expression in a function calls another function. -/
inductive CalledBy (p : Program) (f : FnDecl) : Expr → FnDecl → Prop
  | path {path : Path} {inner args : List Expr} {g : FnDecl} : ¬ Wraps path.segments →
    p.resolveCall path.segments f.module f.owner = some g →
    CalledBy p f (.call (.path path inner) args) g
  | own {receiver : Expr} {name owner : String} {types : List TypeExpr} {inner args : List Expr}
      {g : FnDecl} : isSelf receiver = true → f.owner = some owner →
    p.ownedMethod owner name = some g → CalledBy p f (.methodCall receiver name types inner args) g
  | method {receiver : Expr} {name : String} {types : List TypeExpr} {inner args : List Expr}
      {g : FnDecl} : isSelf receiver = false → p.uniqueMethod name = some g →
    CalledBy p f (.methodCall receiver name types inner args) g

/-- A function raises an error at a position in its body. -/
def RaisesAt (p : Program) (f : FnDecl) (i : Position) (error : StatusError) : Prop :=
  ∃ e, Leads everywhere (.block f.body) i e ∧ RaisedBy p f e error

/-- A function calls another one at a position in its body. -/
def CallsAt (p : Program) (f : FnDecl) (i : Position) (g : FnDecl) : Prop :=
  ∃ e, Leads everywhere (.block f.body) i e ∧ CalledBy p f e g

/-- At a position a function calls another one, and none of its key at a position before. -/
def FirstCallAt (p : Program) (f : FnDecl) (i : Position) (g : FnDecl) : Prop :=
  CallsAt p f i g ∧ ∀ j h, CallsAt p f j h → j < i → h.key ≠ g.key

variable {p : Program} {f g : FnDecl} {e : Expr} {error : StatusError}

@[simp] theorem program_ofProgram : (ofProgram p).program = p := rfl

@[simp] theorem catalog_ofProgram : (ofProgram p).catalog = .ofProgram p := rfl

theorem calleePath?_iff {segments : List String} :
    calleePath? e = some segments ↔
      ∃ path inner, e = .path path inner ∧ path.segments = segments := by
  cases e <;> simp [calleePath?]

theorem isWrap_iff {segments : List String} : isWrap segments = true ↔ Wraps segments := by
  constructor
  · intro h
    unfold isWrap at h
    split at h
    · next owner rest hs =>
      rw [List.reverse_eq_iff.mp hs]
      simpa using Wraps.method rest.reverse (by simpa using h)
    · next name rest _ hs =>
      rw [List.reverse_eq_iff.mp hs, show name = "wrap_status" by simpa using h]
      simpa using Wraps.function rest.reverse
    · cases h
  · rintro (⟨before, h⟩ | ⟨before⟩)
    · simpa [isWrap] using h
    · simp [isWrap]

theorem enumName?_iff {path : List String} {name : String} :
    (ofProgram p).enumName? f path = some name ↔ NamesEnum p f path name := by
  unfold enumName?
  constructor
  · intro h
    split at h
    · cases h
    · next hne =>
      split at h
      · next hself =>
        rw [beq_iff_eq.mp hself]
        exact .self h
      · next hself =>
        split at h
        · next d hd =>
          cases h
          exact .declared (by simpa using hne) (by simpa using hself) hd
        · cases h
  · rintro (⟨h⟩ | ⟨hne, hself, hd⟩)
    · exact h
    · simp [hne, hself, hd]

theorem mentioned?_iff {segments : List String} :
    (ofProgram p).mentioned? f segments = some error ↔ ∃ enum name variant,
      segments = enum ++ [variant] ∧ NamesEnum p f enum name ∧
        (ErrorCatalog.ofProgram p).error? name variant = some error := by
  simp only [mentioned?, Option.bind_eq_some_iff, enumName?_iff]
  constructor
  · rintro ⟨variant, hlast, name, hname, h⟩
    exact ⟨_, name, variant, (List.dropLast_append_getLast? variant hlast).symm, hname, h⟩
  · rintro ⟨enum, name, variant, rfl, hname, h⟩
    exact ⟨variant, by simp, name, by simpa using hname, h⟩

theorem wrapped?_iff {scope : Scope} {args : List Expr} : wrapped? scope args = some error ↔
    ∃ c k code key, args[1]? = some c ∧ scope.evalInt c = some code ∧
      args[2]? = some k ∧ scope.evalStr k = some key ∧
      error =
        { key, code
          messages := [(StatusError.defaultLocale, (args[3]?.bind scope.evalStr).getD key)]
          description := args[4]?.bind scope.evalStr } := by
  simp only [wrapped?, Option.bind_eq_bind, Option.bind_eq_some_iff, Option.pure_def,
    Option.some.injEq]
  grind

theorem errorOf?_iff : (ofProgram p).errorOf? f e = some error ↔ RaisedBy p f e error := by
  constructor
  · intro h
    unfold errorOf? at h
    split at h
    · obtain ⟨enum, name, variant, hs, hname, hc⟩ := mentioned?_iff.mp h
      exact .mentioned hs hname hc
    · split at h
      · next hcallee =>
        obtain ⟨path, inner, rfl, rfl⟩ := calleePath?_iff.mp hcallee
        split at h
        · next hw =>
          obtain ⟨c, k, code, key, hc, hcode, hk, hkey, rfl⟩ := wrapped?_iff.mp h
          exact .wrapped (isWrap_iff.mp hw) hc hcode hk hkey
        · cases h
      · cases h
    · cases h
  · rintro (⟨hs, hname, hc⟩ | ⟨hw, hc, hcode, hk, hkey⟩)
    · exact mentioned?_iff.mpr ⟨_, _, _, hs, hname, hc⟩
    · simp only [errorOf?, calleePath?, isWrap_iff.mpr hw, if_true]
      exact wrapped?_iff.mpr ⟨_, _, _, _, hc, hcode, hk, hkey, rfl⟩

theorem calleeOf?_iff : (ofProgram p).calleeOf? f e = some g ↔ CalledBy p f e g := by
  constructor
  · intro h
    unfold calleeOf? at h
    split at h
    · split at h
      · next hcallee =>
        obtain ⟨path, inner, rfl, rfl⟩ := calleePath?_iff.mp hcallee
        split at h
        · cases h
        · next hw => exact .path (mt isWrap_iff.mpr hw) h
      · cases h
    · split at h
      · next hself =>
        obtain ⟨owner, howner, h⟩ := Option.bind_eq_some_iff.mp h
        exact .own hself howner h
      · next hself => exact .method (by simpa using hself) h
    · cases h
  · rintro (⟨hw, h⟩ | ⟨hself, howner, h⟩ | ⟨hself, h⟩)
    · simpa [calleeOf?, calleePath?, mt isWrap_iff.mp hw] using h
    · simpa [calleeOf?, hself, howner] using h
    · simpa [calleeOf?, hself] using h

/-- What the expressions of a body give is listed in the order of their positions. -/
theorem enumerates_expressions {α : Type} (of? : Expr → Option α) (h : ∀ b, of? (.block b) = none)
    (f : FnDecl) : EnumeratesBy (· < ·)
      (fun i a => ∃ e, Leads everywhere (.block f.body) i e ∧ of? e = some a)
      ((expressions f).filterMap of?) := by
  have hl := enumerates_leads (fun _ => true) (Walk.mk true true).expr_eq (.block f.body)
  rw [Walk.goesTo_everywhere, Walk.expr] at hl
  have := hl.filterMap (f := of?)
  rw [List.filterMap_cons_none (h _)] at this
  exact this.congr fun i a => by simp

theorem enumerates_direct (p : Program) (f : FnDecl) :
    EnumeratesBy (· < ·) (RaisesAt p f) ((ofProgram p).direct f) :=
  (enumerates_expressions _ (fun _ => rfl) f).congr fun i a => by
    simp only [RaisesAt, errorOf?_iff]

theorem enumerates_callees (p : Program) (f : FnDecl) :
    EnumeratesBy (· < ·) (FirstCallAt p f) ((ofProgram p).callees f) := by
  have hpositions := enumerates_expressions ((ofProgram p).calleeOf? f) (fun _ => rfl) f
  have hcalls := hpositions.firstsBy (fun i j => List.lt_asymm) (·.key)
  rw [callees, firstByKey, foldl_nil_eq_firstsBy FnDecl.key fun _ _ => rfl]
  exact hcalls.congr fun i g => by simp only [FirstCallAt, CallsAt, calleeOf?_iff]

end ErrorSearch

end ServiceContract
