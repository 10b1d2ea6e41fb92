import ServiceContract.Proofs.Route.Arguments
import ServiceContract.Proofs.Route.Scoping
import ServiceContract.Proofs.Route.Statics

/-! # Scripts with scoped names

A body that uses no name whose place in the table may be out of date has the script that it has
where names are scoped as in Rust.
-/

namespace ServiceContract

open Source

namespace Script

variable {α β γ δ : Type} {R : α → β → Prop} {S : γ → δ → Prop}

/-- Scripts with the same steps, which end in related results. -/
inductive Matches (R : α → β → Prop) : Script α → Script β → Prop
  | done {a b} : R a b → Matches R (.done a) (.done b)
  | make {operators next next'} : (∀ id, Matches R (next id) (next' id)) →
    Matches R (.make operators next) (.make operators next')
  | link {parent child next next'} : Matches R next next' →
    Matches R (.link parent child next) (.link parent child next')
  | attach {id operators next next'} : Matches R next next' →
    Matches R (.attach id operators next) (.attach id operators next')
  | serve {id next next'} : Matches R next next' → Matches R (.serve id next) (.serve id next')
  | static {name next next'} : (∀ scope, Matches R (next scope) (next' scope)) →
    Matches R (.static name next) (.static name next')
  | call {f args next next'} : (∀ scope, Matches R (next scope) (next' scope)) →
    Matches R (.call f args next) (.call f args next')

theorem Matches.bind {x : Script α} {y : Script β} {f : α → Script γ} {g : β → Script δ}
    (h : Matches R x y) (hfg : ∀ a b, R a b → Matches S (f a) (g b)) :
    Matches S (x.bind f) (y.bind g) := by
  induction h with
  | done hr => exact hfg _ _ hr
  | make _ ih => exact .make ih
  | link _ ih => exact .link ih
  | attach _ ih => exact .attach ih
  | serve _ ih => exact .serve ih
  | static _ ih => exact .static ih
  | call _ ih => exact .call ih

theorem Matches.imp {R' : α → β → Prop} {x : Script α} {y : Script β} (h : Matches R x y)
    (hr : ∀ a b, R a b → R' a b) : Matches R' x y := by
  rw [← bind_done x, ← bind_done y]
  exact h.bind fun a b hab => .done (hr a b hab)

theorem Matches.eq {x y : Script α} (h : Matches Eq x y) : x = y := by
  induction h with
  | done hr => exact congrArg Script.done hr
  | make _ ih | static _ ih | call _ ih => exact congrArg _ (funext ih)
  | link _ ih | attach _ ih | serve _ ih => exact congrArg _ ih

/-- Scripts that differ in nothing but their results. -/
theorem Matches.map_eq {x : Script α} {y : Script β} {f : α → γ} {g : β → γ}
    (h : Matches (fun a b => f a = g b) x y) : f <$> x = g <$> y :=
  (h.bind fun _ _ hab => .done hab).eq

theorem Ends.matches {P : α → Prop} {x : Script α} (h : x.Ends P) :
    Matches (fun a b => a = b ∧ P a) x x := by
  induction x with
  | done a => exact .done ⟨rfl, h⟩
  | make _ _ ih => exact .make fun id => ih id (h id)
  | link _ _ _ ih => exact .link (ih h)
  | attach _ _ _ ih => exact .attach (ih h)
  | serve _ _ ih => exact .serve (ih h)
  | static _ _ ih => exact .static fun scope => ih scope (h scope)
  | call _ _ _ ih => exact .call fun scope => ih scope (h scope)

end Script

namespace Sight

section Simulation

variable {α β κ ι : Type} {st : Sight} {locals : Locals} {x : BodyScript α} {y : LexicalScript α}
  {k : StateT Sight Option κ} {C : Sight → Locals → κ → α → Prop}
  {D : Sight → Locals → ι → β → Prop}

/-- A script with one table has ended as one with scoped names, and what the text tells is true. -/
structure Outcome (st : Sight) (locals : Locals) (c : κ) (st' : Sight)
    (C : Sight → Locals → κ → α → Prop) (r : α × Locals) (r' : α × Bindings) : Prop where
  result : r.1 = r'.1
  told : C st' r.2 c r.1
  scope : st.scope <:+ st'.scope
  later : Later st locals st' r.2
  agrees : st'.Agrees r.2 r'.2

/-- Where the text finds nothing that is used out of date, a script with one table takes the steps
of one with scoped names. -/
def Simulates (st : Sight) (locals : Locals) (x : BodyScript α) (y : LexicalScript α)
    (k : StateT Sight Option κ) (C : Sight → Locals → κ → α → Prop) : Prop :=
  ∀ c st', k st = some (c, st') → ∀ bindings, st.Agrees locals bindings →
    (x locals).Matches (Outcome st locals c st' C) (y bindings)

namespace Simulates

theorem pure {a : α} {c : κ} (h : C st locals c a) :
    Simulates st locals (pure a) (pure a) (pure c) C := by
  intro c' st' hk bindings hst
  cases hk
  exact .done ⟨rfl, h, List.suffix_rfl, .refl _ _, hst⟩

theorem bind {f : α → BodyScript β} {g : α → LexicalScript β} {l : κ → StateT Sight Option ι}
    (h : Simulates st locals x y k C)
    (hfg : ∀ a c st' locals', Later st locals st' locals' → C st' locals' c a →
      Simulates st' locals' (f a) (g a) (l c) D) :
    Simulates st locals (x >>= f) (y >>= g) (k >>= l) D := by
  intro d st'' hk bindings hst
  obtain ⟨⟨c, st'⟩, hc, hd⟩ := Option.bind_eq_some_iff.mp hk
  refine (h c st' hc bindings hst).bind fun r r' hr => ?_
  obtain ⟨a, locals'⟩ := r
  obtain ⟨a', bindings'⟩ := r'
  obtain rfl : a = a' := hr.result
  refine (hfg a c st' locals' hr.later hr.told d st'' hd bindings' hr.agrees).imp fun s s' hs => ?_
  exact ⟨hs.result, hs.told, hr.scope.trans hs.scope, hr.later.trans hs.later, hs.agrees⟩

/-- What comes after a step whose result does not matter. -/
theorem andThen {x' : BodyScript β} {y' : LexicalScript β} {l : StateT Sight Option ι}
    (h : Simulates st locals x y k C) (h' : ∀ st' locals', Simulates st' locals' x' y' l D) :
    Simulates st locals (x >>= fun _ => x') (y >>= fun _ => y') (k >>= fun _ => l) D :=
  h.bind fun _ _ st' locals' _ _ => h' st' locals'

theorem drop {b : β} {d : ι} (h : Simulates st locals x y k C)
    (hd : ∀ st' locals', D st' locals' d b) :
    Simulates st locals (x >>= fun _ => Pure.pure b) (y >>= fun _ => Pure.pure b)
      (k >>= fun _ => Pure.pure d) D := h.andThen fun st' locals' => .pure (hd st' locals')

/-- A step that has to do with no names. -/
theorem lift {z : Script α} {c : κ} (hx : ∀ locals, x locals = z.bind fun a => .done (a, locals))
    (hz : z.Ends (C st locals c)) :
    Simulates st locals x (Lexical.lift x) (Pure.pure c) C := by
  intro c' st' hk bindings hst
  cases hk
  have hy : Lexical.lift x bindings = z.bind fun a => .done (a, bindings) := by
    rw [Lexical.lift, hx, Script.bind_assoc]
    rfl
  rw [hx, hy]
  exact hz.matches.bind fun a b ⟨hab, ha⟩ =>
    .done ⟨hab, ha, List.suffix_rfl, .refl _ _, hst⟩

end Simulates

/-- What the text tells about the value of an expression. -/
abbrev Told (st : Sight) (locals : Locals) (c : Certainty) (a : Option ScopeId) : Prop :=
  c.Tells st locals a

/-- Nothing is told. -/
abbrev Untold (_ : Sight) (_ : Locals) (_ _ : Unit) : Prop := True

namespace Simulates

theorem nested {x : BodyScript (Option ScopeId)} {y : LexicalScript (Option ScopeId)}
    {k : StateT Sight Option Certainty} (h : Simulates st locals x y k Told) :
    Simulates st locals x (Lexical.nested y) (reading.nested k) Told := by
  intro c st' hk bindings hst
  obtain ⟨⟨c, inner⟩, hc, heq⟩ := Option.map_eq_some_iff.mp hk
  cases heq
  have hx : x locals = (x locals).bind .done := (Script.bind_done _).symm
  rw [hx]
  refine (h c inner hc bindings hst).bind fun r r' hr => .done ?_
  have htold : Told (st.leave inner) r.2 c r.1 := by
    have hinner := hr.told
    cases c <;> exact hinner
  exact ⟨hr.result, htold, List.suffix_rfl, hr.later, hst.leave hr.agrees hr.scope⟩

theorem ofPath (p : Path) :
    Simulates st locals (Body.ofPath p) (Lexical.ofPath p) (reading.ofPath p) Told := by
  intro c st' hk bindings hst
  obtain ⟨rfl, hfound, htells⟩ : st' = st ∧
      (p.ident?.bind fun name => locals.lookup name) =
        (p.ident?.bind fun name => (bindings.lookup name).join) ∧
      ∀ a, c.Tells st locals ((p.ident?.bind fun name => locals.lookup name).or a) := by
    simp only [reading] at hk
    cases hident : p.ident? with
    | none =>
      rw [hident] at hk
      cases hk
      exact ⟨rfl, rfl, fun _ => trivial⟩
    | some name =>
      rw [hident] at hk
      obtain ⟨c, hc, heq⟩ := Option.map_eq_some_iff.mp hk
      cases heq
      exact ⟨rfl, hst.use hc⟩
  rw [hfound] at htells
  unfold Body.ofPath Lexical.ofPath
  rw [hfound]
  generalize (p.ident?.bind fun name => (bindings.lookup name).join) = found at htells
  cases found with
  | some id => exact .done ⟨rfl, htells none, List.suffix_rfl, .refl _ _, hst⟩
  | none =>
    cases p.last? with
    | some name =>
      exact .static fun scope => .done ⟨rfl, htells scope, List.suffix_rfl, .refl _ _, hst⟩
    | none => exact .done ⟨rfl, htells none, List.suffix_rfl, .refl _ _, hst⟩

theorem bindName_some {name : String} {a : Option ScopeId} :
    Body.bindName (some name) a locals = .done ((), locals.give name a) := by
  cases a <;> rfl

theorem letName {name : Option String} {c : Certainty} {a : Option ScopeId}
    (h : c.Tells st locals a) :
    Simulates st locals (Body.bindName name a) (Lexical.letName name a)
      (reading.bind name (some c)) Untold := by
  cases name with
  | none => exact .pure trivial
  | some n =>
    intro c' st' hk bindings hst
    cases hk
    rw [bindName_some]
    exact .done ⟨rfl, trivial, List.suffix_cons _ _, .letName h, hst.letName h⟩

theorem assign {name : Option String} {c : Certainty} {a : Option ScopeId}
    (h : c.Tells st locals a) :
    Simulates st locals (Body.bindName name a) (Lexical.assign name a) (reading.assign name c)
      Untold := by
  cases name with
  | none => exact .pure trivial
  | some n =>
    intro c' st' hk bindings hst
    cases hk
    have hscope : (Sight.assign n c st).scope = st.scope := by grind [Sight.assign]
    rw [bindName_some]
    exact .done ⟨rfl, trivial, hscope ▸ List.suffix_rfl, .assign h, hst.assign h⟩

/-- A table takes no notice of the names of parts of values, which are bound to no scope. -/
theorem partNames (st : Sight) (locals : Locals) : ∀ parts : List String, Simulates st locals
    (Body.flat.partNames parts) (Lexical.reading.partNames parts) (reading.partNames parts) Untold
  | [] => .pure trivial
  | _ :: ns => (letName (c := .nothing) rfl).andThen fun st locals => partNames st locals ns

theorem under {parts : List String} {x : BodyScript (Option ScopeId)}
    {y : LexicalScript (Option ScopeId)} {k : StateT Sight Option Certainty}
    (h : ∀ st locals, Simulates st locals x y k Told) : Simulates st locals
      (Body.flat.under parts x) (Lexical.reading.under parts y) (reading.under parts k) Told :=
  nested ((partNames st locals parts).andThen h)

theorem newScope {operators : List OperatorRef} :
    Simulates st locals (Body.newScope operators) (Lexical.lift (Body.newScope operators))
      (Pure.pure .scope) Told :=
  .lift (z := .make operators fun id => .done (some id)) (fun _ => rfl) fun _ => rfl

theorem serve {a : Option ScopeId} :
    Simulates st locals (Body.serve a) (Lexical.lift (Body.serve a)) (Pure.pure ()) Untold := by
  cases a with
  | none => exact .pure trivial
  | some id => exact .lift (z := .serve id (.done ())) (fun _ => rfl) trivial

theorem call {f : FnDecl} {args : List (Option ScopeId)} :
    Simulates st locals (Body.call f args) (Lexical.lift (Body.call f args)) (Pure.pure .either)
      Told :=
  .lift (z := .call f args .done) (fun _ => rfl) fun _ => trivial

theorem exists_linkAll (parent : ScopeId) (children : List (Option ScopeId)) :
    ∃ z : Script Unit, ∀ locals,
      Body.linkAll parent children locals = z.bind fun a => .done (a, locals) := by
  induction children with
  | nil => exact ⟨.done (), fun _ => rfl⟩
  | cons child rest ih =>
    obtain ⟨z, hz⟩ := ih
    cases child with
    | none => exact ⟨z, hz⟩
    | some id =>
      exact ⟨.link parent id z, fun locals => congrArg (Script.link parent id) (hz locals)⟩

theorem register {parent : Option ScopeId} {children : List (Option ScopeId)} {c : Certainty}
    (h : c.Tells st locals parent) :
    Simulates st locals (Body.flat.register parent children)
      (Lexical.lift (Body.flat.register parent children)) (Pure.pure c) Told := by
  cases parent with
  | none => exact .pure h
  | some id =>
    obtain ⟨z, hz⟩ := exists_linkAll id children
    refine .lift (z := z.bind fun _ => .done (some id)) (fun locals => ?_)
      (z.ends_true.bind fun _ _ => h)
    show (Body.linkAll id children locals).bind _ = _
    rw [hz, Script.bind_assoc, Script.bind_assoc]
    rfl

theorem attach {target : Option ScopeId} {operators : List OperatorRef} {c : Certainty}
    (h : c.Tells st locals target) :
    Simulates st locals (Body.flat.attach target operators)
      (Lexical.lift (Body.flat.attach target operators)) (Pure.pure c) Told := by
  cases target with
  | none => exact .pure h
  | some id => exact .lift (z := .attach id operators (.done (some id))) (fun _ => rfl) h

end Simulates

theorem tells_nothing : Certainty.nothing.Tells st locals none := rfl

theorem tells_wrapped {cs : List Certainty} {scopes : List (Option ScopeId)}
    (h : List.Forall₂ (Told st locals) cs scopes) :
    (reading.wrapped cs).Tells st locals (Body.flat.wrapped scopes) := by
  cases h with
  | nil => rfl
  | cons h hs =>
    cases hs with
    | nil => exact h
    | cons => rfl

section Bodies

variable {names : Names}

mutual

theorem simulates_expr (st : Sight) (locals : Locals) : ∀ e : Expr, Simulates st locals
    (Body.flat.expr names e) (Lexical.reading.expr names e) (reading.expr names e) Told
  | .ref e | .paren e | .unary _ e | .attempt e | .await e => by
    simp only [BodyReading.expr]
    exact simulates_expr st locals e
  | .closure _ _ e => by
    simp only [BodyReading.expr]
    exact .under fun st locals => simulates_expr st locals e
  | .block b | .uncheckedBlock b => by
    simp only [BodyReading.expr]
    exact (simulates_block st locals tells_nothing b).nested
  | .returns (some e) => by
    simp only [BodyReading.expr]
    exact simulates_expr st locals e
  | .ifThen c b none => by
    simp only [BodyReading.expr]
    exact (simulates_expr st locals c).andThen fun st locals =>
      (Simulates.under fun st locals => simulates_block st locals tells_nothing b).drop
        fun _ _ => rfl
  | .ifThen c b (some e) => by
    simp only [BodyReading.expr]
    exact (simulates_expr st locals c).andThen fun st locals =>
      (Simulates.under fun st locals => simulates_block st locals tells_nothing b).andThen
        fun st locals => (simulates_expr st locals e).drop fun _ _ => rfl
  | .matchOn e as => by
    simp only [BodyReading.expr]
    exact (simulates_expr st locals e).andThen fun st locals =>
      (simulates_arms st locals as).drop fun _ _ => rfl
  | .forLoop _ _ _ b | .whileLoop _ b => by
    simp only [BodyReading.expr]
    exact (Simulates.under fun st locals => simulates_block st locals tells_nothing b).drop
      fun _ _ => rfl
  | .loop b => by
    simp only [BodyReading.expr]
    exact (simulates_block st locals tells_nothing b).nested.drop fun _ _ => rfl
  | .assign left e => by
    simp only [BodyReading.expr]
    exact (simulates_expr st locals e).bind fun a c _ _ _ h =>
      (Simulates.assign h).drop fun _ _ => rfl
  | .path p _ => by
    simp only [BodyReading.expr]
    exact .ofPath p
  | .macroCall m => by
    simp only [BodyReading.expr]
    exact simulates_macroCall st locals m
  | .call g args => by
    simp only [BodyReading.expr]
    cases calleePath? g with
    | none => exact (simulates_exprs st locals args).drop fun _ _ => rfl
    | some segments =>
      dsimp only
      split
      · exact .newScope
      · split
        · exact (simulates_serveAll st locals args).drop fun _ _ => rfl
        · cases names.function? segments with
          | some f => exact (simulates_exprs st locals args).bind fun _ _ _ _ _ _ => .call
          | none =>
            exact (simulates_exprs st locals args).bind fun _ _ _ _ _ h => .pure (tells_wrapped h)
  | .methodCall e name _ _ args => by
    simp only [BodyReading.expr]
    split
    · exact (simulates_expr st locals e).bind fun parent c st locals _ h =>
        (simulates_exprs st locals args).bind fun children _ _ _ later _ =>
          .register (later.tells h)
    · split
      · exact (simulates_expr st locals e).bind fun target c _ _ _ h => .attach h
      · split
        · exact simulates_expr st locals e
        · split
          · exact (simulates_expr st locals e).bind fun _ _ _ _ _ _ =>
              Simulates.serve.andThen fun st locals =>
                (simulates_serveAll st locals args).drop fun _ _ => rfl
          · refine (simulates_expr st locals e).andThen fun st locals => ?_
            cases (if isSelf e then names.method? name else none) with
            | some f => exact (simulates_exprs st locals args).bind fun _ _ _ _ _ _ => .call
            | none => exact (simulates_exprs st locals args).drop fun _ _ => rfl
  | .tuple es => by
    simp only [BodyReading.expr]
    exact (simulates_exprs st locals es).drop fun _ _ => rfl
  | .lit _ | .rawAddress _ | .binary _ _ _ | .cast _ _ _ | .field _ _ | .index _ _ | .record _ _ _ _
  | .array _ | .repeated _ _ | .range _ _ | .constBlock _ | .asyncBlock _ | .tryBlock _
  | .letCond _ _ _ | .returns none | .breaks _ | .yields _ | .other => by
    simp only [BodyReading.expr]
    exact .pure rfl

theorem simulates_exprs (st : Sight) (locals : Locals) : ∀ es : List Expr, Simulates st locals
    (Body.flat.exprs names es) (Lexical.reading.exprs names es) (reading.exprs names es)
    fun st locals => List.Forall₂ (Told st locals)
  | [] => by
    simp only [BodyReading.exprs]
    exact .pure .nil
  | e :: es => by
    simp only [BodyReading.exprs]
    exact (simulates_expr st locals e).bind fun _ _ st locals _ h =>
      (simulates_exprs st locals es).bind fun _ _ _ _ later hs =>
        .pure (.cons (later.tells h) hs)

theorem simulates_serveAll (st : Sight) (locals : Locals) : ∀ es : List Expr, Simulates st locals
    (Body.flat.serveAll names es) (Lexical.reading.serveAll names es) (reading.serveAll names es)
    Untold
  | [] => by
    simp only [BodyReading.serveAll]
    exact .pure trivial
  | e :: es => by
    simp only [BodyReading.serveAll]
    exact (simulates_expr st locals e).bind fun _ _ _ _ _ _ =>
      Simulates.serve.andThen fun st locals => simulates_serveAll st locals es

theorem simulates_macroCall (st : Sight) (locals : Locals) : ∀ m : MacroCall, Simulates st locals
    (Body.flat.macroCall names m) (Lexical.reading.macroCall names m) (reading.macroCall names m)
    Told
  | .mk path _ (some args) _ => by
    simp only [BodyReading.macroCall]
    split
    · exact .newScope
    · exact (simulates_exprs st locals args).drop fun _ _ => rfl
  | .mk _ _ none _ => by
    simp only [BodyReading.macroCall]
    exact .pure rfl

theorem simulates_arms (st : Sight) (locals : Locals) : ∀ as : List Arm, Simulates st locals
    (Body.flat.arms names as) (Lexical.reading.arms names as) (reading.arms names as) Untold
  | [] => by
    simp only [BodyReading.arms]
    exact .pure trivial
  | .mk _ _ _ body :: rest => by
    simp only [BodyReading.arms]
    exact (Simulates.under fun st locals => simulates_expr st locals body).andThen
      fun st locals => simulates_arms st locals rest

theorem simulates_block (st : Sight) (locals : Locals) {last : Option ScopeId} {c : Certainty}
    (h : c.Tells st locals last) : ∀ b : List Stmt, Simulates st locals
      (Body.flat.block names last b) (Lexical.reading.block names last b) (reading.block names c b)
      Told
  | [] => by
    simp only [BodyReading.block]
    exact .pure h
  | s :: rest => by
    simp only [BodyReading.block]
    exact (simulates_stmt st locals s).bind fun _ _ st locals _ h =>
      simulates_block st locals h rest

theorem simulates_stmt (st : Sight) (locals : Locals) : ∀ s : Stmt, Simulates st locals
    (Body.flat.stmt names s) (Lexical.reading.stmt names s) (reading.stmt names s) Told
  | .binding pattern _ (some e) _ => by
    simp only [BodyReading.stmt]
    exact (simulates_expr st locals e).bind fun _ _ _ _ _ h =>
      (Simulates.letName h).andThen fun st locals =>
        (Simulates.partNames st locals _).drop fun _ _ => rfl
  | .binding pattern _ none _ => by
    simp only [BodyReading.stmt]
    exact (Simulates.letName (c := .either) trivial).andThen fun st locals =>
      (Simulates.partNames st locals _).drop fun _ _ => rfl
  | .expr _ e terminated => by
    simp only [BodyReading.stmt]
    refine (simulates_expr st locals e).bind fun _ _ _ _ _ h => .pure ?_
    cases terminated with
    | true => rfl
    | false => exact h
  | .macroCall m => by
    simp only [BodyReading.stmt]
    exact (simulates_macroCall st locals m).drop fun _ _ => rfl
  | .item _ => by
    simp only [BodyReading.stmt]
    exact .pure rfl

end

end Bodies

end Simulation

end Sight

section Functions

variable {p : Program} {f : FnDecl} {bound : Locals}

/-- What names are bound to where the body of a function begins: those of parts of parameters to no
scope. -/
def FnDecl.bindings (f : FnDecl) (bound : Locals) : Bindings :=
  f.item.paramParts.map (·, none) ++ f.boundNames.map fun n => (n, bound.lookup n)

/-- What is told about them there. -/
def FnDecl.sight (f : FnDecl) (bound : Locals) : Sight where
  scope := f.item.paramParts.map (·, .nothing) ++
    f.boundNames.map fun n => (n, if (bound.lookup n).isSome then .scope else .nothing)
  seen := bound.map Prod.fst
  stale := []

/-- What the body of a function does where names are scoped. -/
def FnDecl.lexicalScript (f : FnDecl) (p : Program) (bound : Locals) : Script (Option ScopeId) :=
  Prod.fst <$> (Lexical.reading.block (.within (f.scope p) f.owner) none f.body).run
    (f.bindings bound)

/-- Whether the body of a function, begun with these names, uses none that may be out of date. -/
def FnDecl.UpToDate (f : FnDecl) (p : Program) (bound : Locals) : Prop :=
  ((Sight.reading.block (.within (f.scope p) f.owner) .nothing f.body).run
    (f.sight bound)).isSome = true

theorem FnDecl.agrees (hbound : ∀ n ∈ bound.map Prod.fst, n ∈ f.boundNames) :
    (f.sight bound).Agrees bound (f.bindings bound) := by
  have hnone : ∀ n ∉ bound.map Prod.fst, bound.lookup n = none := fun _ =>
    lookup_eq_none_iff.mpr
  have hcounted : ∀ (ns : List String) n, Sight.counted n
      (ns.map fun n => (n, if (bound.lookup n).isSome then .scope else .nothing))
      (ns.map fun n => (n, bound.lookup n)) = if n ∈ ns then bound.lookup n else none := by
    intro ns n
    induction ns with
    | nil => rfl
    | cons m ns ih =>
      rw [List.map_cons, List.map_cons, Sight.counted_cons, ih]
      by_cases hm : m = n
      · subst hm
        cases bound.lookup m <;> simp
      · simp [hm, Ne.symm hm]
  have hparts : ∀ n scope bindings, Sight.counted n (f.item.paramParts.map (·, .nothing) ++ scope)
      (f.item.paramParts.map (·, none) ++ bindings) = Sight.counted n scope bindings := by
    intro n scope bindings
    rw [Sight.counted_append (by simp [Sight.counting]) (by simp), List.drop_left' (by simp)]
  refine ⟨?_, hnone, fun n _ => ?_⟩
  · refine List.rel_append ?_ ?_
    · rw [List.forall₂_map_left_iff, List.forall₂_map_right_iff]
      exact List.forall₂_same.mpr fun n _ => ⟨rfl, (by simp), fun _ _ => rfl⟩
    · rw [List.forall₂_map_left_iff, List.forall₂_map_right_iff]
      refine List.forall₂_same.mpr fun n _ => ⟨rfl, ?_, ?_⟩
      · cases bound.lookup n <;> simp
      · cases bound.lookup n <;> simp
  · rw [sight, bindings, hparts, hcounted]
    split
    · rfl
    · next hn => exact hnone n (mt (hbound n) hn)

/-- A body that uses nothing out of date does what it does where names are scoped. -/
theorem FnDecl.script_eq_lexicalScript (h : f.UpToDate p bound)
    (hbound : ∀ n ∈ bound.map Prod.fst, n ∈ f.boundNames) :
    f.script p bound = f.lexicalScript p bound := by
  obtain ⟨⟨c, st⟩, hst⟩ := Option.isSome_iff_exists.mp h
  have hbody : Sight.Simulates (f.sight bound) bound
      (Body.flat.block (.within (f.scope p) f.owner) none f.body)
      (Lexical.reading.block (.within (f.scope p) f.owner) none f.body)
      (Sight.reading.block (.within (f.scope p) f.owner) .nothing f.body) Sight.Told :=
    Sight.simulates_block _ bound Sight.tells_nothing f.body
  have hsim := hbody c st hst _ (f.agrees hbound)
  rw [script, lexicalScript, ← Body.flat_block]
  exact (hsim.imp fun _ _ h => h.result).map_eq

end Functions

namespace Replay

open ReplayState

/-- Whatever a replay begins, the body of a function that uses no name out of date makes the moves
that it makes where names are scoped: what a path stands for is what the innermost pattern in scope
has bound its name to, which is no scope for a part of a value, and no block or closure changes what
names are bound to outside of it, but for assignments. -/
theorem lexical_moves (p : Program) (entryPoints : List String) (k : Nat) (f : FnDecl) (way : Way)
    (hbegin : (moves p entryPoints)[k]? = some (.begin f way))
    (hf : f.UpToDate p way.params) :
    f.script p way.params = f.lexicalScript p way.params ∧
      ∃ inner a after, (moves p entryPoints).drop (k + 1) = inner ++ .finish f way a :: after ∧
        Runs p (.script way.rights (f.lexicalScript p way.params)) (during p entryPoints (k + 1))
          inner a := by
  have hbegun := (allBegun_moves p entryPoints).of_getElem? hbegin
  have hparams : ∀ n ∈ way.params.map Prod.fst, n ∈ f.boundNames := by
    cases way with
    | bound params =>
      obtain ⟨-, scopes, rfl⟩ := hbegun.bound params rfl
      exact mem_boundNames_of_bindParams
    | called | entry | remaining => simp [Way.params]
  have hscript := FnDecl.script_eq_lexicalScript hf hparams
  exact ⟨hscript, hscript ▸ hbegun.run⟩

section Programs

/-- An entry point with this body. -/
def runningMain (body : Block) : Program where
  fns := [fnIn [] "main" body]

def letRouter (name path : String) : Stmt :=
  .binding (.name name) [] (some (routerOf (groupOf path))) none

/-- A block that makes a scope and registers it. -/
def registeringBlock (path : String) : Stmt :=
  .expr [] (.block [letRouter "inner" path, registerOf "root" (pathOf ["inner"])]) false

/-- A name is bound again to what it is bound to, and another one by two blocks. -/
def scopedBody : Block :=
  [letRouter "root" "/a", registeringBlock "/b", registeringBlock "/c",
   .binding (.name "root") [] (some (.methodCall (pathOf ["root"]) "clone" [] [] [])) none,
   serveOf (pathOf ["root"])]

/-- A name is bound again inside a block, and used after it. -/
def leakingBody : Block :=
  [letRouter "root" "/a", .expr [] (.block [letRouter "root" "/b"]) false,
   serveOf (pathOf ["root"])]

/-- A name is bound again to what is no scope, or to a part of it. -/
def hidingBody (pattern : Pat) : Block :=
  [letRouter "root" "/a", .binding (.name "handle") [] (some (.ref (pathOf ["root"]))) none,
   .binding pattern [] (some (.call (pathOf ["Registry", "default"]) [])) none,
   registerOf "root" (routerOf (groupOf "/b")), serveOf (pathOf ["handle"])]

theorem lexical_moves_scopedBody :
    let p := runningMain scopedBody
    let main := fnIn [] "main" scopedBody
    (moves p ["main"])[0]? = some (.begin main .entry) ∧ main.UpToDate p [] ∧
    main.script p [] = main.lexicalScript p [] ∧
    (∃ inner a after, (moves p ["main"]).drop 1 = inner ++ .finish main .entry a :: after ∧
      Runs p (.script Way.entry.rights (main.lexicalScript p [])) (during p ["main"] 1) inner a) ∧
    "Group(/a) > Group(/c)" ∈ RouteTree.labels p ["main"] := by
  intro p main
  have hbegin : (moves p ["main"])[0]? = some (.begin main .entry) := by rfl
  have hmain : main.UpToDate p [] := by
    unfold FnDecl.UpToDate
    decide +kernel
  obtain ⟨hscript, hrun⟩ := lexical_moves p ["main"] 0 main .entry hbegin hmain
  refine ⟨hbegin, hmain, hscript, hrun, ?_⟩
  simp only [RouteTree.mem_labels_iff]
  decide +kernel

/-- What is known after a script that needs no other one. -/
def alone (body : Script (Option ScopeId)) : ReplayState :=
  after {} (script (fun _ => pure none) Way.entry.rights body {}).2

/-- A `let` inside a block has an effect after it, and a `let` without a scope hides no other one,
whatever its pattern. -/
theorem scopes_leak :
    let f := fnIn [] "main" leakingBody
    ((alone (f.lexicalScript (runningMain leakingBody) [])).root = some 0 ∧
      (alone (f.script (runningMain leakingBody) [])).root = some 1 ∧
      "Group(/a)" ∉ RouteTree.labels (runningMain leakingBody) ["main"] ∧
      "Group(/b)" ∈ RouteTree.labels (runningMain leakingBody) ["main"]) ∧
    ∀ pattern ∈ [Pat.name "root", .other ["root"]],
      let p := runningMain (hidingBody pattern)
      let g := fnIn [] "main" (hidingBody pattern)
      ((alone (g.lexicalScript p [])).forest.scope 0).children = [] ∧
        ((alone (g.script p [])).forest.scope 0).children = [1] ∧
        "Group(/a) > Group(/b)" ∈ RouteTree.labels p ["main"] := by
  simp only [RouteTree.mem_labels_iff]
  decide +kernel

end Programs

end Replay

end ServiceContract
