import ServiceContract.Proofs.Route.Levels
import ServiceContract.Route.Tree

/-! # Which operators routes have

An operator is resolved where it is registered, and only a declared struct is taken. Scripts hand
on what they register, so that all operators in the tree of routes are groups or declared structs.
-/

namespace ServiceContract

open Source

/-- A struct operator is found again under its module and name. -/
def OperatorRef.Declared (p : Program) : OperatorRef → Prop
  | .type module name => ∃ d, p.findStruct module name = some d
  | .group _ => True

namespace Program

variable {p : Program}

/-- A declared struct is found under its own module and name, or one before it. -/
theorem findStruct_of_mem {d : Declared StructItem} (h : d ∈ p.structs) :
    ∃ d', p.findStruct d.module d.item.name = some d' :=
  Option.isSome_iff_exists.mp (List.find?_isSome.mpr ⟨d, h, by simp⟩)

end Program

namespace OperatorRef

variable {s : Scope} {op : OperatorRef}

theorem declared_of_ofValue? {e : Expr} (h : ofValue? s e = some op) : op.Declared s.program := by
  unfold ofValue? at h
  split at h
  · obtain ⟨path, -, rfl⟩ := Option.map_eq_some_iff.mp h
    trivial
  · obtain ⟨path, -, h⟩ := Option.bind_eq_some_iff.mp h
    split at h <;> cases h
    next d hd =>
    exact Program.findStruct_of_mem
      (Program.mem_structs_of_mem_types (Program.mem_types_of_findType hd))

mutual

theorem declared_ofExpr (s : Scope) : ∀ e : Expr, ∀ op ∈ ofExpr s e, op.Declared s.program
  | .ref e => declared_ofExpr s e
  | .paren e => declared_ofExpr s e
  | .array es => declared_ofExprs s es
  | .macroCall m => declared_ofMacro s m
  | .lit _ | .path _ _ | .call _ _ | .methodCall _ _ _ _ _ | .rawAddress _ | .unary _ _
  | .binary _ _ _ | .assign _ _ | .cast _ _ _ | .field _ _ | .index _ _ | .record _ _ _ _
  | .tuple _ | .repeated _ _ | .range _ _ | .block _ | .uncheckedBlock _ | .constBlock _
  | .asyncBlock _ | .tryBlock _ | .ifThen _ _ _ | .matchOn _ _ | .forLoop _ _ _ _
  | .whileLoop _ _ | .loop _ | .closure _ _ _ | .letCond _ _ _ | .attempt _ | .await _ | .returns _
  | .breaks _ | .yields _ | .other =>
    fun _ h => declared_of_ofValue? (Option.mem_toList.mp (by simpa only [ofExpr] using h))

theorem declared_ofExprs (s : Scope) : ∀ es : List Expr, ∀ op ∈ ofExprs s es,
    op.Declared s.program
  | [] => fun _ h => nomatch h
  | e :: es => List.forall_mem_append.mpr ⟨declared_ofExpr s e, declared_ofExprs s es⟩

theorem declared_ofMacro (s : Scope) : ∀ m : MacroCall, ∀ op ∈ ofMacro s m, op.Declared s.program
  | .mk path _ (some args) _ => by
    intro op h
    rw [ofMacro] at h
    split at h
    · exact declared_ofExprs s args op h
    · cases h
  | .mk _ _ none _ => fun _ h => nomatch h

end

end OperatorRef

namespace Script

variable {α β : Type} {Good : OperatorRef → Prop}

/-- Whatever it is answered, a script registers only such operators. -/
def Registers (Good : OperatorRef → Prop) : Script α → Prop
  | done _ => True
  | make operators next => (∀ op ∈ operators, Good op) ∧ ∀ id, Registers Good (next id)
  | link _ _ next => Registers Good next
  | attach _ operators next => (∀ op ∈ operators, Good op) ∧ Registers Good next
  | serve _ next => Registers Good next
  | static _ next => ∀ scope, Registers Good (next scope)
  | call _ _ next => ∀ scope, Registers Good (next scope)

theorem Registers.bind {x : Script α} {f : α → Script β} (hx : x.Registers Good)
    (hf : ∀ a, (f a).Registers Good) : (x.bind f).Registers Good := by
  induction x with
  | done a => exact hf a
  | make _ next ih => exact ⟨hx.1, fun id => ih id (hx.2 id)⟩
  | link _ _ next ih => exact ih hx
  | attach _ _ next ih => exact ⟨hx.1, ih hx.2⟩
  | serve _ next ih => exact ih hx
  | static _ next ih => exact fun scope => ih scope (hx scope)
  | call _ _ next ih => exact fun scope => ih scope (hx scope)

theorem Registers.map {x : Script α} {g : α → β} (hx : x.Registers Good) :
    (g <$> x).Registers Good := hx.bind fun _ => trivial

end Script

/-- What expressions register are such operators only. -/
def Names.Registers (Good : OperatorRef → Prop) (names : Names) : Prop :=
  ∀ es, ∀ op ∈ names.operators es, Good op

namespace Body

variable {α β : Type} {Good : OperatorRef → Prop}

/-- Whatever names stand for, a script registers only such operators. -/
def Registers (Good : OperatorRef → Prop) (x : BodyScript α) : Prop :=
  ∀ locals, (x locals).Registers Good

namespace Registers

theorem pure (a : α) : Registers Good (pure a : BodyScript α) := fun _ => trivial

theorem bind {x : BodyScript α} {f : α → BodyScript β} (hx : Registers Good x)
    (hf : ∀ a, Registers Good (f a)) : Registers Good (x >>= f) :=
  fun locals => (hx locals).bind fun r => hf r.1 r.2

/-- What comes after a script whose result does not matter. -/
theorem andThen {x : BodyScript α} {y : BodyScript β} (hx : Registers Good x)
    (hy : Registers Good y) : Registers Good (x >>= fun _ => y) := hx.bind fun _ => hy

theorem drop {x : BodyScript α} {b : β} (hx : Registers Good x) :
    Registers Good (x >>= fun _ => Pure.pure b) := hx.andThen (.pure b)

theorem newScope {operators : List OperatorRef} (h : ∀ op ∈ operators, Good op) :
    Registers Good (newScope operators) := fun _ => ⟨h, fun _ => trivial⟩

theorem attach {operators : List OperatorRef} (id : ScopeId) (h : ∀ op ∈ operators, Good op) :
    Registers Good (attach id operators) := fun _ => ⟨h, trivial⟩

theorem linkAll (parent : ScopeId) (children : List (Option ScopeId)) :
    Registers Good (linkAll parent children) := by
  induction children with
  | nil => exact .pure ()
  | cons scope rest ih =>
    cases scope with
    | none => exact ih
    | some child => exact fun locals => ih locals

theorem serve (scope : Option ScopeId) : Registers Good (serve scope) := by
  cases scope with
  | none => exact .pure ()
  | some id => exact fun _ => trivial

theorem call (f : FnDecl) (args : List (Option ScopeId)) : Registers Good (call f args) :=
  fun _ _ => trivial

theorem ofPath (p : Path) : Registers Good (ofPath p) := by
  intro locals
  unfold Body.ofPath
  split
  · trivial
  · exact fun _ => trivial
  · trivial

theorem bindName (name : Option String) (scope : Option ScopeId) :
    Registers Good (bindName name scope) := by
  cases name <;> cases scope <;> exact fun _ => trivial

end Registers

section Evaluation

variable {names : Names}

mutual

theorem registers_expr (h : names.Registers Good) : ∀ e : Expr, Registers Good (expr names e)
  | .ref e | .paren e | .unary _ e | .attempt e | .await e | .closure _ _ e => by
    rw [expr]
    exact registers_expr h e
  | .block b | .uncheckedBlock b => by
    rw [expr]
    exact registers_block h none b
  | .returns (some e) => by
    rw [expr]
    exact registers_expr h e
  | .ifThen c b none => by
    rw [expr]
    exact (registers_expr h c).andThen (registers_block h none b).drop
  | .ifThen c b (some e) => by
    rw [expr]
    exact (registers_expr h c).andThen
      ((registers_block h none b).andThen (registers_expr h e).drop)
  | .matchOn e as => by
    rw [expr]
    exact (registers_expr h e).andThen (registers_arms h as).drop
  | .forLoop _ _ _ b | .whileLoop _ b | .loop b => by
    rw [expr]
    exact (registers_block h none b).drop
  | .assign left e => by
    rw [expr]
    exact (registers_expr h e).bind fun scope => (Registers.bindName _ scope).drop
  | .path p _ => by
    rw [expr]
    exact .ofPath p
  | .macroCall m => by
    rw [expr]
    exact registers_macroCall h m
  | .call g args => by
    rw [expr]
    split
    · exact (registers_exprs h args).drop
    · split
      · exact .newScope (h args)
      · split
        · exact (registers_serveAll h args).drop
        · split
          · exact (registers_exprs h args).bind fun scopes => .call _ scopes
          · refine (registers_exprs h args).bind fun scopes => ?_
            split <;> exact .pure _
  | .methodCall e name _ _ args => by
    rw [expr]
    split
    · refine (registers_expr h e).bind fun parent => ?_
      refine (registers_exprs h args).bind fun children => ?_
      split
      · exact (Registers.linkAll _ children).drop
      · exact .pure none
    · split
      · refine (registers_expr h e).bind fun target => ?_
        split
        · exact (Registers.attach _ (h args)).drop
        · exact .pure none
      · split
        · exact registers_expr h e
        · split
          · exact (registers_expr h e).bind fun scope =>
              (Registers.serve scope).andThen (registers_serveAll h args).drop
          · refine (registers_expr h e).andThen ?_
            split
            · exact (registers_exprs h args).bind fun scopes => .call _ scopes
            · exact (registers_exprs h args).drop
  | .tuple es => by
    rw [expr]
    exact (registers_exprs h es).drop
  | .lit _ | .rawAddress _ | .binary _ _ _ | .cast _ _ _ | .field _ _ | .index _ _ | .record _ _ _ _
  | .array _ | .repeated _ _ | .range _ _ | .constBlock _ | .asyncBlock _ | .tryBlock _
  | .letCond _ _ _ | .returns none | .breaks _ | .yields _ | .other => by
    simp only [expr]
    exact .pure none

theorem registers_exprs (h : names.Registers Good) : ∀ es : List Expr,
    Registers Good (exprs names es)
  | [] => by
    rw [exprs]
    exact .pure []
  | e :: es => by
    rw [exprs]
    exact (registers_expr h e).bind fun _ => (registers_exprs h es).bind fun _ => .pure _

theorem registers_serveAll (h : names.Registers Good) : ∀ es : List Expr,
    Registers Good (serveAll names es)
  | [] => by
    rw [serveAll]
    exact .pure ()
  | e :: es => by
    rw [serveAll]
    exact (registers_expr h e).bind fun scope =>
      (Registers.serve scope).andThen (registers_serveAll h es)

theorem registers_macroCall (h : names.Registers Good) : ∀ m : MacroCall,
    Registers Good (macroCall names m)
  | .mk path _ (some args) _ => by
    rw [macroCall]
    split
    · exact .newScope (h args)
    · exact (registers_exprs h args).drop
  | .mk _ _ none _ => by
    rw [macroCall]
    exact .pure none

theorem registers_arms (h : names.Registers Good) : ∀ as : List Arm, Registers Good (arms names as)
  | [] => by
    rw [arms]
    exact .pure ()
  | .mk _ _ _ body :: rest => by
    rw [arms]
    exact (registers_expr h body).andThen (registers_arms h rest)

theorem registers_block (h : names.Registers Good) (last : Option ScopeId) : ∀ b : List Stmt,
    Registers Good (block names last b)
  | [] => by
    rw [block]
    exact .pure last
  | s :: rest => by
    rw [block]
    exact (registers_stmt h s).bind fun last => registers_block h last rest

theorem registers_stmt (h : names.Registers Good) : ∀ s : Stmt, Registers Good (stmt names s)
  | .binding pattern _ (some e) _ => by
    rw [stmt]
    exact (registers_expr h e).bind fun scope => (Registers.bindName _ scope).drop
  | .binding _ _ none _ => by
    rw [stmt]
    exact .pure none
  | .expr _ e terminated => by
    rw [stmt]
    exact (registers_expr h e).bind fun _ => .pure _
  | .macroCall m => by
    rw [stmt]
    exact (registers_macroCall h m).drop
  | .item _ => by
    rw [stmt]
    exact .pure none

end

end Evaluation

end Body

variable {p : Program} {Good : OperatorRef → Prop}

theorem Names.registers_within (s : Scope) (owner : Option String) :
    (Names.within s owner).Registers (OperatorRef.Declared s.program) :=
  OperatorRef.declared_ofExprs s

theorem FnDecl.registers_script (f : FnDecl) (bound : Locals) :
    (f.script p bound).Registers (OperatorRef.Declared p) :=
  (Body.registers_block (Names.registers_within (f.scope p) f.owner) none f.body bound).map

theorem Declared.registers_script (d : Declared StaticItem) :
    (d.script p).Registers (OperatorRef.Declared p) :=
  (Body.registers_expr (Names.registers_within ⟨p, d.module, none⟩ none) d.item.value []).map

/-- The operators that a move registers. -/
def Move.operators : Move → List OperatorRef
  | .make operators => operators
  | .attach _ operators => operators
  | _ => []

namespace Replay

/-- The script that is carried out registers only such operators. -/
def Task.Registers (Good : OperatorRef → Prop) : Task → Prop
  | .script _ body => body.Registers Good
  | .jump _ => True
  | .turns _ => True

variable {t : Task} {s : ReplayState} {ms : List Move} {a : Option ScopeId}

theorem Step.registers {rights : Rights} {body next : Script (Option ScopeId)} {m : Move}
    (h : Step rights s body m next) (hb : body.Registers Good) :
    (∀ op ∈ m.operators, Good op) ∧ next.Registers Good := by
  cases h with
  | make => exact ⟨hb.1, hb.2 _⟩
  | link => exact ⟨by simp [Move.operators], hb⟩
  | attach => exact hb
  | serve => exact ⟨by simp [Move.operators], hb⟩

/-- The operators that a run registers are declared. -/
theorem Runs.declared (h : Runs p t s ms a) (ht : t.Registers (OperatorRef.Declared p)) :
    ∀ m ∈ ms, ∀ op ∈ m.operators, op.Declared p := by
  induction h with
  | done | known | busy | asked | undeclared | idle => simp
  | move hm _ ih =>
    obtain ⟨hop, hnext⟩ := hm.registers ht
    exact List.forall_mem_cons.mpr ⟨hop, ih hnext⟩
  | unserved _ _ ih => exact ih ht
  | static _ _ ih ih' | call _ _ ih ih' =>
    exact List.forall_mem_append.mpr ⟨ih trivial, ih' (ht _)⟩
  | turn _ _ ih ih' => exact List.forall_mem_append.mpr ⟨ih trivial, ih' trivial⟩
  | @body f way _ _ _ _ _ _ ih =>
    have ih := ih (f.registers_script way.params)
    simpa [Move.operators, or_imp, forall_and] using ih
  | @value _ d _ _ _ _ _ _ ih =>
    have ih := ih d.registers_script
    simpa [Move.operators, or_imp, forall_and] using ih

end Replay

/-- All operators of all scopes are such. -/
def ScopeForest.Holds (Good : OperatorRef → Prop) (f : ScopeForest) : Prop :=
  ∀ id, ∀ op ∈ (f.scope id).operators, Good op

theorem ScopeForest.operators_link {f : ScopeForest} {q c id : ScopeId} :
    ((f.link q c).scope id).operators = (f.scope id).operators := by
  unfold link
  split
  · rfl
  · simp only [scope, Array.getElem?_modify]
    cases f.scopes[id]? <;> split <;> split <;> simp

namespace ReplayState

variable {s : ReplayState} {m : Move} {ms : List Move}

theorem holds_apply (h : s.forest.Holds Good) (hm : ∀ op ∈ m.operators, Good op) :
    (s.apply m).forest.Holds Good := by
  intro id op hop
  cases m with
  | make operators =>
    simp only [apply, ScopeForest.scope_add] at hop
    split at hop
    · exact hm op hop
    · exact h id op hop
  | attach target operators =>
    simp only [apply, ScopeForest.scope_attach] at hop
    split at hop
    · exact (List.mem_append.mp hop).elim (h id op) (hm op)
    · exact h id op hop
  | link parent child =>
    simp only [apply, ScopeForest.operators_link] at hop
    exact h id op hop
  | _ => exact h id op hop

theorem holds_after (h : s.forest.Holds Good) (hm : ∀ m ∈ ms, ∀ op ∈ m.operators, Good op) :
    (s.after ms).forest.Holds Good := by
  induction ms generalizing s with
  | nil => exact h
  | cons m ms ih =>
    obtain ⟨hm, hms⟩ := List.forall_mem_cons.mp hm
    exact ih (holds_apply h hm) hms

end ReplayState

namespace RouteTree

variable {t : RouteTree} {entryPoints : List String}

theorem holds_routesUnder (h : t.forest.Holds Good) (n : Nat) {above : List OperatorRef}
    (ha : ∀ op ∈ above, Good op) (id : ScopeId) :
    ∀ r ∈ t.routesUnder n above id, ∀ op ∈ r.chain, Good op := by
  induction n generalizing above id with
  | zero => simp [routesUnder]
  | succ n ih =>
    have hc : ∀ op ∈ above ++ (t.forest.scope id).operators, Good op :=
      List.forall_mem_append.mpr ⟨ha, h id⟩
    intro r hr
    rw [routesUnder] at hr
    split at hr
    · split at hr
      · cases hr
      · exact List.mem_singleton.mp hr ▸ hc
    · obtain ⟨child, -, hr⟩ := List.mem_flatMap.mp hr
      exact ih hc child r hr

/-- Every operator of every route is a group or a declared struct. -/
theorem declared_routes (h : ofProgram p entryPoints = .ok t) :
    ∀ r ∈ t.routes, ∀ op ∈ r.chain, op.Declared p := by
  have hforest : t.forest.Holds (OperatorRef.Declared p) := by
    unfold ofProgram at h
    dsimp only at h
    split at h <;> cases h
    refine ReplayState.holds_after (fun id op hop => ?_)
      ((Replay.runs_moves p entryPoints).declared trivial)
    simp [ScopeForest.scope] at hop
  intro r hr
  exact holds_routesUnder hforest _ (by simp) _ r (List.mem_mergeSort.mp hr)

end RouteTree

end ServiceContract
