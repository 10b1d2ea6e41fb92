import ServiceContract.Route.Body

/-! # Readings of bodies

A body can be read with other values than scopes, and with other rules for its names. A reading says
what the single steps mean; which steps an expression is made of, and in what order, is told here
once for all readings. The scripts of bodies are one of them.
-/

namespace ServiceContract

open Source

/-- What the steps of a body mean. -/
structure BodyReading (m : Type → Type) (α : Type) where
  /-- The value of what is no scope. -/
  nothing : α
  ofPath (p : Path) : m α
  newScope (operators : List OperatorRef) : m α
  register (parent : α) (children : List α) : m α
  attach (target : α) (operators : List OperatorRef) : m α
  serve (value : α) : m Unit
  call (f : FnDecl) (args : List α) : m α
  /-- The value of a call that means no function of the program. -/
  wrapped (args : List α) : α
  /-- A `let` binds a name, to a value if it has one. -/
  bind (name : Option String) (value : Option α) : m Unit
  assign (name : Option String) (value : α) : m Unit
  /-- What a part of a body means that has names of its own, by what its steps mean. -/
  nested (steps : m α) : m α

/-- The names that a condition binds where it is true. -/
def conditionNames : Expr → List String
  | .letCond names _ _ => names
  | .binary _ l r => conditionNames l ++ conditionNames r
  | _ => []

namespace BodyReading

open Body

variable {m : Type → Type} [Monad m] {α : Type} (r : BodyReading m α) (names : Names)

/-- A pattern binds names to parts of a value, which are no scopes. -/
def partNames : List String → m Unit
  | [] => return
  | n :: ns => do
    r.bind (some n) (some r.nothing)
    partNames ns

/-- A part of a body where a pattern binds names. -/
def under (parts : List String) (steps : m α) : m α :=
  r.nested do
    r.partNames parts
    steps

mutual

/-- The steps of an expression, and its value. -/
def expr : Expr → m α
  | .ref e => expr e
  | .paren e => expr e
  | .unary _ e => expr e
  | .attempt e => expr e
  | .await e => expr e
  | .closure parts _ e => r.under parts (expr e)
  | .block b => r.nested (block r.nothing b)
  | .uncheckedBlock b => r.nested (block r.nothing b)
  | .returns (some e) => expr e
  | .ifThen c b otherwise => do
    let _ ← expr c
    let _ ← r.under (conditionNames c) (block r.nothing b)
    match otherwise with
    | some e =>
      let _ ← expr e
      return r.nothing
    | none => return r.nothing
  | .matchOn e as => do
    let _ ← expr e
    arms as
    return r.nothing
  | .forLoop parts _ _ b => do
    let _ ← r.under parts (block r.nothing b)
    return r.nothing
  | .whileLoop c b => do
    let _ ← r.under (conditionNames c) (block r.nothing b)
    return r.nothing
  | .loop b => do
    let _ ← r.nested (block r.nothing b)
    return r.nothing
  | .assign left e => do
    let value ← expr e
    r.assign (assignedName? left) value
    return r.nothing
  | .path p _ => r.ofPath p
  | .macroCall call => macroCall call
  | .call g args =>
    match calleePath? g with
    | none => do
      let _ ← exprs args
      return r.nothing
    | some segments =>
      if makesRouter segments then r.newScope (names.operators args)
      else if segments.getLast?.any isServe then do
        serveAll args
        return r.nothing
      else
        match names.function? segments with
        | some f => do
          let values ← exprs args
          r.call f values
        | none => do
          let values ← exprs args
          return r.wrapped values
  | .methodCall e name _ _ args =>
    if name == "register" then do
      let parent ← expr e
      let children ← exprs args
      r.register parent children
    else if name == "attach" then do
      let target ← expr e
      r.attach target (names.operators args)
    else if keepingMethods.contains name then expr e
    else if isServe name then do
      let value ← expr e
      r.serve value
      serveAll args
      return r.nothing
    else do
      let _ ← expr e
      match if isSelf e then names.method? name else none with
      | some f =>
        let values ← exprs args
        r.call f values
      | none =>
        let _ ← exprs args
        return r.nothing
  | .tuple es => do
    let _ ← exprs es
    return r.nothing
  | _ => return r.nothing

def exprs : List Expr → m (List α)
  | [] => return []
  | e :: es => do
    let value ← expr e
    return value :: (← exprs es)

def serveAll : List Expr → m Unit
  | [] => return
  | e :: es => do
    let value ← expr e
    r.serve value
    serveAll es

def macroCall : MacroCall → m α
  | .mk path _ (some args) _ =>
    if path.last? == some "router" then r.newScope (names.operators args)
    else do
      let _ ← exprs args
      return r.nothing
  | .mk _ _ none _ => return r.nothing

def arms : List Arm → m Unit
  | [] => return
  | .mk parts _ _ body :: rest => do
    let _ ← r.under parts (expr body)
    arms rest

def block (last : α) : List Stmt → m α
  | [] => return last
  | s :: rest => do
    let last ← stmt s
    block last rest

def stmt : Stmt → m α
  | .binding pattern _ (some e) _ => do
    let value ← expr e
    r.bind pattern.whole? (some value)
    r.partNames pattern.parts
    return r.nothing
  | .binding pattern _ none _ => do
    r.bind pattern.whole? none
    r.partNames pattern.parts
    return r.nothing
  | .expr _ e terminated => do
    let value ← expr e
    return if terminated then r.nothing else value
  | .macroCall call => do
    let _ ← macroCall call
    return r.nothing
  | .item _ => return r.nothing

end

end BodyReading

namespace Body

/-- The steps of scripts of bodies: all names of a body stand in one table, where blocks and names
of parts of values change nothing. -/
def flat : BodyReading BodyScript (Option ScopeId) where
  nothing := none
  ofPath := ofPath
  newScope := newScope
  register parent children :=
    match parent with
    | some id => do
      linkAll id children
      return parent
    | none => return none
  attach target operators :=
    match target with
    | some id => do
      attach id operators
      return target
    | none => return none
  serve := serve
  call := call
  wrapped args :=
    match args with
    | [scope] => scope
    | _ => none
  bind name scope := bindName name scope.join
  assign := bindName
  nested statements := statements

variable {names : Names}

theorem flat_partNames (parts : List String) : flat.partNames parts = pure () := by
  induction parts with
  | nil => rfl
  | cons n ns ih =>
    rw [BodyReading.partNames, ih]
    rfl

theorem flat_under (parts : List String) (steps : BodyScript (Option ScopeId)) :
    flat.under parts steps = steps := by
  rw [BodyReading.under, flat_partNames]
  rfl

mutual

theorem flat_expr : ∀ e : Expr, flat.expr names e = expr names e
  | .ref e | .paren e | .unary _ e | .attempt e | .await e => by
    rw [BodyReading.expr, expr, flat_expr e]
  | .closure _ _ e => by rw [BodyReading.expr, expr, flat_under, flat_expr e]
  | .block b | .uncheckedBlock b => by
    rw [BodyReading.expr, expr]
    exact flat_block none b
  | .returns (some e) => by rw [BodyReading.expr, expr, flat_expr e]
  | .ifThen c b none => by
    rw [BodyReading.expr, expr, flat_under, flat_expr c, ← flat_block none b]
    rfl
  | .ifThen c b (some e) => by
    rw [BodyReading.expr, expr, flat_under, flat_expr c, ← flat_block none b]
    simp only [flat_expr e]
    rfl
  | .matchOn e as => by
    rw [BodyReading.expr, expr, flat_expr e, flat_arms as]
    rfl
  | .forLoop _ _ _ b | .whileLoop _ b => by
    rw [BodyReading.expr, expr, flat_under, ← flat_block none b]
    rfl
  | .loop b => by
    rw [BodyReading.expr, expr, ← flat_block none b]
    rfl
  | .assign left e => by
    rw [BodyReading.expr, expr, flat_expr e]
    rfl
  | .path p _ => by
    rw [BodyReading.expr, expr]
    rfl
  | .macroCall m => by rw [BodyReading.expr, expr, flat_macroCall m]
  | .call g args => by
    rw [BodyReading.expr, expr]
    cases calleePath? g with
    | none =>
      simp only [flat_exprs args]
      rfl
    | some segments =>
      simp only [flat_exprs args, flat_serveAll args]
      split
      · rfl
      · split
        · rfl
        · cases names.function? segments with
          | some f => rfl
          | none =>
            refine bind_congr fun scopes => ?_
            match scopes with
            | [] | [_] | _ :: _ :: _ => rfl
  | .methodCall e name _ _ args => by
    rw [BodyReading.expr, expr, flat_expr e, flat_exprs args, flat_serveAll args]
    split
    · rfl
    · split
      · rfl
      · split
        · rfl
        · split
          · rfl
          · cases (if isSelf e then names.method? name else none) <;> rfl
  | .tuple es => by
    rw [BodyReading.expr, expr, flat_exprs es]
    rfl
  | .lit _ | .rawAddress _ | .binary _ _ _ | .cast _ _ _ | .field _ _ | .index _ _ | .record _ _ _ _
  | .array _ | .repeated _ _ | .range _ _ | .constBlock _ | .asyncBlock _ | .tryBlock _
  | .letCond _ _ _ | .returns none | .breaks _ | .yields _ | .other => by
    simp only [BodyReading.expr, expr]
    rfl

theorem flat_exprs : ∀ es : List Expr, flat.exprs names es = exprs names es
  | [] => by rw [BodyReading.exprs, exprs]
  | e :: es => by rw [BodyReading.exprs, exprs, flat_expr e, flat_exprs es]

theorem flat_serveAll : ∀ es : List Expr, flat.serveAll names es = serveAll names es
  | [] => by rw [BodyReading.serveAll, serveAll]
  | e :: es => by
    rw [BodyReading.serveAll, serveAll, flat_expr e, flat_serveAll es]
    rfl

theorem flat_macroCall : ∀ m : MacroCall, flat.macroCall names m = macroCall names m
  | .mk path _ (some args) _ => by
    rw [BodyReading.macroCall, macroCall, flat_exprs args]
    rfl
  | .mk _ _ none _ => by
    rw [BodyReading.macroCall, macroCall]
    rfl

theorem flat_arms : ∀ as : List Arm, flat.arms names as = arms names as
  | [] => by rw [BodyReading.arms, arms]
  | .mk _ _ _ body :: rest => by
    rw [BodyReading.arms, arms, flat_under, flat_expr body, flat_arms rest]

theorem flat_block (last : Option ScopeId) : ∀ b : List Stmt,
    flat.block names last b = block names last b
  | [] => by rw [BodyReading.block, block]
  | s :: rest => by
    rw [BodyReading.block, block, flat_stmt s]
    simp only [fun last => flat_block last rest]

theorem flat_stmt : ∀ s : Stmt, flat.stmt names s = stmt names s
  | .binding pattern _ (some e) _ => by
    rw [BodyReading.stmt, stmt, flat_expr e, flat_partNames]
    rfl
  | .binding pattern _ none _ => by
    rw [BodyReading.stmt, stmt, flat_partNames]
    cases pattern.whole? <;> rfl
  | .expr _ e terminated => by
    rw [BodyReading.stmt, stmt, flat_expr e]
    rfl
  | .macroCall m => by
    rw [BodyReading.stmt, stmt, flat_macroCall m]
    rfl
  | .item _ => by
    rw [BodyReading.stmt, stmt]
    rfl

end

end Body

end ServiceContract
