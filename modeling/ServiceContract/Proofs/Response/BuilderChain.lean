import ServiceContract.Response.BuilderChain

/-! # Builder chains as they are carried out

A chain is carried out from its base outwards, and each known call sets one part of the response,
whatever a call before it has set there. Reading the chain the other way around, from the outermost
call inwards, comes to the same, and it finds nothing exactly if a known call lacks a constant.
-/

namespace ServiceContract

open Source

/-- A known call of a builder chain, with what stands where it takes a constant or a type. -/
inductive BuilderCall
  | status (code : Option Expr)
  | contentType (text : Option Expr)
  | schema (type : Option TypeExpr)
  | attachment (file type : Option Expr)

/-- What a known call says. -/
inductive ChainSetting
  | status (code : Int)
  | contentType (text : String)
  | schema (type : TypeExpr)
  | attachment (file type : String)

namespace BuilderCall

def ofMethod? (method : String) (types : List TypeExpr) (args : List Expr) : Option BuilderCall :=
  match method with
  | "with_status" => some (.status args.head?)
  | "with_content_type" => some (.contentType args.head?)
  | "with_schema" => some (.schema types.head?)
  | _ => none

def ofFunction? (function : Expr) (args : List Expr) : Option BuilderCall :=
  match (calleePath? function).map List.reverse with
  | some ("new" :: "Attachment" :: _) => some (.attachment args[0]? args[1]?)
  | _ => none

/-- The known calls of a chain, from its base outwards. -/
def ofChain : Expr → List BuilderCall
  | .methodCall e method types _ args => ofChain e ++ (ofMethod? method types args).toList
  | .call f args => (ofFunction? f args).toList
  | .paren e | .ref e | .attempt e | .await e => ofChain e
  | _ => []

/-- What the call says, unless it lacks its constants. -/
def setting? (s : Scope) : BuilderCall → Option ChainSetting
  | status code => (code.bind s.evalInt).map .status
  | contentType text => (text.bind s.evalStr).map .contentType
  | schema type => type.map .schema
  | attachment file type =>
    (file.bind s.evalStr).bind fun file =>
      (type.bind s.evalStr).map fun type => .attachment file type

end BuilderCall

namespace ChainRules

/-- The rules after one more call. A status that does not fit is no status. -/
def set (r : ChainRules) : ChainSetting → ChainRules
  | .status n => { r with status := (status? n).or r.status }
  | .contentType c => { r with contentType := some c }
  | .schema t => { r with schema := some t }
  | .attachment file type => { r with attachment := some (file, type) }

/-- The rules when the calls of a chain have been carried out one after the other. -/
def carryOut (settings : List ChainSetting) : ChainRules := settings.foldl set {}

/-- Rules that count before others. -/
def above (outer inner : ChainRules) : ChainRules where
  status := outer.status.or inner.status
  contentType := outer.contentType.or inner.contentType
  schema := outer.schema.or inner.schema
  attachment := outer.attachment.or inner.attachment

variable {s : Scope} {r : ChainRules} {e : Expr}

theorem above_set (r inner : ChainRules) (x : ChainSetting) :
    (r.above (set {} x)).above inner = r.above (inner.set x) := by
  cases x <;> simp [above, set, Option.or_assoc]

theorem addCall_eq (r : ChainRules) (method : String) (types : List TypeExpr) (args : List Expr) :
    r.addCall s method types args =
      match BuilderCall.ofMethod? method types args with
      | some c => (c.setting? s).map fun x => r.above (set {} x)
      | none => some r := by
  fun_cases BuilderCall.ofMethod? method types args with
  | case1 => simp [addCall, BuilderCall.setting?, Function.comp_def, above, set]
  | case2 => simp [addCall, BuilderCall.setting?, Function.comp_def, above, set]
  | case3 => simp [addCall, BuilderCall.setting?, Function.comp_def, above, set]
  | case4 => rw [addCall] <;> assumption

theorem addBase_eq (f : Expr) (args : List Expr) (hr : r.attachment = none) :
    r.addBase s f args =
      match BuilderCall.ofFunction? f args with
      | some c => (c.setting? s).map fun x => r.above (set {} x)
      | none => some r := by
  fun_cases BuilderCall.ofFunction? f args with
  | case1 front h =>
    rw [addBase, h]
    simp [BuilderCall.setting?, Option.map_bind, Function.comp_def, above, set, hr]
  | case2 hne =>
    unfold addBase
    split
    · exact (hne _ ‹_›).elim
    · rfl

theorem attachment_addCall {r' : ChainRules} {method : String} {types : List TypeExpr}
    {args : List Expr} (h : r.addCall s method types args = some r') :
    r'.attachment = r.attachment := by
  unfold addCall at h
  split at h
  · obtain ⟨_, _, rfl⟩ := Option.map_eq_some_iff.1 h
    rfl
  · obtain ⟨_, _, rfl⟩ := Option.map_eq_some_iff.1 h
    rfl
  · obtain ⟨_, _, rfl⟩ := Option.map_eq_some_iff.1 h
    rfl
  · cases h
    rfl

theorem above_carryOut_append (settings : List ChainSetting) (x : ChainSetting) :
    r.above (carryOut (settings ++ [x])) = (r.above (set {} x)).above (carryOut settings) := by
  rw [above_set, carryOut, carryOut, List.foldl_append]
  rfl

theorem above_carryOut_nil : r.above (carryOut []) = r := by
  simp [above, carryOut]

/-- What the calls come to that are carried out from the base outwards, with rules of calls around
them that count before. -/
theorem scan_eq (r : ChainRules) (e : Expr) (hr : r.attachment = none) :
    scan s r e =
      ((BuilderCall.ofChain e).mapM (BuilderCall.setting? s)).map fun settings =>
        r.above (carryOut settings) := by
  fun_induction scan s r e with
  | case1 r e method types inner args ih =>
    rw [addCall_eq, BuilderCall.ofChain]
    cases hc : BuilderCall.ofMethod? method types args with
    | none => simpa using ih r hr
    | some c =>
      cases hx : c.setting? s with
      | none => simp [hx]
      | some x =>
        have hcall : r.addCall s method types args = some (r.above (set {} x)) := by
          simp [addCall_eq, hc, hx]
        have hrest := ih _ ((attachment_addCall hcall).trans hr)
        cases hl : (BuilderCall.ofChain e).mapM (BuilderCall.setting? s) with
        | none => simp [hx, hl, hrest]
        | some settings => simp [hx, hl, hrest, above_carryOut_append]
  | case2 r f args =>
    rw [addBase_eq f args hr, BuilderCall.ofChain]
    cases BuilderCall.ofFunction? f args with
    | none => simp [above_carryOut_nil]
    | some c =>
      cases hx : c.setting? s with
      | none => simp [hx]
      | some x => simp [hx, carryOut]
  | case3 r e ih => simpa [BuilderCall.ofChain] using ih hr
  | case4 r e ih => simpa [BuilderCall.ofChain] using ih hr
  | case5 r e ih => simpa [BuilderCall.ofChain] using ih hr
  | case6 r e ih => simpa [BuilderCall.ofChain] using ih hr
  | case7 e r =>
    rw [BuilderCall.ofChain] <;> try assumption
    simp [above_carryOut_nil]

theorem scan_empty_eq :
    scan s {} e = ((BuilderCall.ofChain e).mapM (BuilderCall.setting? s)).map carryOut :=
  scan_eq {} e rfl

theorem mapM_eq_none_iff {α β : Type} {f : α → Option β} {l : List α} :
    l.mapM f = none ↔ ∃ a ∈ l, f a = none := by
  induction l with
  | nil => simp
  | cons a l ih =>
    cases ha : f a with
    | none => simp [ha]
    | some b =>
      cases hl : l.mapM f with
      | none => simp [ha, hl, ih.1 hl]
      | some bs => simpa [ha, hl] using ih

/-- A chain that a function may return without an effect on its response. -/
def Silent (s : Scope) (e : Expr) : Prop := scan s {} e = none ∨ scan s {} e = some {}

/-- The rules of a chain that sets anything. -/
def effect? (s : Scope) (e : Expr) : Option ChainRules := (scan s {} e).filter (· ≠ {})

theorem effect?_eq_none_iff : effect? s e = none ↔ Silent s e := by
  cases h : scan s {} e <;> simp [effect?, Silent, h]

theorem effect?_eq_some_iff : effect? s e = some r ↔ scan s {} e = some r ∧ r ≠ {} := by
  simp [effect?, Option.filter_eq_some_iff]

theorem ofBody_eq (s : Scope) (body : Block) :
    ofBody s body = ((returned body).findSome? (effect? s)).getD {} := by
  unfold ofBody
  congr 2
  funext e
  cases h : scan s {} e <;> simp [effect?, h, Option.filter]

theorem ofBody_cases (s : Scope) (body : Block) :
    (∃ front e back, returned body = front ++ e :: back ∧ (∀ x ∈ front, Silent s x) ∧
      scan s {} e = some (ofBody s body) ∧ ofBody s body ≠ {}) ∨
    ((∀ x ∈ returned body, Silent s x) ∧ ofBody s body = {}) := by
  rw [ofBody_eq]
  cases h : (returned body).findSome? (effect? s) with
  | none =>
    have hnone := List.findSome?_eq_none_iff.1 h
    exact .inr ⟨fun x hx => effect?_eq_none_iff.1 (hnone x hx), rfl⟩
  | some rules =>
    obtain ⟨front, e, back, hl, he, hfront⟩ := List.findSome?_eq_some_iff.1 h
    exact .inl ⟨front, e, back, hl, fun x hx => effect?_eq_none_iff.1 (hfront x hx),
      effect?_eq_some_iff.1 he⟩

/-- A chain without a constant where one has to stand has no rules, any other the ones that its
known calls set from the base outwards. A function has the rules of the first chain it returns that
sets anything, and none without such a chain. -/
theorem read_as_carried_out :
    (∀ (s : Scope) (e : Expr),
      (scan s {} e = none ↔ ∃ c ∈ BuilderCall.ofChain e, c.setting? s = none) ∧
      scan s {} e = ((BuilderCall.ofChain e).mapM (BuilderCall.setting? s)).map carryOut) ∧
    ∀ (p : Program) (f : FnDecl),
      (∃ front e back, returned f.body = front ++ e :: back ∧
        (∀ x ∈ front, Silent (f.scope p) x) ∧
        scan (f.scope p) {} e = some (f.chainRules p) ∧ f.chainRules p ≠ {}) ∨
      ((∀ x ∈ returned f.body, Silent (f.scope p) x) ∧ f.chainRules p = {}) := by
  refine ⟨fun s e => ⟨?_, scan_empty_eq⟩, fun p f => ofBody_cases (f.scope p) f.body⟩
  rw [scan_empty_eq, Option.map_eq_none_iff, mapM_eq_none_iff]

def withStatus (e : Expr) (n : Nat) : Expr :=
  .methodCall e "with_status" [] [] [.lit (.int false n)]

/-- The second status replaces the first one, and the third one does not fit. -/
example (s : Scope) (e : Path) :
    scan s {} (withStatus (.attempt (withStatus (withStatus (.path e []) 200) 201)) 70000) =
      some { status := some 201 } := rfl

end ChainRules

end ServiceContract
