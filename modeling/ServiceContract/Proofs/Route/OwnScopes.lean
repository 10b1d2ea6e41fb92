import ServiceContract.Proofs.Route.Body
import ServiceContract.Proofs.Route.Run

/-! # Routers that a value makes itself

A constructor or a router macro makes a scope, and registrations, closures, wrapping calls and
blocks pass it on. The result of a script of this kind is a scope that one of its own moves makes,
whatever the names in it stand for and whatever the statics and functions that it asks for give.
-/

namespace ServiceContract

open Source

namespace Script

variable {α β : Type} {P : α → Prop} {Q : β → Prop}

/-- All results that a script can have, whatever it is answered. -/
def Ends (P : α → Prop) : Script α → Prop
  | done a => P a
  | make _ next => ∀ id, (next id).Ends P
  | link _ _ next => next.Ends P
  | attach _ _ next => next.Ends P
  | serve _ next => next.Ends P
  | static _ next => ∀ scope, (next scope).Ends P
  | call _ _ next => ∀ scope, (next scope).Ends P

theorem ends_true (x : Script α) : x.Ends fun _ => True := by
  induction x with
  | done => trivial
  | make _ _ ih | static _ _ ih | call _ _ _ ih => exact ih
  | link _ _ _ ih | attach _ _ _ ih | serve _ _ ih => exact ih

theorem Ends.bind {x : Script α} {f : α → Script β} (hx : x.Ends P)
    (hf : ∀ a, P a → (f a).Ends Q) : (x.bind f).Ends Q := by
  induction x with
  | done a => exact hf a hx
  | make _ _ ih | static _ _ ih | call _ _ _ ih => exact fun a => ih a (hx a)
  | link _ _ _ ih | attach _ _ _ ih | serve _ _ ih => exact ih hx

/-- A script that makes the scope which is its result, at some time and however it is answered. -/
inductive Makes (of : α → Option ScopeId) : Script α → Prop
  | own {operators next} : (∀ id, (next id).Ends fun a => of a = some id) →
    Makes of (.make operators next)
  | make {operators next} : (∀ id, Makes of (next id)) → Makes of (.make operators next)
  | link {parent child next} : Makes of next → Makes of (.link parent child next)
  | attach {id operators next} : Makes of next → Makes of (.attach id operators next)
  | serve {id next} : Makes of next → Makes of (.serve id next)
  | static {name next} : (∀ scope, Makes of (next scope)) → Makes of (.static name next)
  | call {f args next} : (∀ scope, Makes of (next scope)) → Makes of (.call f args next)

/-- The scope that has been made stays the result if what comes after it gives it back. -/
theorem Makes.bind {of : α → Option ScopeId} {of' : β → Option ScopeId} {x : Script α}
    {f : α → Script β} (hx : x.Makes of)
    (hf : ∀ a id, of a = some id → (f a).Ends fun b => of' b = some id) :
    (x.bind f).Makes of' := by
  induction hx with
  | own h => exact .own fun id => (h id).bind fun a ha => hf a id ha
  | make _ ih => exact .make ih
  | link _ ih => exact .link ih
  | attach _ ih => exact .attach ih
  | serve _ ih => exact .serve ih
  | static _ ih => exact .static ih
  | call _ ih => exact .call ih

/-- It may also be made after other steps. -/
theorem Makes.after {of : β → Option ScopeId} {f : α → Script β} (x : Script α)
    (hf : ∀ a, (f a).Makes of) : (x.bind f).Makes of := by
  induction x with
  | done a => exact hf a
  | make _ _ ih => exact .make ih
  | link _ _ _ ih => exact .link ih
  | attach _ _ _ ih => exact .attach ih
  | serve _ _ ih => exact .serve ih
  | static _ _ ih => exact .static ih
  | call _ _ _ ih => exact .call ih

end Script

/-- An expression whose value is a router that it makes itself: a constructor or a router macro, in
registrations, in what passes a value on, and at the end of blocks. -/
inductive RouterChain (names : Names) : Expr → Prop
  | new {f args segments} : calleePath? f = some segments → Body.makesRouter segments = true →
    RouterChain names (.call f args)
  | macroCall {path braced args entries} : path.last? = some "router" →
    RouterChain names (.macroCall (.mk path braced (some args) entries))
  | register {e generics types args} : RouterChain names e →
    RouterChain names (.methodCall e "register" generics types args)
  | attach {e generics types args} : RouterChain names e →
    RouterChain names (.methodCall e "attach" generics types args)
  | kept {e method generics types args} : method ∈ Body.keepingMethods → RouterChain names e →
    RouterChain names (.methodCall e method generics types args)
  /-- A function that the program does not declare passes its only argument on. -/
  | wrapped {f e segments} : calleePath? f = some segments →
    segments.getLast?.any Body.isServe = false → names.function? segments = none →
    RouterChain names e → RouterChain names (.call f [e])
  | ref {e} : RouterChain names e → RouterChain names (.ref e)
  | paren {e} : RouterChain names e → RouterChain names (.paren e)
  | unary {op e} : RouterChain names e → RouterChain names (.unary op e)
  | attempt {e} : RouterChain names e → RouterChain names (.attempt e)
  | await {e} : RouterChain names e → RouterChain names (.await e)
  | returns {e} : RouterChain names e → RouterChain names (.returns (some e))
  | closure {parts inner e} : RouterChain names e → RouterChain names (.closure parts inner e)
  | block {statements attributes e} : RouterChain names e →
    RouterChain names (.block (statements ++ [.expr attributes e false]))
  | uncheckedBlock {statements attributes e} : RouterChain names e →
    RouterChain names (.uncheckedBlock (statements ++ [.expr attributes e false]))

/-- Whatever the names stand for, the result is a scope that is made on the way. -/
def BodyScript.MakesScope (x : BodyScript (Option ScopeId)) : Prop :=
  ∀ locals, (x locals).Makes Prod.fst

namespace BodyScript

theorem MakesScope.bind {x : BodyScript (Option ScopeId)}
    {f : Option ScopeId → BodyScript (Option ScopeId)} (hx : x.MakesScope)
    (hf : ∀ id locals, (f (some id) locals).Ends fun r => r.1 = some id) :
    (x >>= f).MakesScope := by
  refine fun locals => (hx locals).bind ?_
  rintro ⟨_, locals'⟩ id rfl
  exact hf id locals'

theorem MakesScope.after {α : Type} {f : α → BodyScript (Option ScopeId)} (x : BodyScript α)
    (hf : ∀ a, (f a).MakesScope) : (x >>= f).MakesScope := fun locals =>
  .after (x locals) fun r => hf r.1 r.2

theorem makesScope_newScope (operators : List OperatorRef) :
    (Body.newScope operators).MakesScope := fun _ => .own fun _ => rfl

end BodyScript

open BodyScript in
/-- The value of a block is that of its last expression. -/
theorem Body.makesScope_block {names : Names} {attributes : List Expr} {e : Expr}
    (he : (expr names e).MakesScope) (last : Option ScopeId) (statements : List Stmt) :
    (block names last (statements ++ [.expr attributes e false])).MakesScope := by
  induction statements generalizing last with
  | nil =>
    have hlast : (stmt names (.expr attributes e false)).MakesScope := by
      rw [stmt]
      exact he.bind fun _ _ => rfl
    rw [List.nil_append, block]
    exact hlast.bind fun _ _ => by
      rw [block]
      rfl
  | cons s rest ih =>
    rw [List.cons_append, block]
    exact .after _ ih

theorem RouterChain.makesScope {names : Names} {e : Expr} (h : RouterChain names e) :
    (Body.expr names e).MakesScope := by
  induction h with
  | new hpath hnew =>
    simp only [Body.expr, hpath, hnew, if_true]
    exact BodyScript.makesScope_newScope _
  | macroCall hpath =>
    simp only [Body.expr, Body.macroCall, hpath, beq_self_eq_true, if_true]
    exact BodyScript.makesScope_newScope _
  | register _ ih =>
    rw [Body.expr, if_pos (beq_self_eq_true _)]
    exact ih.bind fun id locals =>
      (Script.ends_true _).bind fun _ _ => (Script.ends_true _).bind fun _ _ => rfl
  | attach _ ih =>
    rw [Body.expr, if_neg (by decide), if_pos (beq_self_eq_true _)]
    exact ih.bind fun id locals => (Script.ends_true _).bind fun _ _ => rfl
  | @kept _ method _ _ _ hkept _ ih =>
    have hne : ∀ name ∉ Body.keepingMethods, ¬(method == name) = true := fun _ hn he =>
      hn (beq_iff_eq.mp he ▸ hkept)
    rw [Body.expr, if_neg (hne _ (by decide)), if_neg (hne _ (by decide)),
      if_pos (List.contains_iff_mem.mpr hkept)]
    exact ih
  | @wrapped _ _ segments hpath hserve hnone _ ih =>
    cases hnew : Body.makesRouter segments with
    | true =>
      simp only [Body.expr, hpath, hnew, if_true]
      exact BodyScript.makesScope_newScope _
    | false =>
      simpa [Body.expr, Body.exprs, hpath, hnew, hserve, hnone] using ih
  | ref _ ih | paren _ ih | unary _ ih | attempt _ ih | await _ ih | returns _ ih | closure _ ih =>
    rw [Body.expr]
    exact ih
  | block _ ih | uncheckedBlock _ ih =>
    rw [Body.expr]
    exact Body.makesScope_block ih none _

theorem RouterChain.makes_script {p : Program} {d : Declared StaticItem}
    (h : RouterChain (.within ⟨p, d.module, none⟩ none) d.item.value) :
    (d.script p).Makes id :=
  (h.makesScope []).bind fun _ _ hr => hr

namespace Replay

open ReplayState

variable {p : Program} {s : ReplayState} {a : Option ScopeId} {ms pre post : List Move}

theorem Step.ends {rights : Rights} {body next : Script (Option ScopeId)} {m : Move}
    {P : Option ScopeId → Prop} (h : Step rights s body m next) (hb : body.Ends P) :
    next.Ends P := by
  cases h with
  | make => exact hb _
  | link | attach | serve => exact hb

/-- A script has one of the results that it can have. -/
theorem Runs.ends {rights : Rights} {body : Script (Option ScopeId)} {P : Option ScopeId → Prop}
    (h : Runs p (.script rights body) s ms a) (hb : body.Ends P) : P a := by
  generalize ht : Task.script rights body = t at h
  induction h generalizing body with
  | done =>
    cases ht
    exact hb
  | move hm _ ih =>
    cases ht
    exact ih (hm.ends hb) rfl
  | @unserved _ _ next _ _ _ _ _ ih =>
    cases ht
    exact ih (show next.Ends P from hb) rfl
  | static _ _ _ ih' | call _ _ _ ih' =>
    cases ht
    exact ih' (hb _) rfl
  | _ => cases ht

/-- Every static that is entered by the moves is left by them. -/
def Closed (ms : List Move) : Prop :=
  ∀ name, .enter name ∈ ms → ∃ scope, .leave name scope ∈ ms

theorem Closed.append (h : Closed pre) (h' : Closed post) : Closed (pre ++ post) := by
  intro name hname
  rcases List.mem_append.mp hname with hname | hname
  · obtain ⟨scope, hscope⟩ := h name hname
    exact ⟨scope, List.mem_append_left _ hscope⟩
  · obtain ⟨scope, hscope⟩ := h' name hname
    exact ⟨scope, List.mem_append_right _ hscope⟩

theorem Step.closed {rights : Rights} {body next : Script (Option ScopeId)} {m : Move}
    (h : Step rights s body m next) : Closed [m] := by
  intro name hname
  obtain rfl := List.mem_singleton.mp hname
  cases h

theorem Runs.closed {t : Task} (h : Runs p t s ms a) : Closed ms := by
  induction h with
  | done | known | busy | asked | undeclared | idle => exact fun _ h => nomatch h
  | move hm _ ih => exact hm.closed.append ih
  | unserved _ _ ih => exact ih
  | static _ _ ih ih' | call _ _ ih ih' | turn _ _ ih ih' => exact ih.append ih'
  | body _ _ _ ih =>
    intro name hname
    obtain ⟨scope, hscope⟩ := ih name (by simpa using hname)
    exact ⟨scope, by simp [hscope]⟩
  | @value other _ _ _ a _ _ _ ih =>
    intro name hname
    by_cases he : name = other
    · exact ⟨a, by simp [he]⟩
    · obtain ⟨scope, hscope⟩ := ih name (by simpa [he] using hname)
      exact ⟨scope, by simp [hscope]⟩

/-- A scope is made after some moves, when no static that they enter is being replayed. -/
structure MadeAt (s : ReplayState) (ms pre : List Move) (scope : Option ScopeId) : Prop where
  make : ∃ operators post, ms = pre ++ .make operators :: post
  closed : Closed pre
  scope_eq : scope = some (s.after pre).forest.size

theorem MadeAt.append (h : MadeAt (s.after ms) post pre a) (hms : Closed ms) :
    MadeAt s (ms ++ post) (ms ++ pre) a where
  make := by
    obtain ⟨operators, rest, rfl⟩ := h.make
    exact ⟨operators, rest, (List.append_assoc _ _ _).symm⟩
  closed := hms.append h.closed
  scope_eq := by
    rw [after_append]
    exact h.scope_eq

/-- A script that makes its result makes it now or later. -/
theorem Step.makes {rights : Rights} {body next : Script (Option ScopeId)} {m : Move}
    (h : Step rights s body m next) (hb : body.Makes id) :
    (∃ operators, m = .make operators ∧ next.Ends (· = some s.forest.size)) ∨ next.Makes id := by
  cases hb with
  | own hown =>
    cases h
    exact .inl ⟨_, rfl, hown _⟩
  | make hb =>
    cases h
    exact .inr (hb _)
  | link hb | attach hb | serve hb =>
    cases h
    exact .inr hb
  | static | call => cases h

/-- A run of a script that makes its result makes it in a move of its own. -/
theorem Runs.exists_madeAt {rights : Rights} {body : Script (Option ScopeId)}
    (h : Runs p (.script rights body) s ms a) (hb : body.Makes id) : ∃ pre, MadeAt s ms pre a := by
  generalize ht : Task.script rights body = t at h
  induction h generalizing body with
  | done =>
    cases ht
    cases hb
  | @move _ _ m _ s ms a hm hrest ih =>
    cases ht
    rcases hm.makes hb with ⟨operators, rfl, hown⟩ | hnext
    · exact ⟨[], ⟨_, _, rfl⟩, fun _ h => absurd h List.not_mem_nil, hrest.ends hown⟩
    · obtain ⟨pre, hpre⟩ := ih hnext rfl
      exact ⟨m :: pre, MadeAt.append (show MadeAt (s.after [m]) ms pre a from hpre) hm.closed⟩
  | unserved _ _ ih =>
    cases ht
    cases hb with
    | serve hb => exact ih hb rfl
  | static hjump _ _ ih' =>
    cases ht
    cases hb with
    | static hb =>
      obtain ⟨pre, hpre⟩ := ih' (hb _) rfl
      exact ⟨_, hpre.append hjump.closed⟩
  | call hjump _ _ ih' =>
    cases ht
    cases hb with
    | call hb =>
      obtain ⟨pre, hpre⟩ := ih' (hb _) rfl
      exact ⟨_, hpre.append hjump.closed⟩
  | _ => cases ht

end Replay

end ServiceContract
