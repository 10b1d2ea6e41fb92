import ServiceContract.Proofs.Enumerates
import ServiceContract.Source.Walk

/-! # Positions in expressions

The expressions that stand directly in an expression are its parts, and each has a role in it. A
position says which part to go to, step by step, so it tells apart equal expressions that stand in
different places. A list that is made of parts of some roles, part by part, has what stands in the
positions through such parts.
-/

namespace ServiceContract.Source

/-- A body inside an expression. A `return` in it does not leave the bodies around it. -/
inductive InnerBody
  | closure
  | async
  /-- A declaration in a block. -/
  | item
  /-- A constant in a type, a pattern or an attribute, or a block of constants. -/
  | constant
  deriving DecidableEq, Repr

/-- What an expression is to the one that it stands in. -/
inductive Role
  /-- The value of the whole is its value, if it comes to it. -/
  | value
  | step
  /-- It stands in a body of its own. -/
  | inside (body : InnerBody)
  /-- What the macro makes of it is not known. -/
  | argument
  deriving DecidableEq, Repr

namespace Role

def isValue (r : Role) : Bool := r == value

end Role

/-- All roles. -/
def everywhere : Role → Bool := fun _ => true

/-- An expression in another one, with its role. -/
abbrev Part := Role × Expr

namespace Part

def all (r : Role) (es : List Expr) : List Part := es.map (r, ·)

def steps : List Expr → List Part := all .step

def constants : List Expr → List Part := all (.inside .constant)

def ofMacro (m : MacroCall) : List Part := all .argument (m.args.getD [])

mutual

/-- The parts of a statement; its own expressions have one role. -/
def ofStmt (r : Role) : Stmt → List Part
  | .binding _ inner value none => constants inner ++ all r value.toList
  | .binding _ inner value (some b) => constants inner ++ all r value.toList ++ ofStmts r b
  | .expr attributes e _ => constants attributes ++ all r [e]
  | .macroCall m => ofMacro m
  | .item inner => all (.inside .item) inner

/-- The parts of statements, none of which is their value. -/
def ofStmts (r : Role) : List Stmt → List Part
  | [] => []
  | s :: rest => ofStmt r s ++ ofStmts r rest

end

/-- The parts of a block. The expression that it ends in is its value. -/
def ofBlock : Block → List Part
  | [] => []
  | [.expr attributes e false] => constants attributes ++ all .value [e]
  | s :: rest => ofStmt .step s ++ ofBlock rest

def ofArm : Arm → List Part
  | .mk _ inner guard body => constants inner ++ steps guard.toList ++ all .value [body]

/-- The expressions in some of the roles. -/
def kept (keep : Role → Bool) (cs : List Part) : List Expr := (cs.filter (keep ·.1)).map Prod.snd

end Part

namespace Expr

open Source.Part

/-- Whether a called function wraps the value of success. -/
def isWrapper (function : Expr) : Bool :=
  calleeName? function == some "Ok" || calleeName? function == some "Some"

/-- The expressions that stand directly in an expression, in source order. -/
def parts : Expr → List Part
  | .lit _ | .other => []
  | .path _ inner => constants inner
  | .paren e => all .value [e]
  | .ref e | .rawAddress e | .unary _ e | .field e _ | .attempt e | .await e => steps [e]
  | .binary _ l r | .assign l r | .index l r => steps [l, r]
  | .cast e _ inner => steps [e] ++ constants inner
  | .call f [a] => steps [f] ++ all (if f.isWrapper then .value else .step) [a]
  | .call f args => steps [f] ++ steps args
  | .methodCall e _ _ inner args => steps [e] ++ constants inner ++ steps args
  | .macroCall m => ofMacro m
  | .record _ inner fields rest =>
    constants inner ++ steps (fields.map Prod.snd) ++ steps rest.toList
  | .tuple es | .array es => steps es
  | .repeated e count => steps [e] ++ constants [count]
  | .range low high => steps low.toList ++ steps high.toList
  | .block b | .uncheckedBlock b => ofBlock b
  | .constBlock b => ofStmts (.inside .constant) b
  | .asyncBlock b => ofStmts (.inside .async) b
  | .tryBlock b | .loop b => ofStmts .step b
  | .ifThen c b otherwise => steps [c] ++ ofBlock b ++ all .value otherwise.toList
  | .matchOn e arms => steps [e] ++ arms.flatMap ofArm
  | .whileLoop c b => steps [c] ++ ofStmts .step b
  | .forLoop _ inner e b => constants inner ++ steps [e] ++ ofStmts .step b
  | .letCond _ inner e => constants inner ++ steps [e]
  | .closure _ inner e => all (.inside .closure) (inner ++ [e])
  | .returns e | .breaks e | .yields e => steps e.toList

end Expr

namespace Part

variable {keep : Role → Bool} {cs cs' : List Part} {r : Role} {es : List Expr}

@[simp] theorem kept_nil : kept keep [] = [] := rfl

@[simp] theorem kept_append : kept keep (cs ++ cs') = kept keep cs ++ kept keep cs' := by
  simp [kept]

@[simp] theorem kept_all : kept keep (all r es) = if keep r then es else [] := by
  cases h : keep r <;> simp [kept, all, List.filter_map, Function.comp_def, h]

@[simp] theorem kept_steps : kept keep (steps es) = if keep .step then es else [] := kept_all

@[simp] theorem kept_constants :
    kept keep (constants es) = if keep (.inside .constant) then es else [] := kept_all

@[simp] theorem kept_ofMacro {m : MacroCall} :
    kept keep (ofMacro m) = if keep .argument then m.args.getD [] else [] := kept_all

@[simp] theorem kept_flatMap {α : Type} {l : List α} {f : α → List Part} :
    kept keep (l.flatMap f) = l.flatMap fun a => kept keep (f a) := by
  simp [kept, List.filter_flatMap, List.map_flatMap]

end Part

namespace Walk

open Source.Part

variable (w : Walk)

/-- Whether a walk goes to parts of a role. -/
def goesTo : Role → Bool
  | .inside .closure => w.closures
  | .argument => w.macros
  | _ => true

theorem goesTo_everywhere : (Walk.mk true true).goesTo = everywhere := by
  funext r
  cases r with
  | inside body => cases body <;> rfl
  | _ => rfl

theorem exprs_eq (es : List Expr) : w.exprs es = es.flatMap w.expr := by
  induction es with
  | nil => rfl
  | cons e es ih => rw [exprs, ih, List.flatMap_cons]

theorem optional_eq (o : Option Expr) : w.optional o = o.toList.flatMap w.expr := by
  cases o <;> simp [optional]

theorem fieldExprs_eq (fs : List (String × Expr)) :
    w.fieldExprs fs = (fs.map Prod.snd).flatMap w.expr := by
  induction fs with
  | nil => rfl
  | cons f fs ih => simp [fieldExprs, ih]

theorem arms_eq (as : List Arm) :
    w.arms as = (kept w.goesTo (as.flatMap ofArm)).flatMap w.expr := by
  induction as with
  | nil => rfl
  | cons a as ih =>
    obtain ⟨_, inner, guard, body⟩ := a
    simp [arms, ih, exprs_eq, optional_eq, ofArm, goesTo]

theorem macroCall_eq (m : MacroCall) :
    w.macroCall m = (kept w.goesTo (ofMacro m)).flatMap w.expr := by
  obtain ⟨p, b, _ | args, entries⟩ := m <;> cases h : w.macros <;>
    simp [macroCall, MacroCall.args, goesTo, exprs_eq, h]

variable {w} in
theorem stmts_eq {r : Role} (hr : w.goesTo r = true) :
    (∀ s, w.stmt s = (kept w.goesTo (ofStmt r s)).flatMap w.expr) ∧
      ∀ b, w.stmts b = (kept w.goesTo (ofStmts r b)).flatMap w.expr := by
  apply ofStmt.mutual_induct
  all_goals
    intros
    simp_all [stmt, stmts, ofStmt, ofStmts, exprs_eq, optional_eq, macroCall_eq, goesTo]

theorem block_eq (b : Block) : w.stmts b = (kept w.goesTo (ofBlock b)).flatMap w.expr := by
  fun_induction ofBlock b with
  | case1 => rfl
  | case2 attributes e => simp [stmts, stmt, exprs_eq, goesTo]
  | case3 s rest _ ih => simp [stmts, ih, (stmts_eq (w := w) (r := .step) rfl).1]

/-- A walk lists an expression and what is in the parts that it goes to. -/
theorem expr_eq (e : Expr) : w.expr e = e :: (kept w.goesTo e.parts).flatMap w.expr := by
  cases e with
  | call f args => match args with
    | [] => simp [expr, exprs, Expr.parts, goesTo]
    | [a] => cases h : f.isWrapper <;> simp [expr, exprs, Expr.parts, goesTo, h]
    | a :: b :: as => simp [expr, exprs_eq, Expr.parts, goesTo]
  | constBlock b => simp [expr, Expr.parts, (stmts_eq (w := w) (r := .inside .constant) rfl).2]
  | asyncBlock b => simp [expr, Expr.parts, (stmts_eq (w := w) (r := .inside .async) rfl).2]
  | tryBlock b | loop b => simp [expr, Expr.parts, (stmts_eq (w := w) (r := .step) rfl).2]
  | whileLoop _ b | forLoop _ _ _ b =>
    simp [expr, Expr.parts, exprs_eq, goesTo, (stmts_eq (w := w) (r := .step) rfl).2]
  | closure _ inner e =>
    cases h : w.closures <;> simp [expr, Expr.parts, exprs_eq, goesTo, h]
  | _ =>
    simp [expr, Expr.parts, exprs_eq, optional_eq, fieldExprs_eq, arms_eq, macroCall_eq,
      block_eq, goesTo]

end Walk

/-- What holds of an expression if it holds of its parts holds of all expressions. -/
theorem Expr.parts_induction {P : Expr → Prop} (h : ∀ e : Expr, (∀ c ∈ e.parts, P c.2) → P e)
    (e : Expr) : P e := by
  let w : Walk := ⟨true, true⟩
  have hkept (e : Expr) : Part.kept w.goesTo e.parts = e.parts.map Prod.snd := by
    simp [w, Part.kept, Walk.goesTo_everywhere, everywhere]
  induction hn : (w.expr e).length using Nat.strongRecOn generalizing e with
  | ind n ih =>
    refine h e fun c hc => ih _ ?_ c.2 rfl
    have hmem : c.2 ∈ Part.kept w.goesTo e.parts := hkept e ▸ List.mem_map_of_mem hc
    rw [← hn, Walk.expr_eq w e, List.length_cons]
    exact Nat.lt_succ_of_le (List.sublist_flatten_of_mem (List.mem_map_of_mem hmem)).length_le

/-- Where an expression stands in another one: the places of the parts to go to, step by step. -/
abbrev Position := List ℕ

/-- A position leads through parts of some roles to an expression. -/
inductive Leads (keep : Role → Bool) : Expr → Position → Expr → Prop
  | here (e : Expr) : Leads keep e [] e
  | down {e c x : Expr} {i : ℕ} {r : Role} {p : Position} : e.parts[i]? = some (r, c) →
    keep r = true → Leads keep c p x → Leads keep e (i :: p) x

namespace Leads

variable {keep keep' : Role → Bool} {e c x y : Expr} {i : ℕ} {p q : Position}

theorem nil_iff : Leads keep e [] x ↔ x = e := by
  constructor
  · rintro ⟨⟩
    rfl
  · rintro rfl
    exact .here x

theorem cons_iff : Leads keep e (i :: p) x ↔
    ∃ r c, e.parts[i]? = some (r, c) ∧ keep r = true ∧ Leads keep c p x := by
  constructor
  · rintro ⟨⟩
    exact ⟨_, _, ‹_›, ‹_›, ‹_›⟩
  · rintro ⟨r, c, hc, hr, hx⟩
    exact .down hc hr hx

theorem append_iff : Leads keep e (p ++ q) x ↔ ∃ y, Leads keep e p y ∧ Leads keep y q x := by
  induction p generalizing e with
  | nil => simp [nil_iff]
  | cons i p ih =>
    simp only [List.cons_append, cons_iff, ih]
    constructor
    · rintro ⟨r, c, hc, hr, y, hy, hx⟩
      exact ⟨y, ⟨r, c, hc, hr, hy⟩, hx⟩
    · rintro ⟨y, ⟨r, c, hc, hr, hy⟩, hx⟩
      exact ⟨r, c, hc, hr, y, hy, hx⟩

/-- A position leads to one expression, whatever the roles. -/
theorem unique (h : Leads keep e p x) (h' : Leads keep' e p y) : x = y := by
  induction h with
  | here e => exact (nil_iff.mp h').symm
  | down hc _ _ ih =>
    obtain ⟨r', c', hc', -, hy⟩ := cons_iff.mp h'
    cases hc.symm.trans hc'
    exact ih hy

theorem mono (h : Leads keep e p x) (hk : ∀ r, keep r = true → keep' r = true) :
    Leads keep' e p x := by
  induction h with
  | here e => exact .here e
  | down hc hr _ ih => exact .down hc (hk _ hr) ih

end Leads

open Source.Part in
/-- A list that has an expression, if it is of a kind, and what is listed for some of its parts has
once each expression of the kind that positions through such parts lead to, each expression before
those inside it and otherwise in source order. -/
theorem enumerates_leads {keep : Role → Bool} (kind : Expr → Bool) {list : Expr → List Expr}
    (hl : ∀ e, list e = (if kind e then [e] else []) ++ (kept keep e.parts).flatMap list)
    (e : Expr) : EnumeratesBy (· < ·) (fun p x => Leads keep e p x ∧ kind x = true) (list e) := by
  induction e using Expr.parts_induction with
  | h e ih =>
    have here : EnumeratesBy (· < ·) (fun (p : Position) x => p = [] ∧ x = e ∧ kind x = true)
        (if kind e then [e] else []) := by
      split
      · next hk => exact .singleton (i := []) (a := e) fun p x => by grind
      · next hk => exact .nil fun p x => by grind
    have inside (cs : List Part) : (kept keep cs).flatMap list =
        cs.flatMap fun c => if keep c.1 then list c.2 else [] := by
      induction cs with
      | nil => rfl
      | cons c cs ih => by_cases hk : keep c.1 = true <;> simp_all [kept]
    have part (i : ℕ) (c : Part) (hc : e.parts[i]? = some c) : EnumeratesBy (· < ·)
        (fun p x => ∃ q, i :: q = p ∧ keep c.1 = true ∧ Leads keep c.2 q x ∧ kind x = true)
        (if keep c.1 then list c.2 else []) := by
      split
      · next hk =>
        have := (ih c (List.mem_of_getElem? hc)).reindex (S := (· < ·)) (f := (i :: ·))
          fun q q' hq => List.cons_lt_cons_iff.mpr (.inr ⟨rfl, hq⟩)
        exact this.congr fun p x => by simp [hk]
      · next hk => exact .nil fun p x => by simp [hk]
    rw [hl, inside]
    refine (here.append ((EnumeratesBy.places e.parts).flatMap part ?_) ?_).congr fun p x => ?_
    · rintro i _ j _ p x p' y - - hij ⟨q, rfl, -⟩ ⟨q', rfl, -⟩
      exact List.cons_lt_cons_iff.mpr (.inl hij)
    · rintro p x p' y ⟨rfl, -⟩ ⟨i, c, -, q, rfl, -⟩
      exact List.nil_lt_cons i q
    · cases p with
      | nil => simp [Leads.nil_iff]
      | cons i p =>
        simp [Leads.cons_iff]
        grind

end ServiceContract.Source
